import Mathlib.Logic.Relation
import ActorOwnership.Proofs.Growth
import ActorOwnership.Proofs.Walk
import ActorOwnership.Summary.Table

/-! What a request for a summary does to the table. Requests only append; the answer is the entry of
the final table, or a blank summary for a procedure that is being summarised; and every entry is
what its procedure gets from the entries before it. -/

namespace ActorOwnership
set_option autoImplicit false

/-! ### Runs of stateful computations -/

section Runs
variable {σ α β : Type}

theorem run_bind (m : StateM σ α) (k : α → StateM σ β) (t : σ) :
    (m >>= k).run t = (k (m.run t).1).run (m.run t).2 := rfl

theorem run_pure (a : α) (t : σ) : (pure a : StateM σ α).run t = (a, t) := rfl

theorem run_get (t : σ) : (get : StateM σ σ).run t = (t, t) := rfl

theorem run_modify (f : σ → σ) (t : σ) : (modify f : StateM σ Unit).run t = ((), f t) := rfl

end Runs

/-! ### Calls -/

namespace Context

/-- Every flow of the context is the flow of the procedure of its name. -/
def Coherent (c : Context) : Prop :=
  ∀ name, c.flow? name =
    (c.program.find? name).map fun p => Flow.ofScope ⟨p, c.program.library⟩

theorem coherent_ofProgram (g : Program) : (ofProgram g).Coherent := by
  intro name
  unfold flow? ofProgram Program.find?
  rw [List.find?_map]
  rfl

variable {c : Context}

theorem Coherent.flow?_eq_some (hc : c.Coherent) {name : String} {f : Flow} :
    c.flow? name = some f ↔
      ∃ p, c.program.find? name = some p ∧ Flow.ofScope ⟨p, c.program.library⟩ = f := by
  rw [hc name, Option.map_eq_some_iff]

theorem flow?_name {name : String} {f : Flow} (h : c.flow? name = some f) :
    f.scope.procedure.name = name := by
  have := List.find?_some h
  simpa using this

/-- The call of an instruction, with the procedure that it runs. -/
def callAt? (c : Context) (f : Flow) (i : Instr) : Option (Invocation × Procedure) :=
  i.action.invocation?.bind fun v =>
    (c.program.resolveCallee v f.scope.procedure).map fun p => (v, p)

def calleesOf (c : Context) (f : Flow) : List String :=
  f.scope.procedure.statements.filterMap fun x => (c.callAt? f x.2).map fun y => y.2.name

def Calls (c : Context) (a b : String) : Prop := ∃ f, c.flow? a = some f ∧ b ∈ c.calleesOf f

/-- Calls lead from `a` to `b`. -/
def Reaches (c : Context) : String → String → Prop := Relation.ReflTransGen c.Calls

theorem find?_self_of_resolveCallee {g : Program} {v : Invocation} {p q : Procedure}
    (h : g.resolveCallee v p = some q) : g.find? q.name = some q := by
  have key : ∀ name, g.find? name = some q → g.find? q.name = some q := by
    intro name hname
    rw [Program.find?_name hname]
    exact hname
  unfold Program.resolveCallee at h
  split at h
  · split at h
    · exact key _ h
    · cases h
  · cases h
  · split at h
    · rename_i r hr
      split at h
      · exact key _ h
      · cases h
        exact key _ hr
    · exact key _ h

theorem find?_self_of_callAt? {f : Flow} {i : Instr} {v : Invocation} {q : Procedure}
    (h : c.callAt? f i = some (v, q)) : c.program.find? q.name = some q := by
  unfold callAt? at h
  obtain ⟨v', _, h⟩ := Option.bind_eq_some_iff.mp h
  obtain ⟨q', hq, heq⟩ := Option.map_eq_some_iff.mp h
  rw [Prod.mk.injEq] at heq
  exact heq.2 ▸ find?_self_of_resolveCallee hq

theorem Coherent.flow?_callee (hc : c.Coherent) {f : Flow} {q : String} (h : q ∈ c.calleesOf f) :
    ∃ g, c.flow? q = some g := by
  obtain ⟨x, _, hname⟩ := List.mem_filterMap.mp h
  obtain ⟨⟨v, p⟩, hcall, rfl⟩ := Option.map_eq_some_iff.mp hname
  exact ⟨_, by rw [hc, find?_self_of_callAt? hcall, Option.map_some]⟩

theorem name_mem_calleesOf {f : Flow} {x : StatementId × Instr} {v : Invocation} {q : Procedure}
    (hx : x ∈ f.scope.procedure.statements) (h : c.callAt? f x.2 = some (v, q)) :
    q.name ∈ c.calleesOf f :=
  List.mem_filterMap.mpr ⟨x, hx, by rw [h]; rfl⟩

end Context

/-! ### Tables -/

namespace SummaryTable

theorem find?_append (t u : SummaryTable) (name : String) :
    find? (t ++ u) name = (find? t name).or (find? u name) :=
  List.find?_append

theorem find?_of_earlier {t u : SummaryTable} (h : t <+: u) {name : String} {s : Summary}
    (hs : t.find? name = some s) : u.find? name = some s := by
  obtain ⟨r, rfl⟩ := h
  rw [find?_append, hs, Option.some_or]

theorem contains_iff {t : SummaryTable} {name : String} :
    t.contains name = true ↔ ∃ s, t.find? name = some s := by
  rw [contains, Option.isSome_iff_exists]

theorem contains_of_earlier {t u : SummaryTable} (h : t <+: u) {name : String}
    (hn : t.contains name = true) : u.contains name = true := by
  obtain ⟨s, hs⟩ := contains_iff.mp hn
  exact contains_iff.mpr ⟨s, find?_of_earlier h hs⟩

/-- The answer to a request: the entry of the table, or else what is known without one. -/
def answer (c : Context) (t : SummaryTable) (name : String) : Summary :=
  (t.find? name).getD (((c.program.find? name).map Summary.blank).getD { procedure := name })

variable {c : Context} {t u : SummaryTable}

theorem answer_of_find? {name : String} {s : Summary} (h : t.find? name = some s) :
    answer c t name = s := by
  simp [answer, h]

theorem answer_of_absent {name : String} (h : t.find? name = none) :
    answer c t name = ((c.program.find? name).map Summary.blank).getD { procedure := name } := by
  simp [answer, h]

theorem resets_answer (c : Context) (t : SummaryTable) (name : String) :
    (answer c t name).resets = t.resetsOf name := by
  unfold answer resetsOf
  cases ht : t.find? name with
  | some s => rfl
  | none => cases c.program.find? name <;> rfl

end SummaryTable

/-! ### Building from given answers -/

namespace Summary

def gatherStep (c : Context) (flow : Flow) (answer : String → Summary) (x : Summary × List Symbol)
    (st : StatementId × Instr) : Summary × List Symbol :=
  match c.callAt? flow st.2 with
  | none => (x.1.addStatement flow st.1 st.2.action, x.2)
  | some (v, callee) =>
    ((x.1.addStatement flow st.1 st.2.action).addCallee flow st.1 v (answer callee.name),
      union x.2 (calleeResets flow v (answer callee.name)))

def resetsWith (c : Context) (answer : String → Summary) (f : Flow) (field : Symbol)
    (id : StatementId) : Bool :=
  f.resets field id || (c.selfCallee? f id).any fun p => (answer p.name).resets.contains field

/-- The summary of a procedure, given the summaries of its callees. -/
def buildWith (c : Context) (flow : Flow) (answer : String → Summary) : Summary :=
  let p := flow.scope.procedure
  let r := p.statements.foldl (gatherStep c flow answer) (blank p, [])
  { r.1 with
    resets := (union r.2 (r.1.fieldWrites.map Prod.fst)).filter fun x =>
      resetsOnEveryPath p (resetsWith c answer flow x) }

variable {c : Context} {flow : Flow}

theorem gather_cons (request : String → StateM SummaryTable Summary) (st : StatementId × Instr)
    (rest : List (StatementId × Instr)) (s : Summary) (fields : List Symbol) :
    gather c flow request (st :: rest) s fields =
      match c.callAt? flow st.2 with
      | none => gather c flow request rest (s.addStatement flow st.1 st.2.action) fields
      | some (v, callee) => request callee.name >>= fun summary =>
        gather c flow request rest
          ((s.addStatement flow st.1 st.2.action).addCallee flow st.1 v summary)
          (union fields (calleeResets flow v summary)) := by
  obtain ⟨id, instr⟩ := st
  rw [gather]
  unfold Context.callAt?
  cases instr.action.invocation? with
  | none => rfl
  | some v =>
    simp only [Option.bind_some]
    cases c.program.resolveCallee v flow.scope.procedure <;> rfl

theorem gatherStep_plain {answer : String → Summary} {x : Summary × List Symbol}
    {st : StatementId × Instr} (h : c.callAt? flow st.2 = none) :
    gatherStep c flow answer x st = (x.1.addStatement flow st.1 st.2.action, x.2) := by
  simp only [gatherStep, h]

theorem gatherStep_call {answer : String → Summary} {x : Summary × List Symbol}
    {st : StatementId × Instr} {v : Invocation} {q : Procedure}
    (h : c.callAt? flow st.2 = some (v, q)) :
    gatherStep c flow answer x st =
      ((x.1.addStatement flow st.1 st.2.action).addCallee flow st.1 v (answer q.name),
        union x.2 (calleeResets flow v (answer q.name))) := by
  simp only [gatherStep, h]

theorem gatherStep_congr {answer answer' : String → Summary} {st : StatementId × Instr}
    (h : ∀ v q, c.callAt? flow st.2 = some (v, q) → answer q.name = answer' q.name)
    (x : Summary × List Symbol) :
    gatherStep c flow answer x st = gatherStep c flow answer' x st := by
  unfold gatherStep
  split
  · rfl
  · rename_i v q hq
    rw [h v q hq]

theorem foldl_gatherStep_congr {answer answer' : String → Summary}
    {sts : List (StatementId × Instr)}
    (h : ∀ st ∈ sts, ∀ v q, c.callAt? flow st.2 = some (v, q) → answer q.name = answer' q.name)
    (x : Summary × List Symbol) :
    sts.foldl (gatherStep c flow answer) x = sts.foldl (gatherStep c flow answer') x := by
  induction sts generalizing x with
  | nil => rfl
  | cons st sts ih =>
    rw [List.foldl_cons, List.foldl_cons, gatherStep_congr (h st List.mem_cons_self)]
    exact ih (fun st' hst' => h st' (List.mem_cons_of_mem st hst')) _

theorem resetsAt_eq_resetsWith (t : SummaryTable) :
    resetsAt c t flow = resetsWith c (t.answer c) flow := by
  funext field id
  simp only [resetsAt, resetsWith, SummaryTable.resets_answer]

theorem callAt?_of_selfCallee? {id : StatementId} {q : Procedure}
    (h : c.selfCallee? flow id = some q) :
    ∃ i v, flow.scope.procedure.instrAt? id = some i ∧ c.callAt? flow i = some (v, q) := by
  unfold Context.selfCallee? at h
  split at h
  · cases h
  · rename_i v hv
    obtain ⟨i, hi, hv⟩ := Option.bind_eq_some_iff.mp hv
    split at h
    · obtain ⟨hq, _⟩ := Option.filter_eq_some_iff.mp h
      refine ⟨i, v, hi, ?_⟩
      rw [Context.callAt?, hv, Option.bind_some, hq]
      rfl
    · cases h

theorem selfCallee?_mem_calleesOf {id : StatementId} {q : Procedure}
    (h : c.selfCallee? flow id = some q) : q.name ∈ c.calleesOf flow := by
  obtain ⟨i, v, hi, hcall⟩ := callAt?_of_selfCallee? h
  exact Context.name_mem_calleesOf (Procedure.mem_statements.mpr hi) hcall

theorem find?_self_of_selfCallee? {id : StatementId} {q : Procedure}
    (h : c.selfCallee? flow id = some q) : c.program.find? q.name = some q := by
  obtain ⟨i, v, _, hcall⟩ := callAt?_of_selfCallee? h
  exact Context.find?_self_of_callAt? hcall

/-- A summary depends on the answers for the callees only. -/
theorem buildWith_congr {answer answer' : String → Summary}
    (h : ∀ q ∈ c.calleesOf flow, answer q = answer' q) :
    buildWith c flow answer = buildWith c flow answer' := by
  have hfold := foldl_gatherStep_congr
    (fun st hst v q hq => h q.name (Context.name_mem_calleesOf hst hq))
    (blank flow.scope.procedure, [])
  have hresets : resetsWith c answer flow = resetsWith c answer' flow := by
    funext field id
    unfold resetsWith
    cases hq : c.selfCallee? flow id with
    | none => rfl
    | some q => simp [h q.name (selfCallee?_mem_calleesOf hq)]
  simp only [buildWith, hfold, hresets]

/-! ### What callees do not change -/

/-- The procedure of a summary, and what it returns. -/
def returned (s : Summary) : String × List Symbol × List Nat :=
  (s.procedure, s.returnedFields, s.returnedParams)

theorem returned_foldl {β : Type} {f : Summary → β → Summary}
    (hf : ∀ s x, (f s x).returned = s.returned) (s : Summary) (xs : List β) :
    (xs.foldl f s).returned = s.returned := by
  induction xs generalizing s with
  | nil => rfl
  | cons x xs ih => rw [List.foldl_cons, ih, hf]

theorem returned_addStore (s : Summary) (field : Symbol) (positions : List Nat) :
    (s.addStore field positions).returned = s.returned := by
  unfold addStore
  split <;> rfl

theorem returned_addEffect (id : StatementId) (s : Summary) (e : Effect) :
    (addEffect flow id s e).returned = s.returned := by
  unfold addEffect
  rw [returned_addStore]
  split <;> rfl

theorem returned_addCallee (s : Summary) (id : StatementId) (v : Invocation) (callee : Summary) :
    (s.addCallee flow id v callee).returned = s.returned := by
  simp only [addCallee]
  split
  · rw [returned_foldl]
    · rfl
    · intro s x
      rw [returned_addStore]
  · rfl

def addReturned (flow : Flow) (r : String × List Symbol × List Nat) (st : StatementId × Instr) :
    String × List Symbol × List Nat :=
  match st.2.action with
  | .return_ (some value) =>
    let values := flow.valueSetOf value st.1
    (r.1, union r.2.1 ((values.map Definition.symbol).filter Symbol.isField),
      union r.2.2 (flow.parameterPositions values))
  | _ => r

theorem returned_addEffects (s : Summary) (f : Fact) :
    ((s.addReads f).addEffects flow f).returned = s.returned := by
  unfold addEffects addReads
  rw [returned_foldl (returned_addEffect _), returned_foldl]
  intro s x
  rfl

theorem returned_addStatement (s : Summary) (st : StatementId × Instr) :
    (s.addStatement flow st.1 st.2.action).returned = addReturned flow s.returned st := by
  simp only [addStatement, addReturned]
  cases flow.fact? st.1 with
  | none =>
    cases st.2.action with
    | return_ value => cases value <;> rfl
    | _ => rfl
  | some f =>
    rw [← returned_addEffects s f]
    cases st.2.action with
    | return_ value => cases value <;> rfl
    | _ => rfl

/-- What a procedure returns can be read off its own statements. -/
theorem returned_buildWith (answer : String → Summary) :
    (buildWith c flow answer).returned = flow.scope.procedure.statements.foldl (addReturned flow)
      (blank flow.scope.procedure).returned := by
  have hstep : ∀ x st, (gatherStep c flow answer x st).1.returned =
      addReturned flow x.1.returned st := by
    intro x st
    cases hcall : c.callAt? flow st.2 with
    | none => rw [gatherStep_plain hcall, returned_addStatement]
    | some w => rw [gatherStep_call hcall, returned_addCallee, returned_addStatement]
  have hfold : ∀ (sts : List (StatementId × Instr)) (x : Summary × List Symbol),
      (sts.foldl (gatherStep c flow answer) x).1.returned =
        sts.foldl (addReturned flow) x.1.returned := by
    intro sts
    induction sts with
    | nil => exact fun _ => rfl
    | cons st sts ih => exact fun x => by rw [List.foldl_cons, List.foldl_cons, ih, hstep]
  exact hfold flow.scope.procedure.statements (blank flow.scope.procedure, [])

theorem procedure_buildWith (answer : String → Summary) :
    (buildWith c flow answer).procedure = flow.scope.procedure.name := by
  have hfold : ∀ (sts : List (StatementId × Instr)) (r : String × List Symbol × List Nat),
      (sts.foldl (addReturned flow) r).1 = r.1 := by
    intro sts
    induction sts with
    | nil => exact fun _ => rfl
    | cons st sts ih =>
      intro r
      rw [List.foldl_cons, ih, addReturned]
      split <;> rfl
  calc (buildWith c flow answer).procedure
    _ = (buildWith c flow answer).returned.1 := rfl
    _ = (blank flow.scope.procedure).returned.1 := by rw [returned_buildWith, hfold]
    _ = flow.scope.procedure.name := rfl

end Summary

/-! ### Requests -/

namespace SummaryTable

/-- How requests for `names`, one after the other, take the table `t` to the table `u` while the
procedures on the path are being summarised. A name is passed over when it has an entry, is on the
path or is unknown; any other one gets its entry after its callees. -/
inductive Requests (c : Context) :
    List String → SummaryTable → List String → SummaryTable → Prop where
  | done {path : List String} {t : SummaryTable} : Requests c path t [] t
  | skip {path rest : List String} {t u : SummaryTable} {q : String} :
      t.contains q = true ∨ q ∈ path ∨ c.flow? q = none →
        Requests c path t rest u → Requests c path t (q :: rest) u
  | build {path rest : List String} {t u v : SummaryTable} {q : String} {flow : Flow} :
      t.find? q = none → q ∉ path → c.flow? q = some flow →
        Requests c (q :: path) t (c.calleesOf flow) u →
          Requests c path (u ++ [Summary.buildWith c flow (u.answer c)]) rest v →
            Requests c path t (q :: rest) v

/-- No procedure on the path has an entry. -/
def Idle (path : List String) (t : SummaryTable) : Prop := ∀ q ∈ path, t.find? q = none

/-- Every entry is what its procedure gets from the entries before it. A callee without an earlier
entry was being summarised at that time, so calls lead from it back to the procedure. -/
inductive Built (c : Context) : SummaryTable → Prop where
  | empty : Built c []
  | extend {t : SummaryTable} {name : String} {flow : Flow} :
      Built c t → c.flow? name = some flow → t.find? name = none →
        (∀ q ∈ c.calleesOf flow, t.contains q = true ∨ c.Reaches q name) →
          Built c (t ++ [Summary.buildWith c flow (t.answer c)])

variable {c : Context} {flow : Flow} {path : List String}

theorem find?_singleton {s : Summary} {name : String} :
    find? [s] name = if s.procedure = name then some s else none := by
  by_cases h : s.procedure = name <;> simp [find?, h]

theorem find?_extend {name : String} (hflow : c.flow? name = some flow) (t : SummaryTable)
    (answer : String → Summary) (q : String) :
    find? (t ++ [Summary.buildWith c flow answer]) q =
      (t.find? q).or (if name = q then some (Summary.buildWith c flow answer) else none) := by
  rw [find?_append, find?_singleton, Summary.procedure_buildWith, Context.flow?_name hflow]

theorem answer_stable {t u : SummaryTable} (h : t <+: u) (ht : Idle path t) (hu : Idle path u)
    {q : String} (hq : q ∈ path ∨ t.contains q = true) : answer c u q = answer c t q := by
  rcases hq with hq | hq
  · rw [answer_of_absent (ht q hq), answer_of_absent (hu q hq)]
  · obtain ⟨s, hs⟩ := contains_iff.mp hq
    rw [answer_of_find? hs, answer_of_find? (find?_of_earlier h hs)]

namespace Requests
variable {t u v : SummaryTable} {names : List String}

theorem grows (h : Requests c path t names u) : t <+: u := by
  induction h with
  | done => exact List.prefix_rfl
  | skip _ _ ih => exact ih
  | build _ _ _ _ _ ihsub ihrest => exact (ihsub.trans (List.prefix_append _ _)).trans ihrest

theorem trans {more : List String} (h : Requests c path t names u)
    (hmore : Requests c path u more v) : Requests c path t (names ++ more) v := by
  induction h with
  | done => exact hmore
  | skip hq _ ih => exact .skip hq (ih hmore)
  | build hnone hq hflow hsub _ _ ih => exact .build hnone hq hflow hsub (ih hmore)

theorem split {q : String} (h : Requests c path t (q :: names) v) :
    ∃ u, Requests c path t [q] u ∧ Requests c path u names v := by
  cases h with
  | skip hq hrest => exact ⟨t, .skip hq .done, hrest⟩
  | build hnone hq hflow hsub hrest => exact ⟨_, .build hnone hq hflow hsub .done, hrest⟩

theorem idle (h : Requests c path t names u) (ht : Idle path t) : Idle path u := by
  induction h with
  | done => exact ht
  | skip _ _ ih => exact ih ht
  | @build path _ t u _ q flow hnone hq hflow _ _ ihsub ihrest =>
    have hu : Idle (q :: path) u := ihsub (List.forall_mem_cons.mpr ⟨hnone, ht⟩)
    refine ihrest fun a ha => ?_
    have hne : q ≠ a := by
      rintro rfl
      exact hq ha
    rw [find?_extend hflow, hu a (List.mem_cons_of_mem q ha), if_neg hne, Option.none_or]

/-- A name that is passed over for no other reason has an entry in the end. -/
theorem settled (h : Requests c path t names u) :
    ∀ n ∈ names, u.contains n = true ∨ n ∈ path ∨ c.flow? n = none := by
  induction h with
  | done => simp
  | skip hq hrest ih =>
    refine List.forall_mem_cons.mpr ⟨?_, ih⟩
    exact hq.imp_left fun h => contains_of_earlier hrest.grows h
  | @build path _ t u _ q flow hnone hq hflow hsub hrest ihsub ihrest =>
    refine List.forall_mem_cons.mpr ⟨Or.inl (contains_of_earlier hrest.grows ?_), ihrest⟩
    rw [contains, find?_extend hflow, if_pos rfl, Option.isSome_or, Option.isSome_some,
      Bool.or_true]

theorem settled_callee (hc : c.Coherent) (h : Requests c path t (c.calleesOf flow) u) {q : String}
    (hq : q ∈ c.calleesOf flow) : u.contains q = true ∨ q ∈ path := by
  rcases h.settled q hq with h | h | h
  · exact Or.inl h
  · exact Or.inr h
  · -- a callee is never unknown
    obtain ⟨_, hflow⟩ := hc.flow?_callee hq
    rw [h] at hflow
    cases hflow

theorem built (hc : c.Coherent) (h : Requests c path t names u) (ht : Built c t)
    (hidle : Idle path t) (hpath : ∀ a ∈ path, ∀ n ∈ names, c.Reaches a n) : Built c u := by
  -- the path is a chain of calls: what is on it leads to what is asked for
  induction h with
  | done => exact ht
  | skip _ _ ih =>
    exact ih ht hidle fun a ha n hn => hpath a ha n (List.mem_cons_of_mem _ hn)
  | @build path _ t u _ q flow hnone hq hflow hsub hrest ihsub ihrest =>
    have hidle' : Idle (q :: path) t := List.forall_mem_cons.mpr ⟨hnone, hidle⟩
    have hreach : ∀ a ∈ q :: path, c.Reaches a q := List.forall_mem_cons.mpr
      ⟨.refl, fun a ha => hpath a ha q List.mem_cons_self⟩
    have hu := ihsub ht hidle' fun a ha n hn => (hreach a ha).tail ⟨flow, hflow, hn⟩
    have hnone' : u.find? q = none := hsub.idle hidle' q List.mem_cons_self
    have hentry := hu.extend hflow hnone' fun n hn =>
      (hsub.settled_callee hc hn).imp_right (hreach n)
    refine ihrest hentry ?_ fun a ha n hn => hpath a ha n (List.mem_cons_of_mem q hn)
    exact Requests.idle (.build hnone hq hflow hsub .done) hidle

theorem built_outside (hc : c.Coherent) (h : Requests c [] t names u) (ht : Built c t) :
    Built c u :=
  h.built hc ht (List.forall_mem_nil _) (List.forall_mem_nil _)

end Requests

/-- What a request for `q` gives when the procedures on the path are being summarised. -/
structure Served (c : Context) (path : List String) (t : SummaryTable) (q : String)
    (r : Summary × SummaryTable) : Prop where
  requests : Requests c path t [q] r.2
  answers : r.1 = r.2.answer c q

theorem gather_run (hc : c.Coherent) (flow : Flow)
    {request : String → StateM SummaryTable Summary}
    (spec : ∀ q t, Idle path t → Served c path t q ((request q).run t))
    (sts : List (StatementId × Instr)) (s : Summary) (fields : List Symbol) {t : SummaryTable}
    (ht : Idle path t) :
    let r := (Summary.gather c flow request sts s fields).run t
    Requests c path t (sts.filterMap fun x => (c.callAt? flow x.2).map fun y => y.2.name) r.2 ∧
      r.1 = sts.foldl (Summary.gatherStep c flow (r.2.answer c)) (s, fields) := by
  induction sts generalizing s fields t with
  | nil => exact ⟨.done, rfl⟩
  | cons st sts ih =>
    rw [Summary.gather_cons]
    -- a callee's answer is the one of the final table: it has an entry by then or stays on the path
    cases hcall : c.callAt? flow st.2 with
    | none =>
      obtain ⟨hrequests, hfold⟩ := ih (s.addStatement flow st.1 st.2.action) fields ht
      refine ⟨?_, ?_⟩
      · rw [List.filterMap_cons_none (by rw [hcall, Option.map_none])]
        exact hrequests
      · rw [List.foldl_cons, Summary.gatherStep_plain hcall]
        exact hfold
    | some w =>
      obtain ⟨v, q⟩ := w
      obtain ⟨hfirst, hanswer⟩ := spec q.name t ht
      have hidle := hfirst.idle ht
      simp only [run_bind]
      obtain ⟨hrequests, hfold⟩ := ih
        ((s.addStatement flow st.1 st.2.action).addCallee flow st.1 v ((request q.name).run t).1)
        (union fields (Summary.calleeResets flow v ((request q.name).run t).1)) hidle
      have hkept : q.name ∈ path ∨ ((request q.name).run t).2.contains q.name = true := by
        rcases hfirst.settled q.name List.mem_cons_self with h | h | h
        · exact Or.inr h
        · exact Or.inl h
        · rw [hc, Context.find?_self_of_callAt? hcall] at h
          cases h
      refine ⟨?_, ?_⟩
      · rw [List.filterMap_cons_some (by rw [hcall, Option.map_some])]
        exact hfirst.trans hrequests
      · rw [List.foldl_cons, Summary.gatherStep_call hcall,
          answer_stable hrequests.grows hidle (hrequests.idle hidle) hkept, ← hanswer]
        exact hfold

theorem build_run (hc : c.Coherent) {request : String → StateM SummaryTable Summary}
    (spec : ∀ q t, Idle path t → Served c path t q ((request q).run t)) {t : SummaryTable}
    (ht : Idle path t) :
    let r := (Summary.build c flow request).run t
    Requests c path t (c.calleesOf flow) r.2 ∧
      r.1 = Summary.buildWith c flow (r.2.answer c) := by
  obtain ⟨hrequests, hfold⟩ := gather_run hc flow spec flow.scope.procedure.statements
    (Summary.blank flow.scope.procedure) [] ht
  refine ⟨hrequests, ?_⟩
  simp only [Summary.build, run_bind, run_get, run_pure, Summary.resetsAt_eq_resetsWith]
  rw [hfold]
  rfl

/-! The four ways of a request. -/

section Ways
variable {t : SummaryTable} {fuel : Nat} {name : String}

theorem requestWithin_cached {s : Summary} (h : t.find? name = some s) :
    (requestWithin c fuel path name).run t = (s, t) := by
  rw [requestWithin]
  simp only [run_bind, run_get, h, run_pure]

theorem requestWithin_unknown (h : t.find? name = none) (hflow : c.flow? name = none) :
    (requestWithin c fuel path name).run t = ({ procedure := name }, t) := by
  rw [requestWithin]
  simp only [run_bind, run_get, h, hflow]
  cases c.program.find? name <;> rfl

theorem requestWithin_active {p : Procedure} (h : t.find? name = none)
    (hp : c.program.find? name = some p) (hflow : c.flow? name = some flow) (hpath : name ∈ path) :
    (requestWithin c fuel path name).run t = (Summary.blank p, t) := by
  rw [requestWithin]
  simp only [run_bind, run_get, h, hp, hflow, List.contains_iff_mem, hpath, if_true, run_pure]

theorem requestWithin_build {p : Procedure} (h : t.find? name = none)
    (hp : c.program.find? name = some p) (hflow : c.flow? name = some flow) (hpath : name ∉ path) :
    (requestWithin c (fuel + 1) path name).run t =
      let r := (Summary.build c flow (requestWithin c fuel (name :: path))).run t
      (r.1, r.2 ++ [r.1]) := by
  rw [requestWithin]
  simp only [run_bind, run_get, h, hp, hflow, List.contains_iff_mem, hpath, if_false, run_modify,
    run_pure]

end Ways

theorem served_of_build {t : SummaryTable} {name : String} {r : Summary × SummaryTable}
    (hname : t.find? name = none) (hpath : name ∉ path) (hflow : c.flow? name = some flow)
    (ht : Idle (name :: path) t) (hrequests : Requests c (name :: path) t (c.calleesOf flow) r.2)
    (hbuild : r.1 = Summary.buildWith c flow (r.2.answer c)) :
    Served c path t name (r.1, r.2 ++ [r.1]) := by
  have hnone := hrequests.idle ht name List.mem_cons_self
  obtain ⟨s, u⟩ := r
  simp only at hrequests hbuild hnone ⊢
  subst hbuild
  refine ⟨.build hname hpath hflow hrequests .done, ?_⟩
  refine (answer_of_find? ?_).symm
  rw [find?_extend hflow, hnone, if_pos rfl, Option.none_or]

/-- Requests meet their specification as long as the fuel outlasts the procedures off the path. -/
theorem requestWithin_served (hc : c.Coherent) (fuel : Nat) {path : List String}
    (hnodup : path.Nodup) (hknown : path ⊆ c.program.procedures.map Procedure.name)
    (hfuel : c.program.procedures.length < fuel + path.length) (name : String) {t : SummaryTable}
    (ht : Idle path t) : Served c path t name ((requestWithin c fuel path name).run t) := by
  induction fuel generalizing path name t with
  | zero =>
    -- the path would be longer than the program
    have hlen := length_le_of_subset hnodup hknown
    rw [List.length_map] at hlen
    omega
  | succ fuel ih =>
    cases hname : t.find? name with
    | some s =>
      rw [requestWithin_cached hname]
      exact ⟨.skip (Or.inl (contains_iff.mpr ⟨s, hname⟩)) .done, (answer_of_find? hname).symm⟩
    | none =>
      cases hp : c.program.find? name with
      | none =>
        have hflow : c.flow? name = none := by rw [hc, hp, Option.map_none]
        rw [requestWithin_unknown hname hflow]
        refine ⟨.skip (Or.inr (Or.inr hflow)) .done, ?_⟩
        rw [answer_of_absent hname, hp]
        rfl
      | some p =>
        have hflow : c.flow? name = some (Flow.ofScope ⟨p, c.program.library⟩) := by
          rw [hc, hp, Option.map_some]
        by_cases hpath : name ∈ path
        · rw [requestWithin_active hname hp hflow hpath]
          refine ⟨.skip (Or.inr (Or.inl hpath)) .done, ?_⟩
          rw [answer_of_absent hname, hp]
          rfl
        · have hmem : name ∈ c.program.procedures.map Procedure.name :=
            List.mem_map.mpr ⟨p, List.mem_of_find?_eq_some hp, Program.find?_name hp⟩
          have hidle : Idle (name :: path) t := List.forall_mem_cons.mpr ⟨hname, ht⟩
          have hspec : ∀ q u, Idle (name :: path) u →
              Served c (name :: path) u q ((requestWithin c fuel (name :: path) q).run u) :=
            fun q u hu => ih (List.nodup_cons.mpr ⟨hpath, hnodup⟩)
              (List.cons_subset.mpr ⟨hmem, hknown⟩) (by rw [List.length_cons]; omega) q hu
          obtain ⟨hrequests, hbuild⟩ := build_run hc hspec hidle
          rw [requestWithin_build hname hp hflow hpath]
          exact served_of_build hname hpath hflow hidle hrequests hbuild

theorem request_served (hc : c.Coherent) (name : String) (t : SummaryTable) :
    Served c [] t name ((request c name).run t) :=
  requestWithin_served hc _ List.nodup_nil (List.nil_subset _) (by simp) name (by simp [Idle])

theorem contains_of_request (hc : c.Coherent) {name : String} {p : Procedure}
    (hp : c.program.find? name = some p) (t : SummaryTable) :
    ((request c name).run t).2.contains name = true := by
  rcases (request_served hc name t).requests.settled name List.mem_cons_self with h | h | h
  · exact h
  · cases h
  · rw [hc, hp] at h
    cases h

/-! ### Entries -/

namespace Built
variable {t : SummaryTable} {name : String}

/-- Each entry was made from the part of the table before it. -/
theorem entry (h : Built c t) {s : Summary} (hs : t.find? name = some s) :
    ∃ (u : SummaryTable) (flow : Flow),
      u <+: t ∧ Built c u ∧ c.flow? name = some flow ∧ u.find? name = none ∧
      (∀ q ∈ c.calleesOf flow, u.contains q = true ∨ c.Reaches q name) ∧
      s = Summary.buildWith c flow (u.answer c) := by
  induction h with
  | empty => cases hs
  | @extend t last flow ht hflow hlast hcallees ih =>
    rw [find?_extend hflow] at hs
    cases hfound : t.find? name with
    | some s' =>
      rw [hfound, Option.some_or] at hs
      obtain ⟨u, flow', hu, hrest⟩ := ih (hfound.trans hs)
      exact ⟨u, flow', hu.trans (List.prefix_append _ _), hrest⟩
    | none =>
      rw [hfound, Option.none_or] at hs
      split at hs
      · rename_i heq
        subst heq
        exact ⟨t, flow, List.prefix_append _ _, ht, hflow, hlast, hcallees,
          (Option.some.inj hs).symm⟩
      · cases hs

theorem find?_eq_none (h : Built c t) (hname : c.flow? name = none) : t.find? name = none := by
  cases hs : t.find? name with
  | none => rfl
  | some s =>
    obtain ⟨u, flow, _, _, hflow, _⟩ := h.entry hs
    rw [hname] at hflow
    cases hflow

end Built

/-- The table after a sequence of requests on a fresh one. -/
def asked (c : Context) (names : List String) : SummaryTable :=
  names.foldl (fun t name => ((request c name).run t).2) []

theorem requests_asked (hc : c.Coherent) (names : List String) :
    Requests c [] [] names (asked c names) := by
  have hfold : ∀ (names : List String) (t : SummaryTable), Requests c [] t names
      (names.foldl (fun t name => ((request c name).run t).2) t) := by
    intro names
    induction names with
    | nil => exact fun t => .done
    | cons name names ih =>
      exact fun t => (request_served hc name t).requests.trans (ih _)
  exact hfold names []

theorem built_asked (hc : c.Coherent) (names : List String) : Built c (asked c names) :=
  (requests_asked hc names).built_outside hc .empty

end SummaryTable

end ActorOwnership
