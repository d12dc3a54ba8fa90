import ActorOwnership.Proofs.Discovery
import ActorOwnership.Proofs.Frame

/-! Unrelated procedures do not change what is found in a program without recursion. A procedure is
unrelated if its name and its class are new and no call leads to it: then the same hand-off points are
discovered in the rest of the program, and the sweeps of these points report the same violations. -/

namespace ActorOwnership
set_option autoImplicit false

open SummaryTable (Built)

/-! ### Sweeps -/

theorem Slice.subset_statements (p : Procedure) (h : StatementId) :
    (Slice.of p h).flatMap Prod.snd ⊆ p.statements := by
  intro st hst
  obtain ⟨row, hrow, hst⟩ := List.mem_flatMap.mp hst
  obtain ⟨⟨id, whole⟩, _, rfl⟩ := List.mem_map.mp hrow
  have hmem : st ∈ p.statementsAt id := by
    cases whole with
    | true => exact hst
    | false => exact List.mem_of_mem_take hst
  obtain ⟨k, hk, hi⟩ := Procedure.mem_statementsAt.mp hmem
  exact Procedure.mem_statements.mpr (hk ▸ hi)

namespace Sweep

/-- The sweep of the same point in another context. -/
def inside (w : Sweep) (d : Context) : Sweep := { w with context := d }

section Inside
variable (w : Sweep) (d : Context)

@[simp] theorem context_inside : (w.inside d).context = d := rfl

@[simp] theorem pass_inside : (w.inside d).pass = w.pass := rfl

@[simp] theorem point_inside : (w.inside d).point = w.point := rfl

@[simp] theorem flow_inside : (w.inside d).flow = w.flow := rfl

@[simp] theorem procedure_inside : (w.inside d).procedure = w.procedure := rfl

@[simp] theorem reachesPoint_inside (x : Symbol) (id : StatementId) :
    (w.inside d).reachesPoint x id = w.reachesPoint x id := rfl

end Inside

/-- States that differ at most in their tables. -/
structure Matches (c d : Context) (s s' : State) : Prop where
  built : Built c s.table
  built' : Built d s'.table
  live : s.live = s'.live
  violations : s.violations = s'.violations

/-- From states that match, the steps have the same result and end in states that match. -/
def SameRun (c d : Context) {α : Type} (m m' : M α) : Prop :=
  ∀ s s', Matches c d s s' →
    (m.run.run s).1 = (m'.run.run s').1 ∧ Matches c d (m.run.run s).2 (m'.run.run s').2

section Rules
variable {c d : Context} {α β : Type}

theorem SameRun.of_pure (a : α) : SameRun c d (pure a) (pure a) := fun _ _ hs => ⟨rfl, hs⟩

theorem SameRun.bind {m m' : M α} {k k' : α → M β} (hm : SameRun c d m m')
    (hk : ∀ a, SameRun c d (k a) (k' a)) : SameRun c d (m >>= k) (m' >>= k') := by
  intro s s' hs
  obtain ⟨heq, hu⟩ := hm s s' hs
  rw [ExceptT.run_bind, ExceptT.run_bind, run_bind, run_bind, ← heq]
  cases (m.run.run s).1 with
  | ok a => exact hk a _ _ hu
  | error e => exact ⟨rfl, hu⟩

theorem sameRun_withTable {m m' : StateM SummaryTable α} (hm : Agree c d m m') :
    SameRun c d (withTable m) (withTable m') := by
  intro s s' hs
  obtain ⟨heq, hu, hu'⟩ := hm s.table s'.table hs.built hs.built'
  exact ⟨congrArg Except.ok heq, hu, hu', hs.live, hs.violations⟩

end Rules

section Sweeps
variable {w : Sweep} {d : Context} (hcd : w.context.Part d)
  (hw : w.context.flow? w.procedure.name = some w.flow)

theorem sameRun_rule : SameRun w.context d w.rule (w.inside d).rule := by
  unfold rule
  rw [pass_inside]
  split
  · exact fun _ _ hs => ⟨rfl, hs⟩
  · exact .of_pure ()

theorem sameRun_report (trace : Trace) (id : StatementId) (x : Symbol) :
    SameRun w.context d (w.report trace id x) ((w.inside d).report trace id x) := by
  intro s s' hs
  refine ⟨rfl, hs.built, hs.built', hs.live, ?_⟩
  exact congrArg (· ++ [_]) hs.violations

include hcd hw

theorem sameRun_isLive (x : Symbol) :
    SameRun w.context d (w.isLive x) ((w.inside d).isLive x) := by
  intro s s' hs
  have hget : ∀ s, (get : M State).run.run s = (.ok s, s) := fun _ => rfl
  rw [isLive, isLive, run_bind_ok (hget s), run_bind_ok (hget s'), ← hs.live]
  cases s.live.lookup x with
  | some b => exact ⟨rfl, hs⟩
  | none =>
    refine (sameRun_withTable (Liveness.agree_isReadBeforeReset hcd hw _ _)).bind
      (fun b => ?_) s s' hs
    intro s s' hs
    exact ⟨rfl, hs.built, hs.built', congrArg ((x, b) :: ·) hs.live, hs.violations⟩

theorem sameRun_check (trace : Trace) (id : StatementId) (x : Symbol) :
    SameRun w.context d (w.check trace id x) ((w.inside d).check trace id x) := by
  unfold check
  rw [reachesPoint_inside]
  split
  · apply (sameRun_isLive hcd hw x).bind
    intro b
    cases b with
    | true => exact sameRun_report trace id x
    | false => exact .of_pure ()
  · exact .of_pure ()

theorem sameRun_checkAll (trace : Trace) (id : StatementId) (xs : List Symbol) :
    SameRun w.context d (w.checkAll trace id xs) ((w.inside d).checkAll trace id xs) := by
  induction xs with
  | nil => exact .of_pure ()
  | cons x xs ih => exact (sameRun_check hcd hw trace id x).bind fun _ => ih

theorem sameRun_anyLive (xs : List Symbol) :
    SameRun w.context d (w.anyLive xs) ((w.inside d).anyLive xs) := by
  induction xs with
  | nil => exact .of_pure false
  | cons x xs ih =>
    apply (sameRun_isLive hcd hw x).bind
    intro b
    cases b with
    | true => exact .of_pure true
    | false => exact ih

theorem sameRun_checkArguments (trace : Trace) (id : StatementId) (callee : Summary)
    (args : List (Exp × Nat)) :
    SameRun w.context d (w.checkArguments trace id callee args)
      ((w.inside d).checkArguments trace id callee args) := by
  induction args with
  | nil => exact .of_pure ()
  | cons arg args ih =>
    obtain ⟨e, k⟩ := arg
    rw [checkArguments, checkArguments]
    simp only [flow_inside, reachesPoint_inside]
    split
    · exact (SameRun.of_pure ()).bind fun _ => ih
    · split
      · refine (sameRun_anyLive hcd hw _).bind fun b => ?_
        cases b with
        | true => exact (sameRun_report trace id _).bind fun _ => ih
        | false => exact (SameRun.of_pure ()).bind fun _ => ih
      · exact (SameRun.of_pure ()).bind fun _ => ih

end Sweeps

section Statements
variable {w : Sweep} {d : Context} (hcd : w.context.Part d)
  (hw : w.context.flow? w.procedure.name = some w.flow) {st : StatementId × Instr}
  (hst : st ∈ w.procedure.statements)

include hcd hw hst

theorem sameRun_followCall {v : Invocation} (hv : st.2.action.Makes v) (trace : Trace)
    (id : StatementId) :
    SameRun w.context d (w.followCall trace id v) ((w.inside d).followCall trace id v) := by
  have hsame : d.program.resolveCallee v w.procedure =
      w.context.program.resolveCallee v w.procedure :=
    hcd.resolves w.flow (Context.mem_flows_of_flow? hw) st hst v hv.mem_calls
  unfold followCall
  rw [context_inside, procedure_inside, hsame]
  cases hq : w.context.program.resolveCallee v w.procedure with
  | none => exact .of_pure _
  | some callee =>
    obtain ⟨f, hf⟩ := hcd.coherent.flow?_of_find? (Context.find?_self_of_resolveCallee hq)
    apply (sameRun_withTable (Agree.request hcd hf)).bind
    intro summary
    apply sameRun_rule.bind
    intro _
    exact (sameRun_checkArguments hcd hw trace id summary _).bind fun _ => .of_pure _

theorem sameRun_checkCall {v : Invocation} (hv : st.2.action.Makes v) (trace : Trace)
    (id : StatementId) :
    SameRun w.context d (w.checkCall trace id v) ((w.inside d).checkCall trace id v) :=
  (sameRun_followCall hcd hw hst hv trace id).bind fun _ => sameRun_checkAll hcd hw trace id _

theorem sameRun_checkPart {e : Exp}
    (he : ∀ func args receiver, e = .call func args receiver →
      st.2.action.Makes ⟨func, args, receiver⟩) (trace : Trace) (id : StatementId) :
    SameRun w.context d (w.checkPart trace id e) ((w.inside d).checkPart trace id e) := by
  cases e with
  | call func args receiver => exact sameRun_checkCall hcd hw hst (he _ _ _ rfl) _ id
  | _ => exact sameRun_checkAll hcd hw trace id _

theorem sameRun_checkParts {es : List Exp}
    (hes : ∀ func args receiver, .call func args receiver ∈ es →
      st.2.action.Makes ⟨func, args, receiver⟩) (trace : Trace) (id : StatementId) :
    SameRun w.context d (w.checkParts trace id es) ((w.inside d).checkParts trace id es) := by
  induction es with
  | nil => exact .of_pure ()
  | cons e es ih =>
    refine (sameRun_checkPart hcd hw hst ?_ trace id).bind fun _ => ih ?_
    · intro func args receiver he
      exact hes func args receiver (he ▸ List.mem_cons_self)
    · intro func args receiver hmem
      exact hes func args receiver (List.mem_cons_of_mem e hmem)

theorem sameRun_checkAssignment {value : Exp} (hvalue : st.2.action.written? = some value)
    (trace : Trace) (id : StatementId) (written : Option Symbol) :
    SameRun w.context d (w.checkAssignment trace id written value)
      ((w.inside d).checkAssignment trace id written value) := by
  apply sameRun_rule.bind
  intro _
  apply (sameRun_checkAll hcd hw trace id _).bind
  intro _
  apply sameRun_checkParts hcd hw hst
  intro func args receiver hmem
  exact .value hvalue (holds_of_mem_valueParts value hmem)

omit hst in
theorem sameRun_checkHandOff (trace : Trace) (id : StatementId) :
    SameRun w.context d (w.checkHandOff trace id) ((w.inside d).checkHandOff trace id) := by
  apply sameRun_rule.bind
  intro _
  rw [point_inside]
  split
  · apply (sameRun_isLive hcd hw _).bind
    intro b
    cases b with
    | true => exact sameRun_report trace id _
    | false => exact .of_pure ()
  · exact .of_pure ()

theorem sameRun_checkStatement (trace : Trace) (id : StatementId) :
    SameRun w.context d (w.checkStatement trace id st.2.action)
      ((w.inside d).checkStatement trace id st.2.action) := by
  cases haction : st.2.action with
  | declare name type init =>
    cases init with
    | none => exact .of_pure ()
    | some init =>
      exact sameRun_checkAssignment hcd hw hst (by rw [haction, Action.written?]) trace id _
  | assign name value =>
    exact sameRun_checkAssignment hcd hw hst (by rw [haction, Action.written?]) trace id _
  | store target value =>
    exact sameRun_checkAssignment hcd hw hst (by rw [haction, Action.written?]) trace id _
  | handOff ret v givenUp description => exact sameRun_checkHandOff hcd hw trace id
  | call ret v =>
    rw [checkStatement, checkStatement, point_inside]
    split
    · exact sameRun_checkHandOff hcd hw trace id
    · exact sameRun_checkCall hcd hw hst (.call haction) trace id
  | assume_ condition holds kind => exact .of_pure ()
  | return_ value => exact .of_pure ()
  | unspecified => exact .of_pure ()

omit hst in
theorem sameRun_checkStatements {sts : List (StatementId × Instr)}
    (hsts : sts ⊆ w.procedure.statements) (trace : Trace) :
    SameRun w.context d (w.checkStatements trace sts) ((w.inside d).checkStatements trace sts) := by
  induction sts with
  | nil => exact .of_pure ()
  | cons st sts ih =>
    apply (sameRun_checkStatement hcd hw (hsts List.mem_cons_self) trace st.1).bind
    exact fun _ => ih fun x hx => hsts (List.mem_cons_of_mem st hx)

omit hst in
theorem sameRun_perform (trace : Trace) :
    SameRun w.context d (w.perform trace) ((w.inside d).perform trace) := by
  have hslice : SameRun w.context d
      (do
        w.checkStatements trace ((Slice.of w.procedure w.point.statement).flatMap Prod.snd)
        return ((← get).violations, (Slice.of w.procedure w.point.statement).map Prod.fst) :
          M (List Violation × List Int))
      (do
        (w.inside d).checkStatements trace
          ((Slice.of w.procedure w.point.statement).flatMap Prod.snd)
        return ((← get).violations, (Slice.of w.procedure w.point.statement).map Prod.fst)) := by
    apply (sameRun_checkStatements hcd hw (Slice.subset_statements _ _) trace).bind
    intro _ s s' hs
    exact ⟨congrArg (fun vs => Except.ok (vs, _)) hs.violations, hs⟩
  apply (sameRun_withTable (Agree.request hcd hw)).bind
  intro _
  rw [point_inside, procedure_inside]
  split
  · exact (sameRun_isLive hcd hw _).bind fun _ => hslice
  · exact hslice

end Statements

end Sweep

/-- The sweep of a point of the part gives the same result in both contexts. -/
theorem HandOffPoint.run_eq {c d : Context} (hcd : c.Part d) {h : HandOffPoint} {f : Flow}
    (hf : c.flow? h.procedure = some f) (pass : Pass) (trace : Option Trace) {t t' : SummaryTable}
    (ht : Built c t) (ht' : Built d t') :
    (h.run d pass trace t').1 = (h.run c pass trace t).1 := by
  unfold run sweep
  rw [hcd.known _ f hf, hf]
  by_cases hplace : f.scope.procedure.contains h.statement = true
  · have hw : c.flow? f.scope.procedure.name = some f := by rw [Context.flow?_name hf, hf]
    simp only [hplace, if_true]
    exact (Sweep.sameRun_perform (w := ⟨c, pass, h, f⟩) hcd hw _ { table := t } { table := t' }
      ⟨ht, ht', rfl, rfl⟩).1.symm
  · simp only [hplace]
    rfl

/-! ### Points -/

section Lists
variable {α β : Type}

theorem filter_insertNew [BEq α] [LawfulBEq α] (p : α → Bool) (xs : List α) (x : α) :
    (insertNew xs x).filter p = if p x then insertNew (xs.filter p) x else xs.filter p := by
  unfold insertNew
  by_cases hx : x ∈ xs <;> by_cases hp : p x = true <;> simp [hx, hp]

theorem filter_distinct [BEq α] [LawfulBEq α] (p : α → Bool) (xs : List α) :
    (distinct xs).filter p = distinct (xs.filter p) := by
  have hfold : ∀ seen, (xs.foldl insertNew seen).filter p =
      (xs.filter p).foldl insertNew (seen.filter p) := by
    induction xs with
    | nil => exact fun _ => rfl
    | cons x xs ih =>
      intro seen
      rw [List.foldl_cons, ih, filter_insertNew, List.filter_cons]
      split <;> rfl
  exact hfold []

/-- Elements that contribute nothing can be left out. -/
theorem flatMap_filter_of_nil {f : α → List β} {p : α → Bool} {xs : List α}
    (h : ∀ x ∈ xs, p x = false → f x = []) : (xs.filter p).flatMap f = xs.flatMap f := by
  induction xs with
  | nil => rfl
  | cons x xs ih =>
    have hrest := ih fun y hy => h y (List.mem_cons_of_mem x hy)
    cases hp : p x with
    | true => rw [List.filter_cons_of_pos hp, List.flatMap_cons, List.flatMap_cons, hrest]
    | false =>
      rw [List.filter_cons_of_neg (by simp [hp]), List.flatMap_cons, h x List.mem_cons_self hp,
        List.nil_append, hrest]

end Lists

namespace HandOffPoint
variable {c d : Context}

theorem agree_ofStatement (hcd : c.Part d) {f : Flow} (hf : f ∈ c.flows)
    {st : StatementId × Instr} (hst : st ∈ f.scope.procedure.statements) :
    Agree c d (ofStatement c f st) (ofStatement d f st) := by
  have hhanded : Agree c d (handedOff c f.scope.procedure st.2.action)
      (handedOff d f.scope.procedure st.2.action) := by
    cases haction : st.2.action with
    | call ret v =>
      unfold handedOff
      simp only [hcd.resolves f hf st hst v
        (Action.mem_calls_of_invocation? (by rw [haction, Action.invocation?]))]
      cases hq : c.program.resolveCallee v f.scope.procedure with
      | none => exact .of_pure _
      | some callee =>
        obtain ⟨g, hg⟩ := hcd.coherent.flow?_of_find? (Context.find?_self_of_resolveCallee hq)
        exact (Agree.request hcd hg).bind fun _ => .of_pure _
    | _ => exact .of_pure _
  exact hhanded.bind fun _ => .of_pure _

/-- The points of a procedure, read off a table. -/
def ofFlow (c : Context) (u : SummaryTable) (f : Flow) : List HandOffPoint :=
  f.scope.procedure.statements.flatMap fun st => ((ofStatement c f st).run u).1

theorem discover_run (hc : c.Coherent) {t : SummaryTable} (ht : Built c t) :
    ((discover c).run t).1 = distinct (c.flows.flatMap (ofFlow c ((discover c).run t).2)) := by
  have hrun : ((discover c).run t).1 = distinct ((ofStatements c
      (c.flows.flatMap fun f => f.scope.procedure.statements.map fun st => (f, st))).run t).1 := rfl
  rw [hrun, (ofStatements_run hc _ ((steady_discover hc).built hc ht) List.prefix_rfl).1,
    List.flatMap_assoc]
  simp only [List.flatMap_map]
  rfl

theorem procedure_of_mem_ofFlow {u : SummaryTable} {f : Flow} {h : HandOffPoint}
    (hh : h ∈ ofFlow c u f) : h.procedure = f.scope.procedure.name := by
  obtain ⟨st, _, hmem⟩ := List.mem_flatMap.mp hh
  obtain ⟨_, _, _, _, _, _, rfl⟩ := mem_ofStatement.mp hmem
  rfl

theorem ofFlow_eq (hcd : c.Part d) {f : Flow} (hf : f ∈ c.flows) {u u' : SummaryTable}
    (hu : Built c u) (hu' : Built d u') : ofFlow d u' f = ofFlow c u f := by
  unfold ofFlow
  apply List.flatMap_congr
  intro st hst
  exact (agree_ofStatement hcd hf hst u u' hu hu').1.symm

/-- The points that are discovered in the procedures of the part. -/
theorem filter_discover (hcd : c.Part d) (inPart : String → Bool)
    (hflows : d.flows.filter (fun f => inPart f.scope.procedure.name) = c.flows)
    {t t' : SummaryTable} (ht : Built c t) (ht' : Built d t') :
    ((discover d).run t').1.filter (fun h => inPart h.procedure) = ((discover c).run t).1 := by
  have hbuilt := (steady_discover hcd.coherent).built hcd.coherent ht
  have hbuilt' := (steady_discover hcd.coherent').built hcd.coherent' ht'
  rw [discover_run hcd.coherent ht, discover_run hcd.coherent' ht', filter_distinct,
    List.filter_flatMap, ← flatMap_filter_of_nil (p := fun f => inPart f.scope.procedure.name),
    hflows]
  · congr 1
    apply List.flatMap_congr
    intro f hf
    rw [ofFlow_eq hcd hf hbuilt hbuilt', List.filter_eq_self]
    intro h hh
    rw [procedure_of_mem_ofFlow hh]
    rw [← hflows] at hf
    exact (List.mem_filter.mp hf).2
  · intro f _ hf
    rw [List.filter_eq_nil_iff]
    intro h hh
    rw [procedure_of_mem_ofFlow hh, hf]
    exact Bool.false_ne_true

end HandOffPoint

/-! ### Programs -/

namespace Program

/-- The program with one more procedure, at some place among the others. -/
def insertAt (g : Program) (k : Nat) (q : Procedure) : Program :=
  { g with procedures := g.procedures.take k ++ q :: g.procedures.drop k }

/-- In `g'`, which has `q` besides the procedures of `g`, nothing leads from these to `q`: neither a
name, nor a class, nor a call of a statement or in an expression. -/
structure Unrelated (g g' : Program) (q : Procedure) : Prop where
  name : ∀ p ∈ g.procedures, p.name ≠ q.name
  className : q.className = none ∨ ∀ p ∈ g.procedures, p.className ≠ q.className
  calls : ∀ p ∈ g.procedures, ∀ st ∈ p.statements, ∀ v ∈ st.2.action.calls,
    g'.resolveCallee v p ≠ some q

section Inserted
variable {g : Program} {q : Procedure} (hname : ∀ p ∈ g.procedures, p.name ≠ q.name) (k : Nat)

include hname

theorem find?_eq_none_of_new : g.find? q.name = none := by
  rw [find?, List.find?_eq_none]
  intro p hp
  simpa using hname p hp

theorem find?_insertAt (name : String) :
    (g.insertAt k q).find? name = if q.name = name then some q else g.find? name := by
  have hparts : g.find? name =
      ((g.procedures.take k).find? (·.name == name)).or
        ((g.procedures.drop k).find? (·.name == name)) := by
    rw [← List.find?_append, List.take_append_drop]
    rfl
  rw [find?, insertAt, List.find?_append, List.find?_cons]
  split
  · rename_i hq
    rw [beq_iff_eq] at hq
    have hnone := find?_eq_none_of_new hname
    rw [hq] at hnone
    rw [hnone, eq_comm, Option.or_eq_none_iff] at hparts
    rw [hparts.1, if_pos hq, Option.none_or]
  · rename_i hq
    rw [beq_eq_false_iff_ne] at hq
    rw [if_neg hq, hparts]

theorem find?_insertAt_of_ne {name : String} (h : (g.insertAt k q).find? name ≠ some q) :
    (g.insertAt k q).find? name = g.find? name := by
  rw [find?_insertAt hname] at h ⊢
  split
  · rename_i heq
    exact absurd (if_pos heq) h
  · rfl

theorem resolveCallee_insertAt {v : Invocation} {p : Procedure}
    (h : (g.insertAt k q).resolveCallee v p ≠ some q) :
    (g.insertAt k q).resolveCallee v p = g.resolveCallee v p := by
  unfold resolveCallee at h ⊢
  cases hreceiver : v.receiver with
  | some r =>
    simp only [hreceiver] at h ⊢
    cases r with
    | var me =>
      by_cases hself : p.selfName = some me
      · simp only [hself, if_true] at h ⊢
        exact find?_insertAt_of_ne hname k h
      · simp only [hself, if_false]
    | _ => rfl
  | none =>
    simp only [hreceiver] at h ⊢
    by_cases heq : q.name = v.name
    · -- a method of this name is passed over, as if there were none
      have hnone : g.find? v.name = none := heq ▸ find?_eq_none_of_new hname
      have hfound : (g.insertAt k q).find? v.name = some q := by
        rw [find?_insertAt hname, if_pos heq]
      simp only [hfound, hnone] at h ⊢
      by_cases hmethod : q.isMethod = true
      · simp only [hmethod, if_true] at h ⊢
        exact find?_insertAt_of_ne hname k h
      · exact absurd (if_neg hmethod) h
    · have hsame : (g.insertAt k q).find? v.name = g.find? v.name := by
        rw [find?_insertAt hname, if_neg heq]
      rw [hsame] at h ⊢
      cases hp : g.find? v.name with
      | none =>
        simp only [hp] at h ⊢
        exact find?_insertAt_of_ne hname k h
      | some r =>
        simp only [hp] at h ⊢
        by_cases hmethod : r.isMethod = true
        · simp only [hmethod, if_true] at h ⊢
          exact find?_insertAt_of_ne hname k h
        · rw [if_neg hmethod, if_neg hmethod]

omit hname in
theorem methodsOf_insertAt {cls : String} (hcls : q.className ≠ some cls) :
    (g.insertAt k q).methodsOf cls = g.methodsOf cls := by
  unfold methodsOf insertAt
  rw [List.filter_append, List.filter_cons_of_neg (by simpa using hcls), ← List.filter_append,
    List.take_append_drop]

end Inserted

end Program

namespace Context
variable {g : Program} {q : Procedure} {k : Nat}

theorem part_insertAt (hacyclic : (ofProgram g).Acyclic) (hq : g.Unrelated (g.insertAt k q) q) :
    (ofProgram g).Part (ofProgram (g.insertAt k q)) where
  coherent := coherent_ofProgram g
  coherent' := coherent_ofProgram _
  acyclic := hacyclic
  known name f hf := by
    obtain ⟨p, hp, rfl⟩ := (coherent_ofProgram g).flow?_eq_some.mp hf
    refine (coherent_ofProgram _).flow?_eq_some.mpr ⟨p, ?_, rfl⟩
    have hne : q.name ≠ name := by
      rw [← Program.find?_name hp]
      exact (hq.name p (List.mem_of_find?_eq_some hp)).symm
    rw [← hp]
    exact (Program.find?_insertAt hq.name k name).trans (if_neg hne)
  resolves f hf st hst v hv := by
    obtain ⟨p, hp, rfl⟩ := List.mem_map.mp hf
    exact Program.resolveCallee_insertAt hq.name k (hq.calls p hp st hst v hv)
  methods f hf cls hcls := by
    obtain ⟨p, hp, rfl⟩ := List.mem_map.mp hf
    apply Program.methodsOf_insertAt
    intro hsame
    rcases hq.className with hnone | hnew
    · rw [hnone] at hsame
      cases hsame
    · exact hnew p hp (hcls.trans hsame.symm)

theorem flows_insertAt (hname : ∀ p ∈ g.procedures, p.name ≠ q.name) :
    (ofProgram (g.insertAt k q)).flows.filter (fun f => f.scope.procedure.name ≠ q.name) =
      (ofProgram g).flows := by
  have hkeep : g.procedures.filter (fun p => p.name ≠ q.name) = g.procedures := by
    rw [List.filter_eq_self]
    intro p hp
    simpa using hname p hp
  have hof : ((fun f : Flow => decide (f.scope.procedure.name ≠ q.name)) ∘
      fun p => Flow.ofScope ⟨p, g.library⟩) = fun p => decide (p.name ≠ q.name) := rfl
  unfold ofProgram Program.insertAt
  simp only [List.filter_map, hof]
  rw [List.filter_append, List.filter_cons_of_neg (by simp), ← List.filter_append,
    List.take_append_drop, hkeep]

end Context

/-- With an unrelated procedure the same points are discovered in the other procedures, and each of
their sweeps returns the same violations, whatever the two tables hold so far. -/
theorem discover_insertAt_run {g : Program} (hg : g.Distinct)
    (hacyclic : (Context.ofProgram g).Acyclic) (k : Nat) {q : Procedure}
    (hq : g.Unrelated (g.insertAt k q) q) {t t' : SummaryTable} (ht : Built (.ofProgram g) t)
    (ht' : Built (.ofProgram (g.insertAt k q)) t') :
    ((HandOffPoint.discover (.ofProgram (g.insertAt k q))).run t').1.filter
        (fun h => h.procedure ≠ q.name) = ((HandOffPoint.discover (.ofProgram g)).run t).1 ∧
      ∀ h ∈ ((HandOffPoint.discover (.ofProgram g)).run t).1, ∀ u u', Built (.ofProgram g) u →
        Built (.ofProgram (g.insertAt k q)) u' →
          ∃ vs ids, (h.run (.ofProgram g) .givesUp none u).1 = .ok (vs, ids) ∧
            (h.run (.ofProgram (g.insertAt k q)) .givesUp none u').1 = .ok (vs, ids) := by
  have hcd := Context.part_insertAt hacyclic hq
  have hplaced := fun h => HandOffPoint.placed_of_discovered (h := h) hcd.coherent
    (fun f hf => Context.flow?_of_mem hg hf) ht
  refine ⟨HandOffPoint.filter_discover hcd (fun name => name ≠ q.name)
    (Context.flows_insertAt hq.name) ht ht', ?_⟩
  intro h hh u u' hu hu'
  obtain ⟨f, ids, s, hrun, hf, _⟩ := Outcome.run_placed hcd.coherent (hplaced h hh) hu
  refine ⟨s.violations, ids, by rw [hrun], ?_⟩
  rw [HandOffPoint.run_eq hcd hf .givesUp none hu hu', hrun]

/-- A method of another class that has the names of `keeping`, hands off a field and calls itself. -/
def stranger : Procedure :=
  { methodOf "B.keep" ["z"] [{ id := 0, instrs :=
      [sendCall (selfField "f"), selfCall "keep" [.var "z"], printCall (selfField "f")] }] with
    className := some "B" }

theorem unrelated_stranger : keeping.Unrelated (keeping.insertAt 1 stranger) stranger where
  name := by decide +kernel
  className := Or.inr (by decide +kernel)
  calls := by
    have hnames : ∀ p ∈ keeping.procedures, ∀ st ∈ p.statements, ∀ v ∈ st.2.action.calls,
        ((keeping.insertAt 1 stranger).resolveCallee v p).map Procedure.name ≠ some "B.keep" := by
      decide +kernel
    intro p hp st hst v hv hresolve
    apply hnames p hp st hst v hv
    rw [hresolve]
    rfl

theorem acyclic_keeping : (Context.ofProgram keeping).Acyclic :=
  Context.acyclic_of_lengths (by decide +kernel)

/-- The point is found with the stranger in the middle, beside one of the stranger, and the parameter
is reported. -/
theorem discover_insertAt_run_stranger :
    ((HandOffPoint.discover (.ofProgram (keeping.insertAt 1 stranger))).run []).1.length = 2 ∧
      ((HandOffPoint.discover (.ofProgram (keeping.insertAt 1 stranger))).run []).1.filter
        (fun h => h.procedure ≠ "B.keep") = [keptPoint] ∧
      ∃ vs ids, vs.map Violation.symbol = [⟨"y", .parameter, "A.m"⟩] ∧
        (keptPoint.run (.ofProgram keeping) .givesUp none []).1 = .ok (vs, ids) ∧
        (keptPoint.run (.ofProgram (keeping.insertAt 1 stranger)) .givesUp none []).1 =
          .ok (vs, ids) := by
  have hpoints : ((HandOffPoint.discover (.ofProgram keeping)).run []).1 = [keptPoint] := by
    decide +kernel
  have hsymbols : ((keptPoint.run (.ofProgram keeping) .givesUp none []).1.toOption.map fun r =>
      r.1.map Violation.symbol) = some [⟨"y", .parameter, "A.m"⟩] := by decide +kernel
  have hdistinct : keeping.Distinct := by
    unfold Program.Distinct
    decide +kernel
  obtain ⟨hsame, hruns⟩ := discover_insertAt_run hdistinct acyclic_keeping 1 unrelated_stranger
    .empty .empty
  rw [hpoints] at hsame hruns
  obtain ⟨vs, ids, hrun, hrun'⟩ := hruns keptPoint List.mem_cons_self [] [] .empty .empty
  refine ⟨by decide +kernel, hsame, vs, ids, ?_, hrun, hrun'⟩
  rw [hrun] at hsymbols
  exact Option.some.inj hsymbols

end ActorOwnership
