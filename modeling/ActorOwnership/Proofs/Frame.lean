import Mathlib.Data.Finset.Card
import ActorOwnership.Proofs.Calls
import ActorOwnership.Proofs.Chain

/-! Questions about a part of a program that calls do not leave. The rest of the program does not
change their answers: summaries without recursion are the same in both, and so is what a search for
reads finds. -/

namespace ActorOwnership
set_option autoImplicit false

open SummaryTable (Built)

/-- The procedures of `c`, which do not call themselves, are also in `d`. Their calls and the methods
of their classes are the same there. -/
structure Context.Part (c d : Context) : Prop where
  coherent : c.Coherent
  coherent' : d.Coherent
  acyclic : c.Acyclic
  known : ∀ name f, c.flow? name = some f → d.flow? name = some f
  resolves : ∀ f ∈ c.flows, ∀ st ∈ f.scope.procedure.statements, ∀ v ∈ st.2.action.calls,
    d.program.resolveCallee v f.scope.procedure = c.program.resolveCallee v f.scope.procedure
  methods : ∀ f ∈ c.flows, ∀ cls, f.scope.procedure.className = some cls →
    d.program.methodsOf cls = c.program.methodsOf cls

namespace Context

theorem mem_flows_of_flow? {c : Context} {name : String} {f : Flow} (h : c.flow? name = some f) :
    f ∈ c.flows :=
  List.mem_of_find?_eq_some h

theorem Coherent.flow?_of_find? {c : Context} (hc : c.Coherent) {name : String} {p : Procedure}
    (hp : c.program.find? name = some p) : ∃ f, c.flow? name = some f :=
  ⟨_, hc.flow?_eq_some.mpr ⟨p, hp, rfl⟩⟩

theorem Coherent.exists_flow? {c : Context} (hc : c.Coherent) {p : Procedure}
    (hp : p ∈ c.program.procedures) : ∃ f, c.flow? p.name = some f := by
  cases hfind : c.program.find? p.name with
  | none => simpa using List.find?_eq_none.mp hfind p hp
  | some p' => exact hc.flow?_of_find? hfind

/-- The names of the procedures. -/
def names (c : Context) : Finset String := (c.program.procedures.map Procedure.name).toFinset

theorem mem_names_of_flow? {c : Context} (hc : c.Coherent) {name : String} {f : Flow}
    (h : c.flow? name = some f) : name ∈ c.names := by
  obtain ⟨p, hp, _⟩ := hc.flow?_eq_some.mp h
  rw [← Program.find?_name hp, names, List.mem_toFinset]
  exact List.mem_map_of_mem (List.mem_of_find?_eq_some hp)

theorem card_names_le (c : Context) : c.names.card ≤ c.program.procedures.length := by
  simpa [names] using List.toFinset_card_le (c.program.procedures.map Procedure.name)

theorem card_names_lt {c : Context} {name : String} {active : List String} (hname : name ∈ c.names)
    (hactive : name ∉ active) :
    (c.names \ (name :: active).toFinset).card < (c.names \ active.toFinset).card := by
  apply Finset.card_lt_card
  rw [Finset.ssubset_iff_of_subset]
  · exact ⟨name, by simp [hname, hactive], by simp⟩
  · exact Finset.sdiff_subset_sdiff (Finset.Subset.refl _) (by simp)

namespace Part

variable {c d : Context} (hcd : c.Part d) {f : Flow}

include hcd

theorem refl : c.Part c :=
  ⟨hcd.coherent, hcd.coherent, hcd.acyclic, fun _ _ h => h, fun _ _ _ _ _ _ => rfl,
    fun _ _ _ _ => rfl⟩

theorem callAt?_eq (hf : f ∈ c.flows) {st : StatementId × Instr}
    (hst : st ∈ f.scope.procedure.statements) : d.callAt? f st.2 = c.callAt? f st.2 := by
  unfold callAt?
  cases hv : st.2.action.invocation? with
  | none => rfl
  | some v =>
    rw [Option.bind_some, Option.bind_some,
      hcd.resolves f hf st hst v (Action.mem_calls_of_invocation? hv)]

theorem calleesOf_eq (hf : f ∈ c.flows) : d.calleesOf f = c.calleesOf f := by
  apply List.filterMap_congr
  intro st hst
  rw [hcd.callAt?_eq hf hst]

theorem selfCallee?_eq (hf : f ∈ c.flows) (id : StatementId) :
    d.selfCallee? f id = c.selfCallee? f id := by
  unfold selfCallee?
  cases hi : f.scope.procedure.instrAt? id with
  | none => rfl
  | some i =>
    rw [Option.bind_some]
    cases hv : i.action.invocation? with
    | none => rfl
    | some v =>
      simp only [hcd.resolves f hf (id, i) (Procedure.mem_statements.mpr hi) v
        (Action.mem_calls_of_invocation? hv)]

theorem successors_eq (hf : f ∈ c.flows) (field : Symbol) :
    Liveness.successors d f.scope.procedure field =
      Liveness.successors c f.scope.procedure field := by
  unfold Liveness.successors
  cases hclass : f.scope.procedure.className with
  | none => rfl
  | some cls => simp only [hcd.methods f hf cls hclass]

theorem buildWith_eq (hf : f ∈ c.flows) (answer : String → Summary) :
    Summary.buildWith d f answer = Summary.buildWith c f answer := by
  have hfold : ∀ x, f.scope.procedure.statements.foldl (Summary.gatherStep d f answer) x =
      f.scope.procedure.statements.foldl (Summary.gatherStep c f answer) x := by
    intro x
    apply List.foldl_ext
    intro x st hst
    simp only [Summary.gatherStep, hcd.callAt?_eq hf hst]
  have hresets : Summary.resetsWith d answer f = Summary.resetsWith c answer f := by
    funext field id
    simp only [Summary.resetsWith, hcd.selfCallee?_eq hf]
  simp only [Summary.buildWith, hfold, hresets]

theorem card_names_le : c.names.card ≤ d.program.procedures.length := by
  apply Nat.le_trans (Finset.card_le_card _) d.card_names_le
  intro name hname
  obtain ⟨p, hp, rfl⟩ := List.mem_map.mp (List.mem_toFinset.mp hname)
  obtain ⟨f, hf⟩ := hcd.coherent.exists_flow? hp
  exact mem_names_of_flow? hcd.coherent' (hcd.known _ f hf)

/-- Calls from a procedure of the part stay in it. -/
theorem reaches {a b : String} (hab : d.Reaches a b) {f : Flow}
    (ha : c.flow? a = some f) : c.Reaches a b := by
  induction hab using Relation.ReflTransGen.head_induction_on generalizing f with
  | refl => exact .refl
  | head hcall _ ih =>
    obtain ⟨f', hf', hb⟩ := hcall
    rw [hcd.known _ f ha, Option.some.injEq] at hf'
    subst hf'
    rw [hcd.calleesOf_eq (mem_flows_of_flow? ha)] at hb
    obtain ⟨f'', hf''⟩ := hcd.coherent.flow?_callee hb
    exact .head ⟨f, ha, hb⟩ (ih hf'')

/-- Without recursion in the part no callee is still to be summarised. -/
theorem contains_callee {t : SummaryTable} {name : String} (hf : c.flow? name = some f)
    (hcallees : ∀ q ∈ d.calleesOf f, t.contains q = true ∨ d.Reaches q name) {q : String}
    (hq : q ∈ c.calleesOf f) : t.contains q = true := by
  rcases hcallees q (by rwa [hcd.calleesOf_eq (mem_flows_of_flow? hf)]) with h | h
  · exact h
  · obtain ⟨f', hf'⟩ := hcd.coherent.flow?_callee hq
    exact absurd (.head' ⟨f, hf, hq⟩ (hcd.reaches h hf')) (hcd.acyclic name)

/-- Entries of two tables for a procedure of the part are the same. -/
theorem find?_eq {t t' : SummaryTable} (ht : Built c t) (ht' : Built d t') {name : String}
    (hf : c.flow? name = some f) {s s' : Summary} (hs : t.find? name = some s)
    (hs' : t'.find? name = some s') : s = s' := by
  induction ht generalizing t' name f s s' with
  | empty => cases hs
  | @extend t last flow ht hflow hlast hcallees ih =>
    rw [SummaryTable.find?_extend hflow] at hs
    cases hfound : t.find? name with
    | some s₁ =>
      rw [hfound, Option.some_or] at hs
      exact ih ht' hf (hfound.trans hs) hs'
    | none =>
      rw [hfound, Option.none_or] at hs
      split at hs
      · rename_i hname
        subst hname
        obtain ⟨u, flow', _, hu, hflow', _, hcallees', rfl⟩ := ht'.entry hs'
        rw [hcd.known _ _ hflow, Option.some.injEq] at hflow'
        subst hflow'
        rw [← Option.some.inj hs, hcd.buildWith_eq (mem_flows_of_flow? hflow)]
        apply Summary.buildWith_congr
        intro q hq
        -- both tables had the callee before, with the same summary
        obtain ⟨f', hf'⟩ := hcd.coherent.flow?_callee hq
        obtain ⟨s₁, hs₁⟩ := SummaryTable.contains_iff.mp
          (hcd.refl.contains_callee hflow hcallees hq)
        obtain ⟨s₂, hs₂⟩ := SummaryTable.contains_iff.mp (hcd.contains_callee hflow hcallees' hq)
        rw [SummaryTable.answer_of_find? hs₁, SummaryTable.answer_of_find? hs₂]
        exact ih hu hf' hs₁ hs₂
      · cases hs

end Part

end Context

/-! ### Questions with the same answer -/

/-- Asked on tables of the two contexts, whatever these hold, the questions have the same answer. -/
def Agree (c d : Context) {α : Type} (m m' : StateM SummaryTable α) : Prop :=
  ∀ t t', Built c t → Built d t' →
    (m.run t).1 = (m'.run t').1 ∧ Built c (m.run t).2 ∧ Built d (m'.run t').2

namespace Agree
variable {c d : Context} {α β : Type}

theorem of_pure (a : α) : Agree c d (pure a) (pure a) := fun _ _ ht ht' => ⟨rfl, ht, ht'⟩

theorem bind {m m' : StateM SummaryTable α} {k k' : α → StateM SummaryTable β}
    (hm : Agree c d m m') (hk : ∀ a, Agree c d (k a) (k' a)) :
    Agree c d (m >>= k) (m' >>= k') := by
  intro t t' ht ht'
  obtain ⟨heq, hu, hu'⟩ := hm t t' ht ht'
  rw [run_bind, run_bind, ← heq]
  exact hk _ _ _ hu hu'

theorem request (hcd : c.Part d) {name : String} {f : Flow} (hf : c.flow? name = some f) :
    Agree c d (SummaryTable.request c name) (SummaryTable.request d name) := by
  intro t t' ht ht'
  have hc := hcd.coherent
  have hd := hcd.coherent'
  have hbuilt := (Steady.request hc name).built hc ht
  have hbuilt' := (Steady.request hd name).built hd ht'
  refine ⟨?_, hbuilt, hbuilt'⟩
  obtain ⟨p, hp, _⟩ := hc.flow?_eq_some.mp hf
  obtain ⟨p', hp', _⟩ := hd.flow?_eq_some.mp (hcd.known name f hf)
  obtain ⟨s, hs⟩ := SummaryTable.contains_iff.mp (SummaryTable.contains_of_request hc hp t)
  obtain ⟨s', hs'⟩ := SummaryTable.contains_iff.mp (SummaryTable.contains_of_request hd hp' t')
  rw [(SummaryTable.request_served hc name t).answers, SummaryTable.answer_of_find? hs,
    (SummaryTable.request_served hd name t').answers, SummaryTable.answer_of_find? hs']
  exact hcd.find?_eq hbuilt hbuilt' hf hs hs'

end Agree

/-! ### Searches for reads -/

namespace Liveness
variable {c d : Context}

section Ways
variable {reads reads' : StatementId → StateM SummaryTable Bool}
  {resets resets' : SummaryTable → StatementId → Bool}

theorem agree_passage (hreads : ∀ id, Agree c d (reads id) (reads' id))
    (hresets : ∀ id t t', Built c t → Built d t' → ((reads id).run t).1 = false →
      resets ((reads id).run t).2 id = resets' ((reads' id).run t').2 id)
    (ids : List StatementId) : Agree c d (passage reads resets ids) (passage reads' resets' ids) := by
  induction ids with
  | nil => exact .of_pure _
  | cons id rest ih =>
    intro t t' ht ht'
    obtain ⟨heq, hu, hu'⟩ := hreads id t t' ht ht'
    cases hread : ((reads id).run t).1 with
    | true =>
      rw [passage_of_read hread, passage_of_read (heq ▸ hread)]
      exact ⟨rfl, hu, hu'⟩
    | false =>
      have hread' := heq ▸ hread
      have hsame := hresets id t t' ht ht' hread
      cases hreset : resets ((reads id).run t).2 id with
      | true =>
        rw [passage_of_reset hread hreset, passage_of_reset hread' (hsame ▸ hreset)]
        exact ⟨rfl, hu, hu'⟩
      | false =>
        rw [passage_of_through hread hreset, passage_of_through hread' (hsame ▸ hreset)]
        exact ih _ _ hu hu'

theorem agree_explore {p : Procedure} {pass pass' : List StatementId → StateM SummaryTable Passage}
    (hpass : ∀ ids, Agree c d (pass ids) (pass' ids)) (fuel : Nat) (queue : List (Int × Nat))
    (seen : List Int) (escaped : Bool) :
    Agree c d (explore p pass fuel queue seen escaped) (explore p pass' fuel queue seen escaped) := by
  induction fuel generalizing queue seen escaped with
  | zero => exact .of_pure _
  | succ fuel ih =>
    match queue with
    | [] => exact .of_pure _
    | (id, skip) :: queue =>
      rw [explore, explore]
      split
      · exact ih _ _ _
      · apply (hpass _).bind
        intro a
        cases a with
        | read => exact .of_pure _
        | reset => exact ih _ _ _
        | through => exact ih _ _ _

theorem agree_anyOf {ask ask' : String → StateM SummaryTable Bool} {names : List String}
    (hask : ∀ q ∈ names, Agree c d (ask q) (ask' q)) :
    Agree c d (anyOf ask names) (anyOf ask' names) := by
  induction names with
  | nil => exact .of_pure _
  | cons name names ih =>
    apply (hask name List.mem_cons_self).bind
    intro a
    cases a with
    | true => exact .of_pure _
    | false => exact ih fun q hq => hask q (List.mem_cons_of_mem name hq)

end Ways

/-- A search that asks for a procedure leaves its summary in the table. -/
theorem contains_of_askWithin (hc : c.Coherent) {field : Symbol} {fuel : Nat}
    {active : List String} {q : String} {p : Procedure} (hp : c.program.find? q = some p)
    (t : SummaryTable) : ((askWithin c field fuel active q).run t).2.contains q = true :=
  SummaryTable.contains_of_earlier ((steady_searchWithin hc _ _ _ _ _).grows _)
    (SummaryTable.contains_of_request hc hp t)

theorem flow?_of_mem_successors (hc : c.Coherent) {p : Procedure} {field : Symbol} {q : String}
    (hq : q ∈ successors c p field) : ∃ f, c.flow? q = some f := by
  unfold successors at hq
  split at hq
  · split at hq
    · obtain ⟨r, hr, rfl⟩ := List.mem_map.mp hq
      exact hc.exists_flow? (List.mem_filter.mp (List.mem_filter.mp hr).1).1
    · cases hq
  · cases hq

section Search
variable (hcd : c.Part d) {f : Flow} {field : Symbol} {ask ask' : String → StateM SummaryTable Bool}

include hcd

theorem agree_readsAt (hf : f ∈ c.flows)
    (hask : ∀ q g, c.flow? q = some g → Agree c d (ask q) (ask' q)) (id : StatementId) :
    Agree c d (readsAt c f field ask id) (readsAt d f field ask' id) := by
  unfold readsAt
  split
  · exact .of_pure _
  · rw [hcd.selfCallee?_eq hf]
    cases hcallee : c.selfCallee? f id with
    | none => exact .of_pure _
    | some callee =>
      obtain ⟨g, hg⟩ := hcd.coherent.flow?_of_find? (Summary.find?_self_of_selfCallee? hcallee)
      exact hask callee.name g hg

/-- Once a statement has been asked about, both tables have the summary of its callee, and the two say
the same of the field. -/
theorem resetsAt_eq (hf : f ∈ c.flows)
    (hask : ∀ q g, c.flow? q = some g → Agree c d (ask q) (ask' q))
    (hleft : ∀ q p t, c.program.find? q = some p → ((ask q).run t).2.contains q = true)
    (hright : ∀ q p t, d.program.find? q = some p → ((ask' q).run t).2.contains q = true)
    {id : StatementId} {t t' : SummaryTable} (ht : Built c t) (ht' : Built d t')
    (hread : ((readsAt c f field ask id).run t).1 = false) :
    Summary.resetsAt c ((readsAt c f field ask id).run t).2 f field id =
      Summary.resetsAt d ((readsAt d f field ask' id).run t').2 f field id := by
  unfold Summary.resetsAt
  rw [hcd.selfCallee?_eq hf]
  cases hcallee : c.selfCallee? f id with
  | none => rfl
  | some q =>
    have hcallee' : d.selfCallee? f id = some q := by rw [hcd.selfCallee?_eq hf, hcallee]
    have hq := Summary.find?_self_of_selfCallee? hcallee
    obtain ⟨g, hg⟩ := hcd.coherent.flow?_of_find? hq
    unfold readsAt at hread ⊢
    split at hread
    · cases hread
    · rename_i hdirect
      simp only [if_neg hdirect, hcallee, hcallee'] at hread ⊢
      obtain ⟨_, hu, hu'⟩ := hask q.name g hg t t' ht ht'
      obtain ⟨s, hs⟩ := SummaryTable.contains_iff.mp (hleft q.name q t hq)
      obtain ⟨s', hs'⟩ := SummaryTable.contains_iff.mp
        (hright q.name q t' (Summary.find?_self_of_selfCallee? hcallee'))
      rw [Option.any_some, Option.any_some, SummaryTable.resetsOf, SummaryTable.resetsOf, hs, hs',
        hcd.find?_eq hu hu' hg hs hs']

theorem agree_passWithin {fuel fuel' : Nat} {active : List String} (hf : f ∈ c.flows)
    (hask : ∀ q g, c.flow? q = some g →
      Agree c d (askWithin c field fuel active q) (askWithin d field fuel' active q))
    (ids : List StatementId) :
    Agree c d (passWithin c field fuel active f ids) (passWithin d field fuel' active f ids) := by
  apply agree_passage (agree_readsAt hcd hf hask)
  intro id t t' ht ht'
  exact resetsAt_eq hcd hf hask (fun q p t hp => contains_of_askWithin hcd.coherent hp t)
    (fun q p t hp => contains_of_askWithin hcd.coherent' hp t) ht ht'

/-- Searches follow the same procedures in both contexts. They need no more fuel than there are
procedures of the part that are not being followed. -/
theorem agree_searchWithin {fuel fuel' : Nat} {active : List String}
    (hfuel : (c.names \ active.toFinset).card < fuel)
    (hfuel' : (c.names \ active.toFinset).card < fuel') {name : String}
    (hf : c.flow? name = some f) (escalate : Bool) (after : Option StatementId) :
    Agree c d (searchWithin c field fuel active escalate after name)
      (searchWithin d field fuel' active escalate after name) := by
  induction fuel generalizing fuel' active escalate after name f with
  | zero => exact absurd hfuel (Nat.not_lt_zero _)
  | succ fuel ih =>
    obtain ⟨fuel', rfl⟩ : ∃ k, fuel' = k + 1 := ⟨fuel' - 1, by omega⟩
    have hf' := hcd.known name f hf
    by_cases hactive : name ∈ active
    · simp only [searchWithin, hf, hf', List.contains_iff_mem, hactive, if_true]
      exact .of_pure _
    · have hless := Context.card_names_lt (Context.mem_names_of_flow? hcd.coherent hf) hactive
      have hask : ∀ q g, c.flow? q = some g →
          Agree c d (askWithin c field fuel (name :: active) q)
            (askWithin d field fuel' (name :: active) q) := by
        intro q g hg
        apply (Agree.request hcd hg).bind
        exact fun _ => ih (by omega) (by omega) hg false none
      have hflows := Context.mem_flows_of_flow? hf
      rw [searchWithin_succ hf hactive, searchWithin_succ hf' hactive]
      apply (agree_explore (agree_passWithin hcd hflows hask) _ _ _ _).bind
      intro a
      cases a with
      | read => exact .of_pure _
      | reset => exact .of_pure _
      | through =>
        cases escalate with
        | false => exact .of_pure _
        | true =>
          simp only [if_true, hcd.successors_eq hflows]
          apply agree_anyOf
          intro q hq
          obtain ⟨g, hg⟩ := flow?_of_mem_successors hcd.coherent hq
          exact hask q g hg

theorem agree_isReadBeforeReset {name : String} (hf : c.flow? name = some f)
    (after : Option StatementId) (escalate : Bool) :
    Agree c d (isReadBeforeReset c field name after escalate)
      (isReadBeforeReset d field name after escalate) := by
  unfold isReadBeforeReset
  split
  · apply agree_searchWithin hcd _ _ hf
    · simpa using Nat.lt_succ_of_le (Context.card_names_le c)
    · simpa using Nat.lt_succ_of_le hcd.card_names_le
  · exact .of_pure _

end Search

end Liveness

end ActorOwnership
