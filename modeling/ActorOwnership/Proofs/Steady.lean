import ActorOwnership.Ownership.Liveness
import ActorOwnership.Ownership.Point
import ActorOwnership.Proofs.Request

/-! Questions to the summary table. A question may make the table grow, but asked again on any later
table it has the same answer and adds nothing. Requests, searches for reads and the discovery of
hand-off points are such questions. -/

namespace ActorOwnership
set_option autoImplicit false

open SummaryTable (Built Requests)

structure Steady (c : Context) {α : Type} (m : StateM SummaryTable α) : Prop where
  asks : ∀ t, ∃ names, Requests c [] t names (m.run t).2
  repeats : ∀ t u, Built c u → (m.run t).2 <+: u → m.run u = ((m.run t).1, u)

namespace Steady
variable {c : Context} {α β : Type}

section Growth
variable {m : StateM SummaryTable α}

theorem grows (hm : Steady c m) (t : SummaryTable) : t <+: (m.run t).2 := by
  obtain ⟨_, h⟩ := hm.asks t
  exact h.grows

theorem built (hm : Steady c m) (hc : c.Coherent) {t : SummaryTable} (ht : Built c t) :
    Built c (m.run t).2 := by
  obtain ⟨_, h⟩ := hm.asks t
  exact h.built_outside hc ht

end Growth

theorem of_pure (a : α) : Steady c (pure a) :=
  ⟨fun _ => ⟨[], .done⟩, fun _ _ _ _ => rfl⟩

/-- It is enough that each continuation that is taken is a question. -/
theorem bind {m : StateM SummaryTable α} {k : α → StateM SummaryTable β} (hm : Steady c m)
    (hk : ∀ a, Steady c (k a)) : Steady c (m >>= k) where
  asks t := by
    obtain ⟨first, hfirst⟩ := hm.asks t
    obtain ⟨second, hsecond⟩ := (hk (m.run t).1).asks (m.run t).2
    exact ⟨first ++ second, hfirst.trans hsecond⟩
  repeats t u hu hearlier := by
    have hfirst := hm.repeats t u hu (((hk _).grows _).trans hearlier)
    have hsecond := (hk (m.run t).1).repeats (m.run t).2 u hu hearlier
    rw [run_bind, run_bind, hfirst, hsecond]

theorem request (hc : c.Coherent) (name : String) : Steady c (SummaryTable.request c name) where
  asks t := ⟨[name], (SummaryTable.request_served hc name t).requests⟩
  repeats t u hu hearlier := by
    have hserved := SummaryTable.request_served hc name t
    cases hp : c.program.find? name with
    | some p =>
      obtain ⟨s, hs⟩ := SummaryTable.contains_iff.mp (SummaryTable.contains_of_request hc hp t)
      rw [hserved.answers, SummaryTable.answer_of_find? hs]
      exact SummaryTable.requestWithin_cached (SummaryTable.find?_of_earlier hearlier hs)
    | none =>
      have hflow : c.flow? name = none := by rw [hc, hp, Option.map_none]
      have hu' := hu.find?_eq_none hflow
      have ht' : ((SummaryTable.request c name).run t).2.find? name = none := by
        cases hs : ((SummaryTable.request c name).run t).2.find? name with
        | none => rfl
        | some s =>
          rw [SummaryTable.find?_of_earlier hearlier hs] at hu'
          cases hu'
      rw [hserved.answers, SummaryTable.answer_of_absent ht', hp]
      exact SummaryTable.requestWithin_unknown hu' hflow

end Steady

/-! ### Searches for reads -/

namespace Liveness
variable {c : Context} {f : Flow} {field : Symbol}

section Passage
variable {reads : StatementId → StateM SummaryTable Bool}
  {resets : SummaryTable → StatementId → Bool} {id : StatementId} {rest : List StatementId}
  {t : SummaryTable}

theorem passage_of_read (h : ((reads id).run t).1 = true) :
    (passage reads resets (id :: rest)).run t = (.read, ((reads id).run t).2) := by
  simp only [passage, run_bind, h, if_true, run_pure]

theorem passage_of_reset (h : ((reads id).run t).1 = false)
    (hreset : resets ((reads id).run t).2 id = true) :
    (passage reads resets (id :: rest)).run t = (.reset, ((reads id).run t).2) := by
  simp only [passage, run_bind, h, Bool.false_eq_true, if_false, run_get, hreset, if_true, run_pure]

theorem passage_of_through (h : ((reads id).run t).1 = false)
    (hreset : resets ((reads id).run t).2 id = false) :
    (passage reads resets (id :: rest)).run t =
      (passage reads resets rest).run ((reads id).run t).2 := by
  simp only [passage, run_bind, h, Bool.false_eq_true, if_false, run_get, hreset]

theorem steady_passage (hreads : ∀ id, Steady c (reads id))
    (hresets : ∀ id t u, ((reads id).run t).1 = false → ((reads id).run t).2 <+: u →
      resets u id = resets ((reads id).run t).2 id) (ids : List StatementId) :
    Steady c (passage reads resets ids) := by
  induction ids with
  | nil => exact .of_pure _
  | cons id rest ih =>
    -- the table is looked up only when the statement has been asked about, and does not read
    have hways : ∀ t, ((reads id).run t).1 = true ∨ ((reads id).run t).1 = false ∧
        (resets ((reads id).run t).2 id = true ∨ resets ((reads id).run t).2 id = false) := by
      intro t
      cases ((reads id).run t).1 <;> simp
    refine ⟨?_, ?_⟩
    · intro t
      rcases hways t with hread | ⟨hread, hreset | hreset⟩
      · rw [passage_of_read hread]
        exact (hreads id).asks t
      · rw [passage_of_reset hread hreset]
        exact (hreads id).asks t
      · rw [passage_of_through hread hreset]
        obtain ⟨first, hfirst⟩ := (hreads id).asks t
        obtain ⟨others, hothers⟩ := ih.asks ((reads id).run t).2
        exact ⟨first ++ others, hfirst.trans hothers⟩
    · intro t u hu hearlier
      have again : ((reads id).run t).2 <+: u → (reads id).run u = (((reads id).run t).1, u) :=
        (hreads id).repeats t u hu
      rcases hways t with hread | ⟨hread, hreset | hreset⟩
      · rw [passage_of_read hread] at hearlier ⊢
        have h := again hearlier
        rw [passage_of_read (by rw [h]; exact hread), h]
      · rw [passage_of_reset hread hreset] at hearlier ⊢
        have h := again hearlier
        have hreset' := (hresets id t u hread hearlier).trans hreset
        rw [passage_of_reset (by rw [h]; exact hread) (by rw [h]; exact hreset'), h]
      · rw [passage_of_through hread hreset] at hearlier ⊢
        have hle := (ih.grows _).trans hearlier
        have h := again hle
        have hreset' := (hresets id t u hread hle).trans hreset
        rw [passage_of_through (by rw [h]; exact hread) (by rw [h]; exact hreset'), h]
        exact ih.repeats _ u hu hearlier

end Passage

theorem steady_explore {p : Procedure} {pass : List StatementId → StateM SummaryTable Passage}
    (hpass : ∀ ids, Steady c (pass ids)) (fuel : Nat) (queue : List (Int × Nat)) (seen : List Int)
    (escaped : Bool) : Steady c (explore p pass fuel queue seen escaped) := by
  induction fuel generalizing queue seen escaped with
  | zero => exact .of_pure _
  | succ fuel ih =>
    match queue with
    | [] => exact .of_pure _
    | (id, skip) :: queue =>
      rw [explore]
      split
      · exact ih _ _ _
      · refine (hpass _).bind ?_
        intro a
        cases a with
        | read => exact .of_pure _
        | reset => exact ih _ _ _
        | through => exact ih _ _ _

theorem steady_anyOf {ask : String → StateM SummaryTable Bool} (hask : ∀ q, Steady c (ask q))
    (names : List String) : Steady c (anyOf ask names) := by
  induction names with
  | nil => exact .of_pure _
  | cons name names ih =>
    refine (hask name).bind ?_
    intro a
    cases a with
    | true => exact .of_pure _
    | false => exact ih

theorem steady_readsAt {ask : String → StateM SummaryTable Bool} (hask : ∀ q, Steady c (ask q))
    (id : StatementId) : Steady c (readsAt c f field ask id) := by
  unfold readsAt
  split
  · exact .of_pure _
  · split
    · exact hask _
    · exact .of_pure _

/-- Once a statement has been asked about, the table says for good whether it replaces the field. -/
theorem resetsAt_stable {ask : String → StateM SummaryTable Bool}
    (hask : ∀ q p t, c.program.find? q = some p → ((ask q).run t).2.contains q = true)
    {id : StatementId} {t u : SummaryTable} (hread : ((readsAt c f field ask id).run t).1 = false)
    (hu : ((readsAt c f field ask id).run t).2 <+: u) :
    Summary.resetsAt c u f field id =
      Summary.resetsAt c ((readsAt c f field ask id).run t).2 f field id := by
  unfold Summary.resetsAt
  cases hcallee : c.selfCallee? f id with
  | none => rfl
  | some q =>
    unfold readsAt at hread hu ⊢
    split at hread
    · cases hread
    · rename_i hdirect
      rw [if_neg hdirect] at hu ⊢
      simp only [hcallee] at hu ⊢
      have hq : c.program.find? q.name = some q := Summary.find?_self_of_selfCallee? hcallee
      obtain ⟨s, hs⟩ := SummaryTable.contains_iff.mp (hask q.name q t hq)
      simp only [Option.any_some, SummaryTable.resetsOf, hs, SummaryTable.find?_of_earlier hu hs]

/-- How a search asks for another procedure. -/
def askWithin (c : Context) (field : Symbol) (fuel : Nat) (active : List String) (q : String) :
    StateM SummaryTable Bool :=
  SummaryTable.request c q >>= fun _ => searchWithin c field fuel active false none q

/-- How a search passes statements of a procedure. -/
def passWithin (c : Context) (field : Symbol) (fuel : Nat) (active : List String) (f : Flow) :
    List StatementId → StateM SummaryTable Passage :=
  passage (readsAt c f field (askWithin c field fuel active)) fun t => Summary.resetsAt c t f field

/-- The ways from the start of a search. -/
def exploreWithin (c : Context) (field : Symbol) (fuel : Nat) (active : List String) (f : Flow)
    (after : Option StatementId) : StateM SummaryTable Passage :=
  explore f.scope.procedure (passWithin c field fuel active f) (f.scope.procedure.edgeCount + 2)
    [startOf f.scope.procedure after] [] false

section Search
variable {fuel : Nat} {active : List String} {escalate : Bool} {after : Option StatementId}
  {name : String}

theorem searchWithin_succ (hflow : c.flow? name = some f) (hactive : name ∉ active) :
    searchWithin c field (fuel + 1) active escalate after name =
      exploreWithin c field fuel (name :: active) f after >>= fun r => match r with
      | .read => pure true
      | .reset => pure false
      | .through => if escalate then
          anyOf (askWithin c field fuel (name :: active)) (successors c f.scope.procedure field)
        else pure false := by
  rw [searchWithin]
  simp only [hflow, List.contains_iff_mem, hactive, if_false]
  rfl

/-! The parts of a search are questions when the searches one level below are. -/

variable (hc : c.Coherent)
  (hbelow : ∀ active q, Steady c (searchWithin c field fuel active false none q))

include hc hbelow

theorem steady_askWithin (active : List String) (q : String) :
    Steady c (askWithin c field fuel active q) :=
  (Steady.request hc q).bind fun _ => hbelow _ _

theorem steady_passWithin (active : List String) (f : Flow) (ids : List StatementId) :
    Steady c (passWithin c field fuel active f ids) := by
  refine steady_passage (steady_readsAt (steady_askWithin hc hbelow active)) ?_ ids
  intro id t u hread hu
  refine resetsAt_stable ?_ hread hu
  intro q p t hp
  exact SummaryTable.contains_of_earlier ((hbelow _ _).grows _)
    (SummaryTable.contains_of_request hc hp t)

theorem steady_exploreWithin (active : List String) (f : Flow) (after : Option StatementId) :
    Steady c (exploreWithin c field fuel active f after) :=
  steady_explore (steady_passWithin hc hbelow active f) _ _ _ _

end Search

theorem steady_searchWithin (hc : c.Coherent) (fuel : Nat) (active : List String)
    (escalate : Bool) (after : Option StatementId) (name : String) :
    Steady c (searchWithin c field fuel active escalate after name) := by
  induction fuel generalizing active escalate after name with
  | zero => exact .of_pure _
  | succ fuel ih =>
    have hbelow : ∀ active q, Steady c (searchWithin c field fuel active false none q) :=
      fun _ _ => ih _ _ _ _
    cases hflow : c.flow? name with
    | none =>
      simp only [searchWithin, hflow]
      exact .of_pure _
    | some f =>
      by_cases hactive : name ∈ active
      · simp only [searchWithin, hflow, List.contains_iff_mem, hactive, if_true]
        exact .of_pure _
      · rw [searchWithin_succ hflow hactive]
        refine (steady_exploreWithin hc hbelow _ _ _).bind ?_
        intro a
        cases a with
        | read => exact .of_pure _
        | reset => exact .of_pure _
        | through =>
          simp only
          split
          · exact steady_anyOf (steady_askWithin hc hbelow _) _
          · exact .of_pure _

theorem steady_isReadBeforeReset (hc : c.Coherent) (name : String) (after : Option StatementId)
    (escalate : Bool) : Steady c (isReadBeforeReset c field name after escalate) := by
  unfold isReadBeforeReset
  split
  · exact steady_searchWithin hc _ _ _ _ _
  · exact .of_pure _

end Liveness

end ActorOwnership
