import ActorOwnership.Proofs.Reaching
import ActorOwnership.Proofs.Steady

/-! Searches over a graph are complete. When a search that has left the table as it is finds no
read, no walk without a reset leads to one; and when a procedure is said to replace a field on every
path, no walk without a reset leads from its entry to an end. -/

namespace ActorOwnership
set_option autoImplicit false

open SummaryTable (Built)

/-- A question that ends on a table that was there before has left the table as it is. -/
theorem Steady.eq_of_run {c : Context} {α : Type} {m : StateM SummaryTable α} (hm : Steady c m)
    {t u : SummaryTable} {a : α} (hearlier : u <+: t) (hrun : m.run t = (a, u)) : u = t := by
  have hgrow := hm.grows t
  rw [hrun] at hgrow
  exact hearlier.eq_of_length_le hgrow.length_le

namespace Procedure
variable {p : Procedure}

def handlesFrom (p : Procedure) (n : Int) (k : Nat) : List StatementId :=
  ((p.statementsAt n).map Prod.fst).drop k

theorem handlesFrom_cons {n : Int} {k : Nat} {i : Instr}
    (h : p.instrAt? ⟨p.name, n, k⟩ = some i) :
    p.handlesFrom n k = ⟨p.name, n, k⟩ :: p.handlesFrom n (k + 1) := by
  unfold handlesFrom
  rw [List.drop_eq_getElem?_toList_append, List.getElem?_map, Flow.statementsAt_getElem?, h]
  rfl

theorem handlesFrom_end (n : Int) : p.handlesFrom n (p.instrsAt n).length = [] := by
  unfold handlesFrom
  rw [List.drop_eq_nil_iff, List.length_map]
  cases hn : p.node? n with
  | none => simp [statementsAt, hn]
  | some m => simp [statementsAt, instrsAt, statementsOf, hn]

def targets (p : Procedure) : List Int := p.nodes.flatMap Node.succs

theorem length_targets : p.targets.length = p.edgeCount := rfl

theorem successors_subset_targets (n : Int) : p.successors n ⊆ p.targets := by
  unfold successors
  cases hn : p.node? n with
  | none => simp
  | some m =>
    intro x hx
    exact List.mem_flatMap.mpr ⟨m, List.mem_of_find?_eq_some hn, by simpa using hx⟩

/-- A node of the graph that no edge leaves. -/
def IsEnd (p : Procedure) (n : Int) : Prop := p.hasNode n = true ∧ p.successors n = []

end Procedure

namespace Liveness
variable {c : Context} {p : Procedure} {u : SummaryTable}

/-! ### Nodes that a search has followed -/

/-- The way on from a place has been followed: it meets a reset, or it leaves the node, whose
successors are among those that the search has visited from their start. -/
def Followed (p : Procedure) (pass : List StatementId → StateM SummaryTable Passage)
    (u : SummaryTable) (visited : List (Int × Nat)) (escaped : Bool) (a : Position) : Prop :=
  (pass (p.handlesFrom a.node a.index)).run u = (.reset, u) ∨
    (pass (p.handlesFrom a.node a.index)).run u = (.through, u) ∧
      (∀ m ∈ p.successors a.node, (m, 0) ∈ visited) ∧
      (p.successors a.node = [] → escaped = true)

/-- The search after the visits `done`. Each queued node was met once, which bounds what is left. -/
structure Exploring (p : Procedure) (pass : List StatementId → StateM SummaryTable Passage)
    (u : SummaryTable) (nodes : List Int) (fuel : Nat) (done queue : List (Int × Nat))
    (seen : List Int) (escaped : Bool) : Prop where
  nodup : seen.Nodup
  known : seen ⊆ nodes
  budget : nodes.length + queue.length + 1 ≤ fuel + seen.length
  met : ∀ m ∈ seen, (m, 0) ∈ done ++ queue
  followed : ∀ n k, (n, k) ∈ done → p.hasNode n = true →
    Followed p pass u (seen.map fun m => (m, 0)) escaped ⟨n, k⟩

section Search
variable {pass : List StatementId → StateM SummaryTable Passage} {nodes : List Int} {fuel : Nat}
  {done queue : List (Int × Nat)} {seen : List Int} {escaped : Bool} {id : Int} {skip : Nat}

theorem Followed.mono {visited visited' : List (Int × Nat)} {escaped escaped' : Bool}
    {a : Position} (h : Followed p pass u visited escaped a) (hv : visited ⊆ visited')
    (he : escaped = true → escaped' = true) : Followed p pass u visited' escaped' a := by
  rcases h with h | ⟨h, hsucc, hend⟩
  · exact Or.inl h
  · exact Or.inr ⟨h, fun m hm => hv (hsucc m hm), fun hnil => he (hend hnil)⟩

theorem Exploring.pass_over
    (h : Exploring p pass u nodes (fuel + 1) done ((id, skip) :: queue) seen escaped)
    (hskip : p.hasNode id = true → (pass (p.handlesFrom id skip)).run u = (.reset, u)) :
    Exploring p pass u nodes fuel (done ++ [(id, skip)]) queue seen escaped := by
  refine ⟨h.nodup, h.known, ?_, ?_, ?_⟩
  · have := h.budget
    rw [List.length_cons] at this
    omega
  · intro m hm
    rw [List.append_assoc, List.singleton_append]
    exact h.met m hm
  · intro n k hnk hn
    rcases List.mem_append.mp hnk with hnk | hnk
    · exact h.followed n k hnk hn
    · obtain ⟨rfl, rfl⟩ := Prod.mk.injEq .. ▸ List.mem_singleton.mp hnk
      exact Or.inl (hskip hn)

theorem Exploring.leave {n : Node}
    (h : Exploring p pass u nodes (fuel + 1) done ((id, skip) :: queue) seen escaped)
    (hnodes : p.successors id ⊆ nodes) (hnode : p.node? id = some n)
    (hleave : (pass (p.handlesFrom id skip)).run u = (.through, u)) :
    let new := (distinct n.succs).filter fun s => !seen.contains s
    Exploring p pass u nodes fuel (done ++ [(id, skip)]) (queue ++ new.map fun s => (s, 0))
      (seen ++ new) (escaped || n.succs.isEmpty) := by
  intro new
  have hsucc : p.successors id = n.succs := by simp [Procedure.successors, hnode]
  have hnew : ∀ m ∈ new, m ∈ n.succs ∧ m ∉ seen := by
    intro m hm
    obtain ⟨hm, hseen⟩ := List.mem_filter.mp hm
    exact ⟨mem_distinct.mp hm, by simpa using hseen⟩
  have hall : ∀ m ∈ n.succs, m ∈ seen ++ new := by
    intro m hm
    by_cases hseen : m ∈ seen
    · exact List.mem_append.mpr (Or.inl hseen)
    · refine List.mem_append.mpr (Or.inr (List.mem_filter.mpr ⟨mem_distinct.mpr hm, ?_⟩))
      simpa using hseen
  refine ⟨?_, ?_, ?_, ?_, ?_⟩
  · refine List.nodup_append.mpr ⟨h.nodup, (nodup_distinct _).filter _, ?_⟩
    rintro a ha b hb rfl
    exact (hnew a hb).2 ha
  · intro m hm
    rcases List.mem_append.mp hm with hm | hm
    · exact h.known hm
    · exact hnodes (hsucc ▸ (hnew m hm).1)
  · have := h.budget
    simp only [List.length_cons, List.length_append, List.length_map] at this ⊢
    omega
  · intro m hm
    rcases List.mem_append.mp hm with hm | hm
    · rw [List.append_assoc, List.singleton_append, ← List.cons_append, ← List.append_assoc]
      exact List.mem_append.mpr (Or.inl (h.met m hm))
    · refine List.mem_append.mpr (Or.inr (List.mem_append.mpr (Or.inr ?_)))
      exact List.mem_map_of_mem hm
  · intro n' k hnk hn'
    rcases List.mem_append.mp hnk with hnk | hnk
    · refine (h.followed n' k hnk hn').mono ?_ (by simp_all)
      rw [List.map_append]
      exact List.subset_append_left _ _
    · obtain ⟨rfl, rfl⟩ := Prod.mk.injEq .. ▸ List.mem_singleton.mp hnk
      refine Or.inr ⟨hleave, ?_, ?_⟩
      · intro m hm
        exact List.mem_map_of_mem (hall m (hsucc ▸ hm))
      · intro hnil
        rw [← hsucc, hnil]
        simp

theorem explore_cons_run {n : Node} (hnode : p.node? id = some n) (t : SummaryTable) :
    (explore p pass (fuel + 1) ((id, skip) :: queue) seen escaped).run t =
      match (pass (p.handlesFrom id skip)).run t with
      | (.read, t') => (.read, t')
      | (.reset, t') => (explore p pass fuel queue seen escaped).run t'
      | (.through, t') =>
        let new := (distinct n.succs).filter fun s => !seen.contains s
        (explore p pass fuel (queue ++ new.map fun s => (s, 0)) (seen ++ new)
          (escaped || n.succs.isEmpty)).run t' := by
  have hhandles : p.handlesFrom id skip = ((p.statementsOf n).map Prod.fst).drop skip := by
    simp [Procedure.handlesFrom, Procedure.statementsAt, hnode]
  rw [explore]
  simp only [hnode, run_bind, ← hhandles]
  obtain ⟨o, t'⟩ := (pass (p.handlesFrom id skip)).run t
  cases o <;> rfl

/-- A search that keeps the table and finds no read has followed every node that it met. -/
theorem explore_run (hpass : ∀ ids, Steady c (pass ids)) (hnodes : ∀ n, p.successors n ⊆ nodes)
    (h : Exploring p pass u nodes fuel done queue seen escaped) {r : Passage}
    (hrun : (explore p pass fuel queue seen escaped).run u = (r, u)) (hr : r ≠ .read) :
    ∃ visited escaped', done ++ queue ⊆ visited ∧ r = (if escaped' then .through else .reset) ∧
      ∀ n k, (n, k) ∈ visited → p.hasNode n = true →
        Followed p pass u visited escaped' ⟨n, k⟩ := by
  induction fuel generalizing done queue seen escaped with
  | zero =>
    -- every node is queued once, so the fuel cannot run out
    have hlen := length_le_of_subset h.nodup h.known
    have hbudget := h.budget
    omega
  | succ fuel ih =>
    match queue with
    | [] =>
      refine ⟨done, escaped, by simp, (congrArg Prod.fst hrun).symm, ?_⟩
      intro n k hnk hn
      refine (h.followed n k hnk hn).mono ?_ fun he => he
      intro x hx
      obtain ⟨m, hm, rfl⟩ := List.mem_map.mp hx
      simpa using h.met m hm
    | (id, skip) :: queue =>
      have happend : done ++ (id, skip) :: queue = done ++ [(id, skip)] ++ queue := by simp
      rw [happend]
      cases hnode : p.node? id with
      | none =>
        rw [explore, hnode] at hrun
        refine ih (h.pass_over ?_) hrun
        intro hn
        obtain ⟨n, hn⟩ := Procedure.hasNode_iff.mp hn
        rw [hnode] at hn
        cases hn
      | some n =>
        rw [explore_cons_run hnode] at hrun
        obtain ⟨o, t, hpassed⟩ : ∃ o t, (pass (p.handlesFrom id skip)).run u = (o, t) :=
          ⟨_, _, rfl⟩
        have hgrow : u <+: t := by
          have := (hpass (p.handlesFrom id skip)).grows u
          rw [hpassed] at this
          exact this
        rw [hpassed] at hrun
        -- tables only grow, so one that is the same at the end was the same after this visit
        cases o with
        | read => exact absurd (congrArg Prod.fst hrun).symm hr
        | reset =>
          obtain rfl := (steady_explore hpass _ _ _ _).eq_of_run hgrow hrun
          exact ih (h.pass_over fun _ => hpassed) hrun
        | through =>
          obtain rfl := (steady_explore hpass _ _ _ _).eq_of_run hgrow hrun
          obtain ⟨visited, escaped', hsub, hrest⟩ := ih (h.leave (hnodes id) hnode hpassed) hrun
          refine ⟨visited, escaped', fun x hx => hsub ?_, hrest⟩
          rw [← List.append_assoc]
          exact List.mem_append.mpr (Or.inl hx)

end Search

/-! ### Walks -/

section Walks
variable {reads : StatementId → StateM SummaryTable Bool}
  {resets : SummaryTable → StatementId → Bool} {visited : List (Int × Nat)} {escaped : Bool}

/-- At a place from which the way on has been followed, the next statement does not read. -/
theorem Followed.next (hsteady : ∀ ids, Steady c (passage reads resets ids))
    (hreads : ∀ id, Steady c (reads id)) {n : Int} {k : Nat} {i : Instr}
    (h : Followed p (passage reads resets) u visited escaped ⟨n, k⟩)
    (hi : p.instrAt? ⟨p.name, n, k⟩ = some i) :
    (reads ⟨p.name, n, k⟩).run u = (false, u) ∧ (resets u ⟨p.name, n, k⟩ = false →
      Followed p (passage reads resets) u visited escaped ⟨n, k + 1⟩) := by
  obtain ⟨b, t, hread⟩ : ∃ b t, (reads ⟨p.name, n, k⟩).run u = (b, t) := ⟨_, _, rfl⟩
  have hgrow : u <+: t := by
    have := (hreads ⟨p.name, n, k⟩).grows u
    rw [hread] at this
    exact this
  -- the statement is the first that was passed from here
  unfold Followed at h
  rw [Procedure.handlesFrom_cons hi] at h
  cases b with
  | true =>
    rw [passage_of_read (by rw [hread])] at h
    rcases h with h | ⟨h, _⟩ <;> cases h
  | false =>
    cases hreset : resets t ⟨p.name, n, k⟩ with
    | true =>
      rw [passage_of_reset (by rw [hread]) (by rw [hread]; exact hreset), hread] at h
      rcases h with h | ⟨h, _⟩
      · cases h
        refine ⟨hread, fun hno => ?_⟩
        rw [hno] at hreset
        cases hreset
      · cases h
    | false =>
      rw [passage_of_through (by rw [hread]) (by rw [hread]; exact hreset), hread] at h
      have hback : u = t := by
        rcases h with h | ⟨h, _⟩ <;> exact (hsteady _).eq_of_run hgrow h
      subst hback
      exact ⟨hread, fun _ => h⟩

theorem followed_of_walk (hsteady : ∀ ids, Steady c (passage reads resets ids))
    (hreads : ∀ id, Steady c (reads id))
    (hall : ∀ n k, (n, k) ∈ visited → p.hasNode n = true →
      Followed p (passage reads resets) u visited escaped ⟨n, k⟩)
    {a b : Position} {xs : List StatementId} (ha : (a.node, a.index) ∈ visited)
    (hnode : p.hasNode a.node = true) (hw : Walk p p.LeadsTo a xs b)
    (hclear : ∀ s ∈ xs, resets u s = false) :
    Followed p (passage reads resets) u visited escaped b := by
  induction hw with
  | here => exact hall _ _ ha hnode
  | step _ hi ih =>
    have hbefore := ih fun s hs => hclear s (List.mem_append.mpr (Or.inl hs))
    refine (hbefore.next hsteady hreads hi).2 (hclear _ ?_)
    exact List.mem_append.mpr (Or.inr (List.mem_singleton.mpr rfl))
  | move _ _ he hm ih =>
    have hleft := ih hclear
    unfold Followed at hleft
    simp only [Procedure.handlesFrom_end] at hleft
    rcases hleft with h | ⟨_, hsucc, _⟩
    · cases h
    · exact hall _ _ (hsucc _ he) hm

/-- Along walks without resets from the start of a search that finds no read, no statement reads,
and if one of them gets to an end, the search says so. -/
theorem explore_complete (hsteady : ∀ ids, Steady c (passage reads resets ids))
    (hreads : ∀ id, Steady c (reads id)) {a : Position} {nodes seen : List Int} {fuel : Nat}
    (h : Exploring p (passage reads resets) u nodes fuel [] [(a.node, a.index)] seen false)
    (hnodes : ∀ n, p.successors n ⊆ nodes) {r : Passage}
    (hrun : (explore p (passage reads resets) fuel [(a.node, a.index)] seen false).run u = (r, u))
    (hr : r ≠ .read) {xs : List StatementId} {n : Int} {k : Nat}
    (hw : Walk p p.LeadsTo a xs ⟨n, k⟩) (hclear : ∀ s ∈ xs, resets u s = false) :
    (∀ i, p.instrAt? ⟨p.name, n, k⟩ = some i → (reads ⟨p.name, n, k⟩).run u = (false, u)) ∧
      (k = (p.instrsAt n).length → p.IsEnd n → r = .through) := by
  obtain ⟨visited, escaped', hsub, hresult, hall⟩ := explore_run hsteady hnodes h hrun hr
  have hfollowed : p.hasNode n = true →
      Followed p (passage reads resets) u visited escaped' ⟨n, k⟩ := fun hn =>
    followed_of_walk hsteady hreads hall (hsub (by simp)) (hw.hasNode_start hn) hw hclear
  constructor
  · intro i hi
    exact ((hfollowed (Procedure.hasNode_of_instrAt? hi)).next hsteady hreads hi).1
  · rintro rfl ⟨hn, hend⟩
    have hleft := hfollowed hn
    unfold Followed at hleft
    simp only [Procedure.handlesFrom_end] at hleft
    rcases hleft with hleft | ⟨_, _, hescaped⟩
    · cases hleft
    · rw [hresult, hescaped hend]
      rfl

end Walks

theorem exploring_start (pass : List StatementId → StateM SummaryTable Passage) (a : Position) :
    Exploring p pass u p.targets (p.edgeCount + 2) [] [(a.node, a.index)] [] false where
  nodup := List.nodup_nil
  known := List.nil_subset _
  budget := by
    simp only [List.length_cons, List.length_nil, Procedure.length_targets]
    omega
  met := by simp
  followed := by simp

end Liveness

/-! ### Resets on every path -/

namespace Summary
open Liveness
variable {p : Procedure} {isReset : StatementId → Bool}

theorem passage_run_of_resets (ids : List StatementId) (t : SummaryTable) :
    (passage (fun _ => pure false) (fun _ => isReset) ids).run t =
      (if ids.any isReset then .reset else .through, t) := by
  induction ids with
  | nil => rfl
  | cons id ids ih =>
    cases hid : isReset id with
    | true => rw [passage_of_reset rfl hid, List.any_cons, hid]; rfl
    | false => rw [passage_of_through rfl hid, List.any_cons, hid, Bool.false_or, ← ih]; rfl

/-- The search for an escape is a search in which no statement reads. -/
theorem explore_of_escapes {fuel : Nat} {queue seen : List Int}
    (h : escapes p isReset fuel queue seen = false) (t : SummaryTable) :
    (explore p (passage (fun _ => pure false) fun _ => isReset) fuel
      (queue.map fun id => (id, 0)) seen false).run t = (.reset, t) := by
  induction fuel generalizing queue seen with
  | zero => rfl
  | succ fuel ih =>
    match queue with
    | [] => rfl
    | id :: queue =>
      rw [escapes] at h
      rw [List.map_cons]
      cases hnode : p.node? id with
      | none =>
        simp only [hnode] at h
        rw [explore, hnode]
        exact ih h
      | some n =>
        simp only [hnode] at h
        have hany : ((p.handlesFrom id 0).any isReset) =
            (p.statementsOf n).any fun s => isReset s.1 := by
          simp only [Procedure.handlesFrom, Procedure.statementsAt, hnode, List.drop_zero,
            List.any_map]
          rfl
        rw [explore_cons_run hnode, passage_run_of_resets, hany]
        cases hblock : (p.statementsOf n).any fun s => isReset s.1 with
        | true =>
          rw [hblock, if_pos rfl] at h
          exact ih h
        | false =>
          rw [hblock, if_neg Bool.false_ne_true] at h
          cases hend : n.succs.isEmpty with
          | true =>
            rw [hend, if_pos rfl] at h
            cases h
          | false =>
            rw [hend, if_neg Bool.false_ne_true] at h
            have hrest := ih h
            rw [List.map_append] at hrest
            exact hrest

/-- If a walk without resets leads from the entry to an end, the field is not replaced on every
path. -/
theorem resetsOnEveryPath_eq_false {xs : List StatementId} {n : Int}
    (hw : Walk p p.LeadsTo ⟨p.entry, 0⟩ xs ⟨n, (p.instrsAt n).length⟩) (hend : p.IsEnd n)
    (hclear : ∀ s ∈ xs, isReset s = false) : resetsOnEveryPath p isReset = false := by
  unfold resetsOnEveryPath
  cases h : escapes p isReset (p.edgeCount + 2) [p.entry] [p.entry] with
  | true => rfl
  | false =>
    have hreads : ∀ id : StatementId,
        Steady (default : Context) ((fun _ => pure false : StatementId → StateM _ Bool) id) :=
      fun _ => .of_pure false
    have hsteady : ∀ ids, Steady (default : Context)
        (passage (fun _ => pure false) (fun _ => isReset) ids) :=
      steady_passage hreads fun _ _ _ _ _ => rfl
    have hstart : Exploring p (passage (fun _ => pure false) fun _ => isReset) []
        (p.entry :: p.targets) (p.edgeCount + 2) [] [(p.entry, 0)] [p.entry] false :=
      ⟨by simp, by simp, by simp [Procedure.length_targets], by simp, by simp⟩
    have hrun := explore_of_escapes h []
    have hthrough := (explore_complete (a := ⟨p.entry, 0⟩) hsteady hreads hstart
      (fun n => List.subset_cons_of_subset _ (Procedure.successors_subset_targets n)) hrun
      (by decide) hw hclear).2 rfl hend
    cases hthrough

end Summary

end ActorOwnership
