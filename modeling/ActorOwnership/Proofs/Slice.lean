import Mathlib.Logic.Relation
import ActorOwnership.Ownership.Slice
import ActorOwnership.Proofs.Growth
import ActorOwnership.Proofs.Reaching

/-! The slice of a hand-off holds the statements from which the graph leads to it, and no others. The
node of the hand-off is visited a second time, and then as a whole, exactly when some way leads back
to it. -/

namespace ActorOwnership.Slice
set_option autoImplicit false

variable {p : Procedure} {start : Int}

/-! ### Meeting nodes -/

/-- What meeting the nodes `ids` does to a frontier that has met the first node. -/
structure Meets (start : Int) (f f' : Frontier) (ids : List Int) : Prop where
  nodup : f'.seen.Nodup
  seen : ∀ x, x ∈ f'.seen ↔ x ∈ f.seen ∨ x ∈ ids
  queue : f.queue ⊆ f'.queue
  fresh : ∀ x ∈ f'.seen, x ∈ f.seen ∨ x ∈ f'.queue
  looped : f'.looped = true ↔ f.looped = true ∨ start ∈ ids
  again : f'.looped = true → f.looped = true ∨ start ∈ f'.queue
  budget : f'.queue.length + f.seen.length + f.looped.toNat =
    f.queue.length + f'.seen.length + f'.looped.toNat

theorem meet_again {f : Frontier} (hnodup : f.seen.Nodup) (hl : f.looped = false) :
    f.meet start start =
      { queue := f.queue ++ [start], seen := start :: f.seen.erase start, looped := true } := by
  have hgone : start ∉ f.seen.erase start := hnodup.not_mem_erase
  simp [Frontier.meet, hl, hgone]

theorem meet_seen {f : Frontier} {id : Int} (hseen : id ∈ f.seen)
    (hplain : f.looped = true ∨ id ≠ start) : f.meet start id = f := by
  rcases hplain with hl | hne <;> simp [Frontier.meet, *]

theorem meet_new {f : Frontier} {id : Int} (hseen : id ∉ f.seen) (hne : id ≠ start) :
    f.meet start id = { f with queue := f.queue ++ [id], seen := id :: f.seen } := by
  simp [Frontier.meet, hne, hseen]

theorem meets_meet_again {f : Frontier} (hnodup : f.seen.Nodup) (hstart : start ∈ f.seen)
    (hl : f.looped = false) : Meets start f (f.meet start start) [start] := by
  have hgone : start ∉ f.seen.erase start := hnodup.not_mem_erase
  rw [meet_again hnodup hl]
  refine ⟨List.nodup_cons.mpr ⟨hgone, hnodup.erase start⟩, ?_, by simp, ?_, by simp, by simp, ?_⟩
  · intro x
    rw [List.mem_cons, hnodup.mem_erase_iff, List.mem_singleton]
    by_cases hx : x = start <;> simp [hx, hstart]
  · intro x hx
    rcases List.mem_cons.mp hx with rfl | hx
    · exact Or.inl hstart
    · exact Or.inl (List.mem_of_mem_erase hx)
  · -- the first node is queued a second time, and the mark pays for it
    have hlen := List.length_erase_of_mem hstart
    have hpos := List.length_pos_of_mem hstart
    simp only [List.length_append, List.length_cons, List.length_nil, hl, hlen]
    simp only [Bool.toNat_false, Bool.toNat_true]
    omega

theorem meets_meet_seen {f : Frontier} {id : Int} (hnodup : f.seen.Nodup) (hseen : id ∈ f.seen)
    (hplain : f.looped = true ∨ id ≠ start) : Meets start f (f.meet start id) [id] := by
  rw [meet_seen hseen hplain]
  refine ⟨hnodup, ?_, List.Subset.refl _, fun x hx => Or.inl hx, ?_, Or.inl, rfl⟩
  · intro x
    rw [List.mem_singleton]
    constructor
    · exact Or.inl
    · rintro (hx | rfl)
      · exact hx
      · exact hseen
  · rcases hplain with hl | hne
    · simp [hl]
    · simp [hne.symm]

theorem meets_meet_new {f : Frontier} {id : Int} (hnodup : f.seen.Nodup) (hseen : id ∉ f.seen)
    (hne : id ≠ start) : Meets start f (f.meet start id) [id] := by
  rw [meet_new hseen hne]
  refine ⟨List.nodup_cons.mpr ⟨hseen, hnodup⟩, ?_, by simp, ?_, by simp [hne.symm], Or.inl, ?_⟩
  · intro x
    rw [List.mem_cons, List.mem_singleton, or_comm]
  · intro x hx
    rcases List.mem_cons.mp hx with rfl | hx
    · exact Or.inr (by simp)
    · exact Or.inl hx
  · simp only [List.length_append, List.length_cons, List.length_nil]
    omega

theorem meets_meet {f : Frontier} (hnodup : f.seen.Nodup) (hstart : start ∈ f.seen) (id : Int) :
    Meets start f (f.meet start id) [id] := by
  by_cases hid : id = start
  · subst hid
    cases hl : f.looped with
    | false => exact meets_meet_again hnodup hstart hl
    | true => exact meets_meet_seen hnodup hstart (Or.inl hl)
  · by_cases hseen : id ∈ f.seen
    · exact meets_meet_seen hnodup hseen (Or.inr hid)
    · exact meets_meet_new hnodup hseen hid

theorem meets_foldl {f : Frontier} (hnodup : f.seen.Nodup) (hstart : start ∈ f.seen)
    (ids : List Int) : Meets start f (ids.foldl (Frontier.meet start) f) ids := by
  induction ids generalizing f with
  | nil => exact ⟨hnodup, by simp, List.Subset.refl _, fun x hx => Or.inl hx, by simp, Or.inl, rfl⟩
  | cons id ids ih =>
    have hone := meets_meet hnodup hstart id
    have hrest := ih hone.nodup ((hone.seen start).mpr (Or.inl hstart))
    rw [List.foldl_cons]
    refine ⟨hrest.nodup, ?_, List.Subset.trans hone.queue hrest.queue, ?_, ?_, ?_, ?_⟩
    · intro x
      rw [hrest.seen, hone.seen, List.mem_singleton, List.mem_cons, or_assoc]
    · intro x hx
      rcases hrest.fresh x hx with hx | hx
      · exact (hone.fresh x hx).imp_right fun h => hrest.queue h
      · exact Or.inr hx
    · rw [hrest.looped, hone.looped, List.mem_singleton, List.mem_cons, or_assoc]
    · intro hl
      rcases hrest.again hl with hl | hx
      · exact (hone.again hl).imp_right fun h => hrest.queue h
      · exact Or.inr hx
    · have h₁ := hone.budget
      have h₂ := hrest.budget
      omega

/-! ### Visits -/

/-- The predecessors that are recorded anywhere in the graph. -/
def sources (p : Procedure) : List Int := p.nodes.flatMap Node.preds

theorem length_sources : (sources p).length = edgeCount p := rfl

theorem predecessors_subset_sources (id : Int) : p.predecessors id ⊆ sources p := by
  unfold Procedure.predecessors
  cases hn : p.node? id with
  | none => simp
  | some n =>
    intro x hx
    exact List.mem_flatMap.mpr ⟨n, List.mem_of_find?_eq_some hn, by simpa using hx⟩

/-- The search after the visits `done`. Every queued node was met once, the first one perhaps twice,
which bounds the visits that are left. -/
structure Underway (p : Procedure) (start : Int) (fuel : Nat) (done : List (Int × Bool))
    (f : Frontier) : Prop where
  nodup : f.seen.Nodup
  known : f.seen ⊆ start :: sources p
  begun : start ∈ f.seen
  budget : fuel + f.seen.length + f.looped.toNat = f.queue.length + edgeCount p + 2
  met : ∀ x ∈ f.seen, x ∈ f.queue ∨ ∃ w, (x, w) ∈ done
  again : f.looped = true → start ∈ f.queue ∨ (start, true) ∈ done
  closed : ∀ x w, (x, w) ∈ done → ∀ m ∈ p.predecessors x,
    m ∈ f.seen ∧ (m = start → f.looped = true)
  whole : ∀ x w, (x, w) ∈ done → x ≠ start → w = true

theorem Underway.visit {fuel : Nat} {done : List (Int × Bool)} {f : Frontier} {id : Int}
    {queue : List Int} (h : Underway p start (fuel + 1) done f) (hq : f.queue = id :: queue) :
    Underway p start fuel (done ++ [(id, f.looped || id != start)])
      ((p.predecessors id).foldl (Frontier.meet start) { f with queue }) := by
  have hmeets := meets_foldl (f := { f with queue }) h.nodup h.begun (p.predecessors id)
  refine ⟨hmeets.nodup, ?_, (hmeets.seen start).mpr (Or.inl h.begun), ?_, ?_, ?_, ?_, ?_⟩
  · intro x hx
    rcases (hmeets.seen x).mp hx with hx | hx
    · exact h.known hx
    · exact List.mem_cons_of_mem start (predecessors_subset_sources id hx)
  · have h₁ := h.budget
    have h₂ := hmeets.budget
    rw [hq, List.length_cons] at h₁
    simp only at h₂
    omega
  · intro x hx
    rcases hmeets.fresh x hx with hx | hx
    · rcases h.met x hx with hx | ⟨w, hw⟩
      · rw [hq] at hx
        rcases List.mem_cons.mp hx with rfl | hx
        · exact Or.inr ⟨_, List.mem_append.mpr (Or.inr (List.mem_singleton.mpr rfl))⟩
        · exact Or.inl (hmeets.queue hx)
      · exact Or.inr ⟨w, List.mem_append.mpr (Or.inl hw)⟩
    · exact Or.inl hx
  · intro hl
    rcases hmeets.again hl with hl | hx
    · have hloop : f.looped = true := hl
      rcases h.again hloop with hx | hx
      · rw [hq] at hx
        rcases List.mem_cons.mp hx with rfl | hx
        · refine Or.inr (List.mem_append.mpr (Or.inr (List.mem_singleton.mpr ?_)))
          rw [hloop, Bool.true_or]
        · exact Or.inl (hmeets.queue hx)
      · exact Or.inr (List.mem_append.mpr (Or.inl hx))
    · exact Or.inl hx
  · intro x w hx m hm
    rw [hmeets.seen, hmeets.looped]
    rcases List.mem_append.mp hx with hx | hx
    · obtain ⟨hseen, hstart⟩ := h.closed x w hx m hm
      exact ⟨Or.inl hseen, fun heq => Or.inl (hstart heq)⟩
    · obtain ⟨rfl, _⟩ := Prod.mk.injEq .. ▸ List.mem_singleton.mp hx
      exact ⟨Or.inr hm, fun heq => Or.inr (heq ▸ hm)⟩
  · intro x w hx hne
    rcases List.mem_append.mp hx with hx | hx
    · exact h.whole x w hx hne
    · obtain ⟨rfl, rfl⟩ := Prod.mk.injEq .. ▸ List.mem_singleton.mp hx
      simp [hne]

theorem Underway.nil_of_exhausted {done : List (Int × Bool)} {f : Frontier}
    (h : Underway p start 0 done f) : f.queue = [] := by
  have hlen := length_le_of_subset h.nodup h.known
  have hbudget := h.budget
  have hloop : f.looped.toNat ≤ 1 := Bool.toNat_le f.looped
  rw [List.length_cons, length_sources] at hlen
  exact List.eq_nil_of_length_eq_zero (by omega)

/-- When nothing is queued, every predecessor of a visited node has been visited as a whole. -/
theorem Underway.complete {fuel : Nat} {done : List (Int × Bool)} {f : Frontier}
    (h : Underway p start fuel done f) (hq : f.queue = []) {x m : Int} {w : Bool}
    (hx : (x, w) ∈ done) (hm : m ∈ p.predecessors x) : (m, true) ∈ done := by
  obtain ⟨hseen, hloop⟩ := h.closed x w hx m hm
  by_cases hstart : m = start
  · rcases h.again (hloop hstart) with hmem | hmem
    · rw [hq] at hmem
      cases hmem
    · exact hstart ▸ hmem
  · rcases h.met m hseen with hmem | ⟨w', hmem⟩
    · rw [hq] at hmem
      cases hmem
    · exact h.whole m w' hmem hstart ▸ hmem

theorem Underway.run {fuel : Nat} {done : List (Int × Bool)} {f : Frontier}
    (h : Underway p start fuel done f) {x m : Int} {w : Bool}
    (hx : (x, w) ∈ done ++ visits p start fuel f) (hm : m ∈ p.predecessors x) :
    (m, true) ∈ done ++ visits p start fuel f := by
  induction fuel generalizing done f with
  | zero =>
    rw [visits, List.append_nil] at hx ⊢
    exact h.complete h.nil_of_exhausted hx hm
  | succ fuel ih =>
    cases hq : f.queue with
    | nil =>
      simp only [visits, hq, List.append_nil] at hx ⊢
      exact h.complete hq hx hm
    | cons id queue =>
      simp only [visits, hq] at hx ⊢
      rw [← List.singleton_append, ← List.append_assoc] at hx ⊢
      exact ih (h.visit hq) hx

theorem underway_start (p : Procedure) (start : Int) :
    Underway p start (edgeCount p + 2) [] { queue := [start], seen := [start] } where
  nodup := by simp
  known := by simp
  begun := List.mem_singleton.mpr rfl
  budget := by simp only [List.length_cons, List.length_nil, Bool.toNat_false]; omega
  met := fun x hx => Or.inl hx
  again := by simp
  closed := by simp
  whole := by simp

/-! ### Statements of the slice -/

/-- The visits of the slice of a statement. -/
def nodes (p : Procedure) (h : StatementId) : List (Int × Bool) :=
  visits p h.node (edgeCount p + 2) { queue := [h.node], seen := [h.node] }

theorem start_mem_nodes (p : Procedure) (h : StatementId) : (h.node, false) ∈ nodes p h := by
  simp [nodes, visits]

theorem mem_nodes_of_precedes {h : StatementId} {n : Int}
    (hn : Relation.TransGen p.Precedes n h.node) : (n, true) ∈ nodes p h := by
  have hclosed : ∀ {x m : Int} {w : Bool}, (x, w) ∈ nodes p h → p.Precedes m x →
      (m, true) ∈ nodes p h := by
    intro x m w hx hm
    have hrun := (underway_start p h.node).run (x := x) (m := m) (w := w)
    rw [List.nil_append] at hrun
    exact hrun hx hm
  induction hn using Relation.TransGen.head_induction_on with
  | single hm => exact hclosed (start_mem_nodes p h) hm
  | head hm _ ih => exact hclosed ih hm

theorem mem_of_whole {h s : StatementId} {i : Instr} (hi : p.instrAt? s = some i)
    (hn : (s.node, true) ∈ nodes p h) : (s, i) ∈ (of p h).flatMap Prod.snd := by
  obtain ⟨n, k, rfl, _⟩ := Procedure.exists_of_instrAt? hi
  refine List.mem_flatMap.mpr ⟨_, List.mem_map_of_mem hn, ?_⟩
  exact Procedure.mem_statementsAt.mpr ⟨k, rfl, hi⟩

/-- On the first visit the statements up to the hand-off count. -/
theorem mem_of_le {n : Int} {k j : Nat} {i : Instr}
    (hi : p.instrAt? ⟨p.name, n, k⟩ = some i) (hle : k ≤ j) :
    ((⟨p.name, n, k⟩ : StatementId), i) ∈ (of p ⟨p.name, n, j⟩).flatMap Prod.snd := by
  refine List.mem_flatMap.mpr ⟨_, List.mem_map_of_mem (start_mem_nodes p ⟨p.name, n, j⟩), ?_⟩
  have hget : (p.statementsAt n)[k]? = some (⟨p.name, n, k⟩, i) := by
    rw [Flow.statementsAt_getElem?, hi, Option.map_some]
  refine List.mem_of_getElem? (i := k) ?_
  simp only [Bool.false_eq_true, if_false, Int.toNat_natCast]
  rw [List.getElem?_take_of_lt (by omega), hget]

/-- A walk stays in its node or follows edges from its first node to its last. -/
theorem same_or_precedes {xs : List StatementId} {a b : Position} (hw : Walk p p.Precedes a xs b) :
    (a.node = b.node ∧ a.index ≤ b.index) ∨ Relation.TransGen p.Precedes a.node b.node := by
  induction hw with
  | here => exact Or.inl ⟨rfl, Nat.le_refl _⟩
  | step _ _ ih => exact ih.imp_left fun h => ⟨h.1, Nat.le_succ_of_le h.2⟩
  | move _ _ he _ ih =>
    rcases ih with ⟨heq, _⟩ | ih
    · exact Or.inr (.single (heq ▸ he))
    · exact Or.inr (ih.tail he)

/-- Every statement from which a walk leads to the hand-off is in its slice. -/
theorem mem_of_walk {xs : List StatementId} {n m : Int} {k j : Nat} {i : Instr}
    (hi : p.instrAt? ⟨p.name, n, k⟩ = some i) (hw : Walk p p.Precedes ⟨n, k + 1⟩ xs ⟨m, j⟩) :
    ((⟨p.name, n, k⟩ : StatementId), i) ∈ (of p ⟨p.name, m, j⟩).flatMap Prod.snd := by
  rcases same_or_precedes hw with ⟨heq, hle⟩ | hn
  · have heq : n = m := heq
    have hle : k + 1 ≤ j := hle
    subst heq
    exact mem_of_le hi (by omega)
  · exact mem_of_whole hi (mem_nodes_of_precedes hn)

/-! ### Ways from the slice -/

/-- From every queued node the graph leads to the first one, and back to it if it was met again. -/
structure Leads (p : Procedure) (start : Int) (f : Frontier) : Prop where
  queue : ∀ x ∈ f.queue, Relation.ReflTransGen p.Precedes x start
  looped : f.looped = true → Relation.TransGen p.Precedes start start

theorem Leads.push {f : Frontier} (h : Leads p start f) {id : Int}
    (hid : Relation.TransGen p.Precedes id start) :
    Leads p start (if f.seen.contains id then f
      else { f with queue := f.queue ++ [id], seen := id :: f.seen }) := by
  split
  · exact h
  · refine ⟨?_, h.looped⟩
    intro x hx
    rcases List.mem_append.mp hx with hx | hx
    · exact h.queue x hx
    · exact List.mem_singleton.mp hx ▸ hid.to_reflTransGen

theorem Leads.meet {f : Frontier} (h : Leads p start f) {id : Int}
    (hid : Relation.TransGen p.Precedes id start) : Leads p start (f.meet start id) := by
  have hmark : Leads p start (if !f.looped && id == start then
      { f with looped := true, seen := f.seen.erase start } else f) := by
    split
    · rename_i hstart
      rw [Bool.and_eq_true, beq_iff_eq] at hstart
      exact ⟨h.queue, fun _ => hstart.2 ▸ hid⟩
    · exact h
  exact hmark.push hid

theorem Leads.foldl {f : Frontier} (h : Leads p start f) {ids : List Int}
    (hids : ∀ id ∈ ids, Relation.TransGen p.Precedes id start) :
    Leads p start (ids.foldl (Frontier.meet start) f) := by
  induction ids generalizing f with
  | nil => exact h
  | cons id ids ih =>
    apply ih (h.meet (hids id List.mem_cons_self))
    exact fun id' hid' => hids id' (List.mem_cons_of_mem id hid')

theorem Leads.of_mem_visits {fuel : Nat} {f : Frontier} (h : Leads p start f) {id : Int}
    {whole : Bool} (hid : (id, whole) ∈ visits p start fuel f) :
    (whole = false → id = start) ∧ (whole = true → Relation.TransGen p.Precedes id start) := by
  induction fuel generalizing f with
  | zero => cases hid
  | succ fuel ih =>
    cases hq : f.queue with
    | nil =>
      simp only [visits, hq] at hid
      cases hid
    | cons first queue =>
      simp only [visits, hq] at hid
      have hfirst : Relation.ReflTransGen p.Precedes first start :=
        h.queue first (hq ▸ List.mem_cons_self)
      rcases List.mem_cons.mp hid with heq | hid
      · obtain ⟨rfl, rfl⟩ := Prod.mk.injEq .. ▸ heq
        refine ⟨fun hw => ?_, fun hw => ?_⟩
        · simp only [Bool.or_eq_false_iff, bne_eq_false_iff_eq] at hw
          exact hw.2
        · rcases Relation.reflTransGen_iff_eq_or_transGen.mp hfirst with rfl | hway
          · exact h.looped (by simpa using hw)
          · exact hway
      · have hrest : Leads p start { f with queue } :=
          ⟨fun x hx => h.queue x (hq ▸ List.mem_cons_of_mem first hx), h.looped⟩
        refine ih (hrest.foldl ?_) hid
        intro m hm
        exact .head' hm hfirst

theorem of_mem_nodes {h : StatementId} {id : Int} {whole : Bool} (hid : (id, whole) ∈ nodes p h) :
    (whole = false → id = h.node) ∧ (whole = true → Relation.TransGen p.Precedes id h.node) := by
  refine Leads.of_mem_visits ⟨?_, by simp⟩ hid
  intro x hx
  rw [List.mem_singleton.mp hx]

theorem walk_within {n : Int} {k j : Nat} (hkj : k ≤ j)
    (hj : j ≤ (p.instrsAt n).length) : ∃ xs, Walk p p.Precedes ⟨n, k⟩ xs ⟨n, j⟩ := by
  induction hkj with
  | refl => exact ⟨[], .here⟩
  | @step j hkj ih =>
    obtain ⟨xs, hw⟩ := ih (by omega)
    have hi : p.instrAt? ⟨p.name, n, (j : Nat)⟩ = some (p.instrsAt n)[j] := by
      rw [Procedure.instrAt?_mk]
      exact List.getElem?_eq_getElem (by omega)
    exact ⟨_, hw.step hi⟩

theorem walk_of_precedes {n m : Int} (h : Relation.TransGen p.Precedes n m)
    (hn : p.hasNode n = true) {k j : Nat} (hk : k ≤ (p.instrsAt n).length)
    (hj : j ≤ (p.instrsAt m).length) : ∃ xs, Walk p p.Precedes ⟨n, k⟩ xs ⟨m, j⟩ := by
  -- to the end of each node, then along the edge
  induction h using Relation.TransGen.head_induction_on generalizing k with
  | single he =>
    obtain ⟨xs, hw⟩ := walk_within hk (Nat.le_refl _)
    obtain ⟨ys, hw'⟩ := walk_within (Nat.zero_le j) hj
    exact ⟨_, (hw.move hn he he.hasNode).trans hw'⟩
  | head he _ ih =>
    obtain ⟨xs, hw⟩ := walk_within hk (Nat.le_refl _)
    obtain ⟨ys, hw'⟩ := ih he.hasNode (Nat.zero_le _)
    exact ⟨_, (hw.move hn he he.hasNode).trans hw'⟩

theorem walk_of_reachable {n m : Int} (h : Relation.ReflTransGen p.Precedes n m)
    (hn : p.hasNode n = true) {j : Nat} (hj : j ≤ (p.instrsAt m).length) :
    ∃ xs, Walk p p.Precedes ⟨n, 0⟩ xs ⟨m, j⟩ := by
  rcases Relation.reflTransGen_iff_eq_or_transGen.mp h with rfl | htrans
  · exact walk_within (Nat.zero_le j) hj
  · exact walk_of_precedes htrans hn (Nat.zero_le _) hj

/-- From every statement of the slice a walk leads to the hand-off. -/
theorem walk_of_mem {n : Int} {j : Nat} (hj : j ≤ (p.instrsAt n).length)
    {st : StatementId × Instr} (hst : st ∈ (of p ⟨p.name, n, j⟩).flatMap Prod.snd) :
    ∃ m k, st.1 = ⟨p.name, m, (k : Nat)⟩ ∧ p.instrAt? st.1 = some st.2 ∧
      ∃ xs, Walk p p.Precedes ⟨m, k⟩ xs ⟨n, j⟩ := by
  obtain ⟨row, hrow, hst⟩ := List.mem_flatMap.mp hst
  obtain ⟨⟨id, whole⟩, hid, rfl⟩ := List.mem_map.mp hrow
  obtain ⟨hfirst, hway⟩ := of_mem_nodes hid
  obtain ⟨s, i⟩ := st
  cases whole with
  | true =>
    simp only [if_true] at hst
    obtain ⟨k, rfl, hi⟩ := Procedure.mem_statementsAt.mp hst
    have hk : k < (p.instrsAt id).length := by
      rw [Procedure.instrAt?_mk] at hi
      exact (List.getElem?_eq_some_iff.mp hi).1
    refine ⟨id, k, rfl, hi, ?_⟩
    exact walk_of_precedes (hway rfl) (Procedure.hasNode_of_instrAt? hi) (Nat.le_of_lt hk) hj
  | false =>
    have hid : id = n := hfirst rfl
    subst hid
    simp only [Bool.false_eq_true, if_false, Int.toNat_natCast] at hst
    obtain ⟨k, hk⟩ := List.mem_iff_getElem?.mp hst
    rw [List.getElem?_take] at hk
    split at hk
    · rw [Flow.statementsAt_getElem?, Option.map_eq_some_iff] at hk
      obtain ⟨i', hi, heq⟩ := hk
      cases heq
      exact ⟨id, k, rfl, hi, walk_within (by omega) hj⟩
    · cases hk

end ActorOwnership.Slice
