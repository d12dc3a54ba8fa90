import Mathlib.Data.List.Perm.Subperm
import ActorOwnership.Collections
import ActorOwnership.Flow.Saturation

/-! Tables of small sets that only grow, and what a saturated table satisfies. Outcomes of nodes and
origins of definitions are both tables of this form. -/

namespace ActorOwnership
set_option autoImplicit false

variable {α κ ω : Type}

/-! ### Small sets -/

theorem prefix_insertNew [BEq α] (xs : List α) (x : α) : xs <+: insertNew xs x := by
  unfold insertNew
  split
  · exact List.prefix_rfl
  · exact List.prefix_append xs [x]

theorem nodup_insertNew [BEq α] [LawfulBEq α] {xs : List α} (h : xs.Nodup) (x : α) :
    (insertNew xs x).Nodup := by
  unfold insertNew
  split
  · exact h
  · rename_i hx
    have hx' : x ∉ xs := by simpa using hx
    rw [List.nodup_append]
    refine ⟨h, by simp, ?_⟩
    intro a ha b hb hab
    have hb' : b = x := List.mem_singleton.mp hb
    subst hb' hab
    exact hx' ha

theorem prefix_union [BEq α] (xs ys : List α) : xs <+: union xs ys := by
  unfold union
  induction ys generalizing xs with
  | nil => exact List.prefix_rfl
  | cons y ys ih => exact (prefix_insertNew xs y).trans (ih (insertNew xs y))

theorem nodup_union [BEq α] [LawfulBEq α] {xs : List α} (h : xs.Nodup) (ys : List α) :
    (union xs ys).Nodup := by
  unfold union
  induction ys generalizing xs with
  | nil => exact h
  | cons y ys ih => exact ih (nodup_insertNew h y)

theorem nodup_distinct [BEq α] [LawfulBEq α] (xs : List α) : (distinct xs).Nodup :=
  nodup_union List.nodup_nil xs

theorem union_eq_of_length [BEq α] {xs ys : List α} (h : (union xs ys).length = xs.length) :
    union xs ys = xs :=
  ((prefix_union xs ys).eq_of_length h.symm).symm

theorem length_le_of_subset {xs ys : List α} (h : xs.Nodup) (hs : xs ⊆ ys) :
    xs.length ≤ ys.length :=
  (List.subperm_of_subset h hs).length_le

/-- A fold of unions collects what its parts hold. -/
theorem mem_foldl_union [BEq α] [LawfulBEq α] {xs : List ω} {f : ω → List α} {init : List α}
    {a : α} : a ∈ xs.foldl (fun v x => union v (f x)) init ↔ a ∈ init ∨ ∃ x ∈ xs, a ∈ f x := by
  induction xs generalizing init with
  | nil => simp
  | cons x xs ih => simp [ih, or_assoc]

/-! ### Tables -/

/-- Adds elements to every entry of a key. -/
def joinAt [BEq α] [BEq κ] (o : List (κ × List α)) (k : κ) (r : List α) : List (κ × List α) :=
  o.map fun x => if x.1 == k then (x.1, union x.2 r) else x

/-- The number of elements in all entries. -/
def volume (o : List (κ × List α)) : Nat := (o.flatMap Prod.snd).length

/-- Every entry is a set of elements of `u`. -/
def Within (u : List α) (o : List (κ × List α)) : Prop := ∀ x ∈ o, x.2.Nodup ∧ x.2 ⊆ u

theorem volume_cons (x : κ × List α) (o : List (κ × List α)) :
    volume (x :: o) = x.2.length + volume o := by
  simp [volume]

theorem keys_joinAt [BEq α] [BEq κ] (o : List (κ × List α)) (k : κ) (r : List α) :
    (joinAt o k r).map Prod.fst = o.map Prod.fst := by
  unfold joinAt
  rw [List.map_map]
  apply List.map_congr_left
  intro x _
  simp only [Function.comp_apply]
  split <;> rfl

theorem volume_le_joinAt [BEq α] [BEq κ] (o : List (κ × List α)) (k : κ) (r : List α) :
    volume o ≤ volume (joinAt o k r) := by
  induction o with
  | nil => simp [joinAt]
  | cons x o ih =>
    unfold joinAt at ih ⊢
    rw [List.map_cons, volume_cons, volume_cons]
    have hx : x.2.length ≤ (if x.1 == k then (x.1, union x.2 r) else x).2.length := by
      split
      · exact (prefix_union x.2 r).length_le
      · exact Nat.le_refl _
    omega

theorem joinAt_eq_of_volume [BEq α] [BEq κ] {o : List (κ × List α)} {k : κ} {r : List α}
    (h : volume (joinAt o k r) = volume o) : joinAt o k r = o := by
  induction o with
  | nil => rfl
  | cons x o ih =>
    have hrest := volume_le_joinAt o k r
    have hx := (prefix_union x.2 r).length_le
    unfold joinAt at h ih hrest ⊢
    rw [List.map_cons, volume_cons, volume_cons] at h
    rw [List.map_cons]
    by_cases hk : (x.1 == k) = true
    · simp only [if_pos hk] at h ⊢
      have hu : union x.2 r = x.2 := union_eq_of_length (by omega)
      rw [hu, ih (by omega)]
    · simp only [if_neg hk] at h ⊢
      rw [ih (by omega)]

theorem lookup_joinAt [BEq α] [BEq κ] [LawfulBEq κ] (o : List (κ × List α)) (k : κ) (r : List α) :
    (joinAt o k r).lookup k = (o.lookup k).map fun s => union s r := by
  induction o with
  | nil => rfl
  | cons x o ih =>
    obtain ⟨i, s⟩ := x
    unfold joinAt at ih ⊢
    rw [List.map_cons]
    by_cases hik : i = k
    · subst hik
      simp
    · have hik' : (i == k) = false := by simpa using hik
      have hki : (k == i) = false := by simpa using fun h : k = i => hik h.symm
      simp only [hik', Bool.false_eq_true, if_false, List.lookup_cons, hki]
      exact ih

theorem exists_lookup_of_mem_keys [BEq κ] [LawfulBEq κ] {o : List (κ × List α)} {k : κ}
    (h : k ∈ o.map Prod.fst) : ∃ s, o.lookup k = some s := by
  obtain ⟨x, hx, rfl⟩ := List.mem_map.mp h
  cases hl : o.lookup x.1 with
  | some s => exact ⟨s, rfl⟩
  | none =>
    have := List.lookup_eq_none_iff.mp hl x hx
    simp at this

theorem mem_of_lookup {β : Type} [BEq κ] [LawfulBEq κ] {o : List (κ × β)} {k : κ} {b : β}
    (h : o.lookup k = some b) : (k, b) ∈ o := by
  obtain ⟨l₁, l₂, rfl, _⟩ := List.lookup_eq_some_iff.mp h
  simp

theorem lookup_eq_some {β : Type} [BEq κ] [LawfulBEq κ] {l : List (κ × β)} {k : κ} {v : β}
    (hmem : (k, v) ∈ l) (huniq : ∀ x ∈ l, x.1 = k → x.2 = v) : l.lookup k = some v := by
  cases hl : l.lookup k with
  | none =>
    have := List.lookup_eq_none_iff.mp hl (k, v) hmem
    simp at this
  | some w =>
    obtain ⟨l₁, l₂, rfl, _⟩ := List.lookup_eq_some_iff.mp hl
    rw [← huniq (k, w) (by simp) rfl]

/-- A table that does not change already has the elements that were to be added. -/
theorem subset_of_joinAt_eq [BEq α] [LawfulBEq α] [BEq κ] [LawfulBEq κ] {o : List (κ × List α)}
    {k : κ} {r s : List α} (h : joinAt o k r = o) (hs : o.lookup k = some s) : r ⊆ s := by
  have hl := lookup_joinAt o k r
  rw [h, hs, Option.map_some, Option.some.injEq] at hl
  intro a ha
  rw [hl]
  exact mem_union.mpr (Or.inr ha)

theorem within_joinAt [BEq α] [LawfulBEq α] [BEq κ] {u : List α} {o : List (κ × List α)}
    (h : Within u o) (k : κ) {r : List α} (hr : r ⊆ u) : Within u (joinAt o k r) := by
  intro y hy
  obtain ⟨x, hx, rfl⟩ := List.mem_map.mp hy
  obtain ⟨hnodup, hsub⟩ := h x hx
  split
  · refine ⟨nodup_union hnodup r, ?_⟩
    intro a ha
    rcases mem_union.mp ha with ha | ha
    · exact hsub ha
    · exact hr ha
  · exact ⟨hnodup, hsub⟩

theorem volume_le_of_within {u : List α} {o : List (κ × List α)} (h : Within u o) :
    volume o ≤ o.length * u.length := by
  induction o with
  | nil => simp [volume]
  | cons x o ih =>
    obtain ⟨hnodup, hsub⟩ := h x List.mem_cons_self
    have hx := length_le_of_subset hnodup hsub
    have ho := ih fun y hy => h y (List.mem_cons_of_mem x hy)
    rw [volume_cons, List.length_cons, Nat.add_mul]
    omega

theorem volume_le_of_keys {u : List α} {start o : List (κ × List α)}
    (hkeys : o.map Prod.fst = start.map Prod.fst) (ho : Within u o) :
    volume o ≤ start.length * u.length := by
  have hlen : o.length = start.length := by simpa using congrArg List.length hkeys
  exact hlen ▸ volume_le_of_within ho

/-! ### Saturation -/

/-- A loop that does `step` again and again, until a round leaves things the same. -/
inductive Ends (step : α → α) (Same : α → α → Prop) : α → α → Prop where
  | done {a : α} : Same (step a) a → Ends step Same a (step a)
  | again {a b : α} : ¬ Same (step a) a → Ends step Same (step a) b → Ends step Same a b

/-- If sizes are bounded and a step that keeps the size changes nothing, the loop comes to an
end. -/
theorem ends_saturate {size : α → Nat} {step : α → α} {P : α → Prop} {bound : Nat}
    (keep : ∀ a, P a → P (step a)) (grow : ∀ a, P a → size a ≤ size (step a))
    (small : ∀ a, P a → size a ≤ bound) (still : ∀ a, P a → size (step a) = size a → step a = a)
    {fuel : Nat} {a : α} (h : P a) (enough : bound < fuel + size a) :
    Ends step Eq a (saturate size step fuel a) := by
  induction fuel generalizing a with
  | zero =>
    have := small a h
    omega
  | succ fuel ih =>
    simp only [saturate]
    split
    · rename_i hsize
      have hstill := still a h hsize
      have hdone : Ends step Eq a (step a) := .done hstill
      rw [hstill] at hdone
      exact hdone
    · rename_i hsize
      refine .again (fun hsame => hsize (by rw [hsame])) (ih (keep a h) ?_)
      have := grow a h
      omega

/-- One round: every write adds to the entry of its key what it finds in the table so far. -/
def joinRound [BEq α] [BEq κ] (key : ω → κ) (value : List (κ × List α) → ω → List α)
    (writes : List ω) (o : List (κ × List α)) : List (κ × List α) :=
  writes.foldl (fun o w => joinAt o (key w) (value o w)) o

section Rounds
variable [BEq α] [BEq κ] {key : ω → κ} {value : List (κ × List α) → ω → List α}

theorem volume_le_joinRound (writes : List ω) (o : List (κ × List α)) :
    volume o ≤ volume (joinRound key value writes o) := by
  induction writes generalizing o with
  | nil => exact Nat.le_refl _
  | cons w ws ih => exact Nat.le_trans (volume_le_joinAt o _ _) (ih _)

/-- A round that adds nothing leaves no write with something to add. -/
theorem joinAt_eq_of_joinRound {writes : List ω} {o : List (κ × List α)}
    (h : volume (joinRound key value writes o) = volume o) :
    ∀ w ∈ writes, joinAt o (key w) (value o w) = o := by
  induction writes with
  | nil => simp
  | cons v ws ih =>
    have hstep := volume_le_joinAt o (key v) (value o v)
    have hrest : volume (joinAt o (key v) (value o v)) ≤ volume (joinRound key value (v :: ws) o) :=
      volume_le_joinRound ws _
    have hv : joinAt o (key v) (value o v) = o := joinAt_eq_of_volume (by omega)
    have hround : joinRound key value (v :: ws) o = joinRound key value ws o := by
      show joinRound key value ws (joinAt o (key v) (value o v)) = _
      rw [hv]
    intro w hw
    rcases List.mem_cons.mp hw with rfl | hw
    · exact hv
    · exact ih (by rw [← hround, h]) w hw

theorem joinRound_eq_of_volume {writes : List ω} {o : List (κ × List α)}
    (h : volume (joinRound key value writes o) = volume o) : joinRound key value writes o = o := by
  have hall := joinAt_eq_of_joinRound h
  clear h
  induction writes with
  | nil => rfl
  | cons w ws ih =>
    show joinRound key value ws (joinAt o (key w) (value o w)) = o
    rw [hall w List.mem_cons_self]
    exact ih fun v hv => hall v (List.mem_cons_of_mem w hv)

variable [LawfulBEq α] {u : List α} {keys : List κ}

theorem joinRound_keeps {writes : List ω}
    (bounded : ∀ o, o.map Prod.fst = keys → Within u o → ∀ w ∈ writes, value o w ⊆ u)
    {o : List (κ × List α)} (h : o.map Prod.fst = keys ∧ Within u o) :
    (joinRound key value writes o).map Prod.fst = keys ∧
      Within u (joinRound key value writes o) := by
  induction writes generalizing o with
  | nil => exact h
  | cons w ws ih =>
    apply ih fun o hk ho v hv => bounded o hk ho v (List.mem_cons_of_mem w hv)
    refine ⟨by rw [keys_joinAt, h.1], ?_⟩
    exact within_joinAt h.2 (key w) (bounded o h.1 h.2 w List.mem_cons_self)

/-- With enough rounds the table has, for every write, all that the write adds. -/
theorem saturate_settled {writes : List ω} {start : List (κ × List α)} {fuel : Nat}
    (bounded : ∀ o, o.map Prod.fst = start.map Prod.fst → Within u o →
      ∀ w ∈ writes, value o w ⊆ u)
    (hstart : Within u start) (enough : start.length * u.length < fuel) :
    let o := saturate volume (joinRound key value writes) fuel start
    o.map Prod.fst = start.map Prod.fst ∧ Within u o ∧
      ∀ w ∈ writes, joinAt o (key w) (value o w) = o := by
  intro o
  have keep : ∀ o, o.map Prod.fst = start.map Prod.fst ∧ Within u o →
      (joinRound key value writes o).map Prod.fst = start.map Prod.fst ∧
        Within u (joinRound key value writes o) := fun o ho => joinRound_keeps bounded ho
  have small : ∀ o : List (κ × List α), o.map Prod.fst = start.map Prod.fst ∧ Within u o →
      volume o ≤ start.length * u.length := fun o ho => volume_le_of_keys ho.1 ho.2
  have hkept : o.map Prod.fst = start.map Prod.fst ∧ Within u o :=
    saturate_keeps keep fuel ⟨rfl, hstart⟩
  refine ⟨hkept.1, hkept.2, joinAt_eq_of_joinRound ?_⟩
  exact saturate_stable keep (fun o _ => volume_le_joinRound writes o) small ⟨rfl, hstart⟩
    (by omega)

/-- The rounds come to an end, and they end with the saturated table. -/
theorem ends_joinRound {writes : List ω} {start : List (κ × List α)} {fuel : Nat}
    (bounded : ∀ o, o.map Prod.fst = start.map Prod.fst → Within u o →
      ∀ w ∈ writes, value o w ⊆ u)
    (hstart : Within u start) (enough : start.length * u.length < fuel) :
    Ends (joinRound key value writes) Eq start
      (saturate volume (joinRound key value writes) fuel start) := by
  have small : ∀ o : List (κ × List α), o.map Prod.fst = start.map Prod.fst ∧ Within u o →
      volume o ≤ start.length * u.length := fun o ho => volume_le_of_keys ho.1 ho.2
  refine ends_saturate ?_ ?_ small ?_ ?_ ?_
  · exact fun o ho => joinRound_keeps bounded ho
  · exact fun o _ => volume_le_joinRound writes o
  · exact fun o _ => joinRound_eq_of_volume
  · exact ⟨rfl, hstart⟩
  · omega

end Rounds

end ActorOwnership
