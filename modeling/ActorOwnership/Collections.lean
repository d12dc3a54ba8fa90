/-! Lists as small sets and maps: each element once, in the order in which it came. -/

namespace ActorOwnership
set_option autoImplicit false

variable {α : Type}

/-- Appends `x` unless it is there already. -/
def insertNew [BEq α] (xs : List α) (x : α) : List α :=
  if xs.contains x then xs else xs ++ [x]

theorem mem_insertNew [BEq α] [LawfulBEq α] {xs : List α} {x y : α} :
    y ∈ insertNew xs x ↔ y ∈ xs ∨ y = x := by
  unfold insertNew
  split
  · rename_i h
    constructor
    · exact Or.inl
    · rintro (hy | rfl)
      · exact hy
      · simpa using h
  · simp

/-- Adds the elements of `ys` that `xs` does not have. -/
def union [BEq α] (xs ys : List α) : List α := ys.foldl insertNew xs

@[simp] theorem mem_union [BEq α] [LawfulBEq α] {xs ys : List α} {x : α} :
    x ∈ union xs ys ↔ x ∈ xs ∨ x ∈ ys := by
  unfold union
  induction ys generalizing xs with
  | nil => simp
  | cons y ys ih => simp [ih, mem_insertNew, or_assoc]

/-- The elements in the order of their first occurrence. -/
def distinct [BEq α] (xs : List α) : List α := union [] xs

@[simp] theorem mem_distinct [BEq α] [LawfulBEq α] {xs : List α} {x : α} :
    x ∈ distinct xs ↔ x ∈ xs := by
  simp [distinct]

/-- Changes the entry of a key, which is appended if it is missing. -/
def updateEntry {β : Type} [BEq α] (xs : List (α × β)) (key : α) (init : β) (f : β → β) :
    List (α × β) :=
  if xs.any (·.1 == key) then xs.map fun x => if x.1 == key then (x.1, f x.2) else x
  else xs ++ [(key, f init)]

end ActorOwnership
