/-! Repeating a step that only adds until it adds nothing. -/

namespace ActorOwnership
set_option autoImplicit false

variable {α : Type}

/-- Repeats `step` until the size stays the same, at most `fuel` times. -/
def saturate (size : α → Nat) (step : α → α) : Nat → α → α
  | 0, a => a
  | fuel + 1, a =>
    let next := step a
    if size next = size a then a else saturate size step fuel next

/-- A property that every step keeps holds at the end. -/
theorem saturate_keeps {size : α → Nat} {step : α → α} {P : α → Prop}
    (keep : ∀ a, P a → P (step a)) (fuel : Nat) {a : α} (h : P a) :
    P (saturate size step fuel a) := by
  induction fuel generalizing a with
  | zero => exact h
  | succ fuel ih =>
    simp only [saturate]
    split
    · exact h
    · exact ih (keep a h)

/-- If steps never shrink, and sizes stay within `bound`, the end is reached within the fuel. -/
theorem saturate_stable {size : α → Nat} {step : α → α} {P : α → Prop} {bound : Nat}
    (keep : ∀ a, P a → P (step a)) (grow : ∀ a, P a → size a ≤ size (step a))
    (small : ∀ a, P a → size a ≤ bound) {fuel : Nat} {a : α} (h : P a)
    (enough : bound < fuel + size a) :
    size (step (saturate size step fuel a)) = size (saturate size step fuel a) := by
  induction fuel generalizing a with
  | zero =>
    have := small a h
    omega
  | succ fuel ih =>
    simp only [saturate]
    split
    · assumption
    · have := grow a h
      exact ih (keep a h) (by omega)

end ActorOwnership
