import ActorOwnership.Proofs.Justified

/-! The calls of a statement: the one that it makes itself, and those nested in its expressions. -/

namespace ActorOwnership
set_option autoImplicit false

mutual

/-- The calls in an expression, at any depth. -/
def Exp.calls : Exp → List Invocation
  | .call func args receiver =>
    ⟨func, args, receiver⟩ :: (func.calls ++ Exp.callsAll args ++ Exp.callsOpt receiver)
  | .binary _ left right => left.calls ++ right.calls
  | .unary _ operand => operand.calls
  | .field base _ => base.calls
  | .index base key => base.calls ++ key.calls
  | .aggregate elements => Exp.callsAll elements
  | .ternary condition yes no => condition.calls ++ yes.calls ++ no.calls
  | .var _ | .const _ | .unspecified => []

def Exp.callsAll : List Exp → List Invocation
  | [] => []
  | e :: es => e.calls ++ Exp.callsAll es

def Exp.callsOpt : Option Exp → List Invocation
  | none => []
  | some e => e.calls

end

def Action.calls : Action → List Invocation
  | .declare _ _ init => Exp.callsOpt init
  | .assign _ value => value.calls
  | .store target value => target.calls ++ value.calls
  | .assume_ condition _ _ => condition.calls
  | .return_ value => Exp.callsOpt value
  | .call _ v | .handOff _ v _ _ => (Exp.call v.func v.args v.receiver).calls
  | .unspecified => []

theorem Exp.calls_subset_callsAll {e : Exp} {es : List Exp} (h : e ∈ es) :
    e.calls ⊆ Exp.callsAll es := by
  induction es with
  | nil => cases h
  | cons e' es ih =>
    rw [callsAll]
    rcases List.mem_cons.mp h with rfl | h
    · exact List.subset_append_left _ _
    · exact List.Subset.trans (ih h) (List.subset_append_right _ _)

theorem Exp.Holds.calls_subset {part e : Exp} (h : Exp.Holds part e) : part.calls ⊆ e.calls := by
  induction h with
  | here => exact List.Subset.refl _
  | element he _ ih =>
    rw [Exp.calls]
    exact List.Subset.trans ih (Exp.calls_subset_callsAll he)
  | yes _ ih | no _ ih =>
    intro v hv
    rw [Exp.calls]
    simp [ih hv]

theorem Exp.mem_calls_self (v : Invocation) : v ∈ (Exp.call v.func v.args v.receiver).calls := by
  rw [Exp.calls]
  exact List.mem_cons_self

namespace Action

theorem mem_calls_of_invocation? {a : Action} {v : Invocation} (h : a.invocation? = some v) :
    v ∈ a.calls := by
  cases a with
  | call ret v' | handOff ret v' givenUp description =>
    cases h
    exact Exp.mem_calls_self v
  | _ => cases h

theorem calls_written?_subset {a : Action} {e : Exp} (h : a.written? = some e) :
    e.calls ⊆ a.calls := by
  cases a with
  | declare name type init =>
    obtain rfl : init = some e := h
    exact List.Subset.refl _
  | assign name value =>
    cases h
    exact List.Subset.refl _
  | store target value =>
    cases h
    exact List.subset_append_right _ _
  | _ => cases h

theorem Makes.mem_calls {a : Action} {v : Invocation} (h : a.Makes v) : v ∈ a.calls := by
  cases h with
  | call h =>
    subst h
    exact Exp.mem_calls_self v
  | value he hpart => exact calls_written?_subset he (hpart.calls_subset (Exp.mem_calls_self v))

end Action

end ActorOwnership
