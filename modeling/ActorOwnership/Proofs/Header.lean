import ActorOwnership.Flow.Effect

/-! What the names, the values and the effects of a procedure are does not depend on its graph. -/

namespace ActorOwnership
set_option autoImplicit false

/-- The same procedure, perhaps with another graph. -/
def Procedure.SameHeader (p p' : Procedure) : Prop := { p with nodes := [] } = { p' with nodes := [] }

namespace Scope
variable {p p' : Procedure} {library : Library}

theorem symbolOf_congr (h : p.SameHeader p') (name : String) :
    (⟨p, library⟩ : Scope).symbolOf name = (⟨p', library⟩ : Scope).symbolOf name := by
  have hsymbol := congrArg (fun q => (⟨q, library⟩ : Scope).symbolOf name) h
  exact hsymbol

theorem fieldOf_congr (h : p.SameHeader p') (name : String) :
    (⟨p, library⟩ : Scope).fieldOf name = (⟨p', library⟩ : Scope).fieldOf name := by
  have hfield := congrArg (fun q => (⟨q, library⟩ : Scope).fieldOf name) h
  exact hfield

theorem isSelfName_congr (h : p.SameHeader p') (name : String) :
    (⟨p, library⟩ : Scope).isSelfName name = (⟨p', library⟩ : Scope).isSelfName name := by
  have hself := congrArg (fun q => (⟨q, library⟩ : Scope).isSelfName name) h
  exact hself

theorem isSelfField_congr (h : p.SameHeader p') (e : Exp) :
    (⟨p, library⟩ : Scope).isSelfField e = (⟨p', library⟩ : Scope).isSelfField e := by
  cases e with
  | field base name =>
    cases base with
    | var root => exact isSelfName_congr h root
    | _ => rfl
  | _ => rfl

theorem resolve_congr (h : p.SameHeader p') (e : Exp) :
    (⟨p, library⟩ : Scope).resolve e = (⟨p', library⟩ : Scope).resolve e := by
  cases e with
  | var name => rw [resolve, resolve, symbolOf_congr h]
  | field base name =>
    have ih := resolve_congr h base
    cases base with
    | var root =>
      rw [resolve, resolve, isSelfName_congr h, fieldOf_congr h, symbolOf_congr h]
    | _ => exact ih
  | index base key => exact resolve_congr h base
  | _ => rfl

/-! ### Values -/

mutual

theorem flowing_congr (h : p.SameHeader p') (e : Exp) :
    (⟨p, library⟩ : Scope).flowing e = (⟨p', library⟩ : Scope).flowing e := by
  cases e with
  | var name => rw [flowing, flowing, symbolOf_congr h]
  | field base name | index base key =>
    rw [flowing, flowing, resolve_congr h, flowing_congr h base]
  | call func args receiver =>
    rw [flowing, flowing, flowingAll_congr h args, flowingOpt_congr h receiver]
  | binary op left right => rw [flowing, flowing, flowing_congr h left, flowing_congr h right]
  | unary op operand => rw [flowing, flowing, flowing_congr h operand]
  | aggregate elements => rw [flowing, flowing, flowingAll_congr h elements]
  | ternary condition yes no =>
    rw [flowing, flowing, flowing_congr h condition, flowing_congr h yes, flowing_congr h no]
  | const | unspecified => rw [flowing, flowing]

theorem flowingAll_congr (h : p.SameHeader p') (es : List Exp) :
    (⟨p, library⟩ : Scope).flowingAll es = (⟨p', library⟩ : Scope).flowingAll es := by
  cases es with
  | nil => rw [flowingAll, flowingAll]
  | cons e es => rw [flowingAll, flowingAll, flowing_congr h e, flowingAll_congr h es]

theorem flowingOpt_congr (h : p.SameHeader p') (e : Option Exp) :
    (⟨p, library⟩ : Scope).flowingOpt e = (⟨p', library⟩ : Scope).flowingOpt e := by
  cases e with
  | none => rw [flowingOpt, flowingOpt]
  | some e => rw [flowingOpt, flowingOpt, flowing_congr h e]

end

theorem effectsOf_congr (h : p.SameHeader p') (a : Action) :
    (⟨p, library⟩ : Scope).effectsOf a = (⟨p', library⟩ : Scope).effectsOf a := by
  have hcall : ∀ ret v, (⟨p, library⟩ : Scope).resultEffect ret v ++
      (⟨p, library⟩ : Scope).receiverEffect v =
        (⟨p', library⟩ : Scope).resultEffect ret v ++ (⟨p', library⟩ : Scope).receiverEffect v := by
    intro ret v
    unfold resultEffect receiverEffect callSources
    simp only [symbolOf_congr h, resolve_congr h, flowingAll_congr h, flowingOpt_congr h]
  cases a with
  | declare name type init =>
    cases init with
    | none => rfl
    | some init => simp only [effectsOf, symbolOf_congr h, flowing_congr h]
  | assign name value => simp only [effectsOf, symbolOf_congr h, flowing_congr h]
  | store target value =>
    simp only [effectsOf, resolve_congr h, isSelfField_congr h, flowing_congr h]
  | call ret v => exact hcall ret v
  | handOff ret v givenUp description => exact hcall ret v
  | _ => rfl

/-! ### Reads -/

mutual

theorem readsIn_congr (h : p.SameHeader p') (below : Bool) (e : Exp) :
    (⟨p, library⟩ : Scope).readsIn below e = (⟨p', library⟩ : Scope).readsIn below e := by
  cases e with
  | var name => rw [readsIn, readsIn, symbolOf_congr h]
  | field base name => rw [readsIn, readsIn, resolve_congr h, readsIn_congr h true base]
  | index base key =>
    rw [readsIn, readsIn, resolve_congr h, readsIn_congr h false key, readsIn_congr h true base]
  | call func args receiver =>
    rw [readsIn, readsIn, readsInAll_congr h args, readsInOpt_congr h receiver]
  | binary op left right =>
    rw [readsIn, readsIn, readsIn_congr h false left, readsIn_congr h false right]
  | unary op operand => rw [readsIn, readsIn, readsIn_congr h false operand]
  | aggregate elements => rw [readsIn, readsIn, readsInAll_congr h elements]
  | ternary condition yes no =>
    rw [readsIn, readsIn, readsIn_congr h false condition, readsIn_congr h false yes,
      readsIn_congr h false no]
  | const | unspecified => rw [readsIn, readsIn]

theorem readsInAll_congr (h : p.SameHeader p') (es : List Exp) :
    (⟨p, library⟩ : Scope).readsInAll es = (⟨p', library⟩ : Scope).readsInAll es := by
  cases es with
  | nil => rw [readsInAll, readsInAll]
  | cons e es => rw [readsInAll, readsInAll, readsIn_congr h false e, readsInAll_congr h es]

theorem readsInOpt_congr (h : p.SameHeader p') (e : Option Exp) :
    (⟨p, library⟩ : Scope).readsInOpt e = (⟨p', library⟩ : Scope).readsInOpt e := by
  cases e with
  | none => rw [readsInOpt, readsInOpt]
  | some e => rw [readsInOpt, readsInOpt, readsIn_congr h false e]

end

theorem readsOf_congr (h : p.SameHeader p') (a : Action) :
    (⟨p, library⟩ : Scope).readsOf a = (⟨p', library⟩ : Scope).readsOf a := by
  have haddress : ∀ e, (⟨p, library⟩ : Scope).addressReads e =
      (⟨p', library⟩ : Scope).addressReads e := by
    intro e
    cases e with
    | field base name => exact readsIn_congr h false base
    | index base key =>
      simp only [addressReads, readsIn_congr h]
    | _ => rfl
  unfold readsOf
  cases a <;>
    simp only [readsIn_congr h, readsInAll_congr h, readsInOpt_congr h, haddress]

end Scope

theorem Fact.ofStatement_congr {p p' : Procedure} (h : p.SameHeader p') (library : Library)
    (st : StatementId × Instr) :
    Fact.ofStatement ⟨p, library⟩ st = Fact.ofStatement ⟨p', library⟩ st := by
  simp only [ofStatement, Scope.effectsOf_congr h, Scope.readsOf_congr h]

end ActorOwnership
