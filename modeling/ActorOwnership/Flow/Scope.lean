import ActorOwnership.Library
import ActorOwnership.Procedure.Basic
import ActorOwnership.Symbol

/-! Which symbols an expression of a procedure names, reads, and takes its value from. -/

namespace ActorOwnership
set_option autoImplicit false

/-- A procedure and the library that its calls are looked up in. -/
structure Scope where
  procedure : Procedure
  library : Library := []
  deriving Inhabited

namespace Scope

/-! ### Names -/

/-- The symbol of a bare name. -/
def symbolOf (s : Scope) (name : String) : Symbol :=
  ⟨name, if s.procedure.paramNames.contains name then .parameter else .local_, s.procedure.name⟩

/-- The symbol of a field of the enclosing class. -/
def fieldOf (s : Scope) (name : String) : Symbol :=
  ⟨name, .field, s.procedure.className.getD ""⟩

theorem symbolOf_injective {s : Scope} {a b : String} (h : s.symbolOf a = s.symbolOf b) : a = b :=
  congrArg Symbol.name h

theorem symbolOf_ne_fieldOf {s : Scope} (name field : String) :
    s.symbolOf name ≠ s.fieldOf field := by
  intro h
  have hkind := congrArg Symbol.kind h
  simp only [symbolOf, fieldOf] at hkind
  split at hkind <;> cases hkind

def isSelfName (s : Scope) (name : String) : Bool := s.procedure.selfName == some name

def isSelf (s : Scope) : Exp → Bool
  | .var name => s.isSelfName name
  | _ => false

/-- Whether an expression is a field of the receiver itself. -/
def isSelfField (s : Scope) : Exp → Bool
  | .field base _ => s.isSelf base
  | _ => false

/-- The symbol that an access path starts from: a field of the receiver, or else a variable. A path
that starts from the value of a call or an operator has none. -/
def resolve (s : Scope) : Exp → Option Symbol
  | .var name => some (s.symbolOf name)
  | .field (.var root) name =>
    some (if s.isSelfName root then s.fieldOf name else s.symbolOf root)
  | .field base _ => s.resolve base
  | .index base _ => s.resolve base
  | _ => none

/-! ### Sources of a value -/

/-- What the result of a call may hold, given what its arguments and its receiver may hold. -/
def resultSources (spec : Option LibrarySpec) (args : List (List Symbol)) (receiver : List Symbol) :
    List Symbol :=
  match spec.bind fun l => l.returnAliases.map fun positions => (l, positions) with
  | some (l, positions) =>
    distinct ((positions.filterMap (pick? args)).flatten ++
      if l.returnFromReceiver then receiver else [])
  | none => distinct (args.flatten ++ receiver)

mutual

/-- The symbols whose values may become part of the value of an expression. -/
def flowing (s : Scope) : Exp → List Symbol
  | .var name => [s.symbolOf name]
  | .field base name =>
    match s.resolve (.field base name) with
    | some top => [top]
    | none => s.flowing base
  | .index base key =>
    match s.resolve (.index base key) with
    | some top => [top]
    | none => s.flowing base
  | .call func args receiver =>
    resultSources (s.library.callSpec ⟨func, args, receiver⟩) (s.flowingAll args)
      (s.flowingOpt receiver)
  | .binary _ left right => distinct (s.flowing left ++ s.flowing right)
  | .unary _ operand => s.flowing operand
  | .aggregate elements => distinct (s.flowingAll elements).flatten
  | .ternary condition yes no =>
    distinct (s.flowing condition ++ s.flowing yes ++ s.flowing no)
  | .const _ | .unspecified => []

def flowingAll (s : Scope) : List Exp → List (List Symbol)
  | [] => []
  | e :: es => s.flowing e :: s.flowingAll es

def flowingOpt (s : Scope) : Option Exp → List Symbol
  | none => []
  | some e => s.flowing e

end

theorem flowingAll_eq_map (s : Scope) (es : List Exp) : s.flowingAll es = es.map s.flowing := by
  induction es with
  | nil => simp [flowingAll]
  | cons e es ih => simp [flowingAll, ih]

/-- The symbols whose values the result of a call may hold. -/
def callSources (s : Scope) (i : Invocation) : List Symbol :=
  resultSources (s.library.callSpec i) (s.flowingAll i.args) (s.flowingOpt i.receiver)

/-! ### Reads -/

mutual

/-- The symbols that evaluating an expression reads, perhaps several times. With `below` the
expression is the base of an access path whose own symbol has been counted. -/
def readsIn (s : Scope) (below : Bool) : Exp → List Symbol
  | .var name => if below then [] else [s.symbolOf name]
  | .field base name =>
    (if below then [] else (s.resolve (.field base name)).toList) ++ s.readsIn true base
  | .index base key =>
    (if below then [] else (s.resolve (.index base key)).toList) ++ s.readsIn false key ++
      s.readsIn true base
  | .call _ args receiver => s.readsInAll args ++ s.readsInOpt receiver
  | .binary _ left right => s.readsIn false left ++ s.readsIn false right
  | .unary _ operand => s.readsIn false operand
  | .aggregate elements => s.readsInAll elements
  | .ternary condition yes no =>
    s.readsIn false condition ++ s.readsIn false yes ++ s.readsIn false no
  | .const _ | .unspecified => []

def readsInAll (s : Scope) : List Exp → List Symbol
  | [] => []
  | e :: es => s.readsIn false e ++ s.readsInAll es

def readsInOpt (s : Scope) : Option Exp → List Symbol
  | none => []
  | some e => s.readsIn false e

end

/-- The symbols that an expression reads. -/
def readsOfExp (s : Scope) (e : Exp) : List Symbol := distinct (s.readsIn false e)

/-- What a store reads to find the place it writes. Writing a field does not read the field. -/
def addressReads (s : Scope) : Exp → List Symbol
  | .field base _ => s.readsIn false base
  | .index base key => s.readsIn false base ++ s.readsIn false key
  | _ => []

/-- The symbols whose current value an action reads. -/
def readsOf (s : Scope) (a : Action) : List Symbol :=
  distinct <| match a with
  | .declare _ _ init => s.readsInOpt init
  | .assign _ value => s.readsIn false value
  | .store target value => s.readsIn false value ++ s.addressReads target
  | .assume_ condition _ _ => s.readsIn false condition
  | .return_ value => s.readsInOpt value
  | .call _ i | .handOff _ i _ _ => s.readsInAll i.args ++ s.readsInOpt i.receiver
  | .unspecified => []

end Scope

end ActorOwnership
