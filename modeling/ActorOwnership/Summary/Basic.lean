import ActorOwnership.Flow.Basic

/-! Summaries: what a call of a procedure does to the fields of its object, to its arguments and to
its result. -/

namespace ActorOwnership
set_option autoImplicit false

/-- Positions count the arguments that a caller writes, without the receiver. -/
structure Summary where
  procedure : String
  className : Option String := none
  isConstructor : Bool := false
  /-- Fields, with the positions whose values may be stored in them. -/
  stores : List (Symbol × List Nat) := []
  /-- Fields that the result may alias. -/
  returnedFields : List Symbol := []
  /-- Positions that the result may alias. -/
  returnedParams : List Nat := []
  /-- Positions that are handed off, here or by a callee. -/
  givenUpParams : List Nat := []
  /-- Fields, with the statements that read them. -/
  fieldReads : List (Symbol × List StatementId) := []
  /-- Fields, with the statements that replace them. -/
  fieldWrites : List (Symbol × List StatementId) := []
  /-- Fields that every run replaces. -/
  resets : List Symbol := []
  deriving DecidableEq, Repr, Inhabited

/-- Numbers in increasing order. -/
def sortPositions (xs : List Nat) : List Nat := xs.mergeSort fun a b => a ≤ b

/-- Symbols in the order of their texts. -/
def sortSymbols (xs : List Symbol) : List Symbol :=
  xs.mergeSort fun a b => decide (a.render ≤ b.render)

namespace Summary

/-- What is known of a procedure before its summary is made. -/
def blank (p : Procedure) : Summary where
  procedure := p.name
  className := p.className
  isConstructor := p.isConstructor

def isEmpty (s : Summary) : Bool :=
  s.stores.isEmpty && s.returnedFields.isEmpty && s.returnedParams.isEmpty &&
    s.givenUpParams.isEmpty && s.fieldReads.isEmpty && s.fieldWrites.isEmpty && s.resets.isEmpty

def renderStore (x : Symbol × List Nat) : String :=
  x.1.render ++ "<-[" ++ String.intercalate ", " ((sortPositions x.2).map toString) ++ "]"

def render (s : Summary) : String :=
  let effects := String.intercalate ", " (s.stores.map renderStore)
  "MethodSummary(" ++ s.procedure ++ ": " ++
    (if effects = "" then "no side effects" else effects) ++ ")"

/-- The fields that the argument at a position may be stored in. -/
def fieldsWrittenFrom (s : Summary) (position : Int) : List Symbol :=
  sortSymbols ((s.stores.filter fun x => x.2.any fun (p : Nat) => (p : Int) = position).map Prod.fst)

/-! ### Results of calls -/

/-- The symbols of the caller that an argument brings along. -/
def argumentSymbols (s : Scope) (args : List Exp) (position : Nat) : List Symbol :=
  match args[position]? with
  | none => []
  | some arg =>
    match s.resolve arg with
    | some top => [top]
    | none => s.flowing arg

/-- A returned field, seen from the caller: itself if the call is on the same object, otherwise the
object that the call is on. -/
def returnedField (s : Scope) (receiver : Exp) (field : Symbol) : List Symbol :=
  if s.isSelf receiver then [field] else (s.resolve receiver).toList

/-- The symbols of the caller that the result of a call may alias. A constructor returns an object
that holds all that it stores. -/
def resultSymbols (s : Summary) (i : Invocation) (caller : Procedure) : List Symbol :=
  let scope : Scope := { procedure := caller }
  if s.isConstructor then
    distinct ((sortPositions (distinct (s.stores.flatMap Prod.snd))).flatMap
      (argumentSymbols scope i.args))
  else
    distinct ((sortPositions s.returnedParams).flatMap (argumentSymbols scope i.args) ++
      match i.receiver with
      | none => []
      | some receiver => (sortSymbols s.returnedFields).flatMap (returnedField scope receiver))

end Summary

end ActorOwnership
