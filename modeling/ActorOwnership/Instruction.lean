import ActorOwnership.Expression
import ActorOwnership.Location

/-! Instructions: what a node of a control-flow graph does, one step at a time. -/

namespace ActorOwnership
set_option autoImplicit false

inductive TypeKind where
  | int
  | bool
  | string
  | list
  | dict
  | class_
  | none
  | unknown
  deriving DecidableEq, Repr, Inhabited

def TypeKind.all : List TypeKind :=
  [.int, .bool, .string, .list, .dict, .class_, .none, .unknown]

def TypeKind.label : TypeKind → String
  | .int => "int"
  | .bool => "bool"
  | .string => "string"
  | .list => "list"
  | .dict => "dict"
  | .class_ => "class"
  | .none => "none"
  | .unknown => "unknown"

/-- The kind with a label in capitals. -/
def TypeKind.ofLabel (s : String) : TypeKind :=
  (TypeKind.all.find? fun k => k.label.toList.map Char.toUpper = s.toList).getD .unknown

/-- A type annotation; only its text is kept. -/
structure TypeNote where
  kind : TypeKind
  name : Option String := none
  deriving DecidableEq, Repr, Inhabited

namespace TypeNote

def unknown : TypeNote := ⟨.unknown, none⟩

def named (name : String) : TypeNote := ⟨.class_, some name⟩

def render (t : TypeNote) : String :=
  match t.name with
  | some name => if name = "" then t.kind.label else name
  | none => t.kind.label

end TypeNote

/-- Which construct a branch assumption comes from. -/
inductive BranchKind where
  | ifTrue
  | ifFalse
  | whileTrue
  | whileFalse
  | forEnter
  | forExit
  deriving DecidableEq, Repr, Inhabited

namespace BranchKind

def label : BranchKind → String
  | .ifTrue => "IF_TRUE"
  | .ifFalse => "IF_FALSE"
  | .whileTrue => "WHILE_TRUE"
  | .whileFalse => "WHILE_FALSE"
  | .forEnter => "FOR_ENTER"
  | .forExit => "FOR_EXIT"

def all : List BranchKind := [.ifTrue, .ifFalse, .whileTrue, .whileFalse, .forEnter, .forExit]

def ofLabel (s : String) : BranchKind := (all.find? (·.label == s)).getD .ifTrue

end BranchKind

/-- One step of a procedure.

`store` writes through an access path; `assume_` records the branch taken; `handOff` is a call that
gives the arguments at the positions `givenUp` to a concurrently scheduled party. -/
inductive Action where
  | declare (name : String) (type : TypeNote) (init : Option Exp)
  | assign (name : String) (value : Exp)
  | store (target value : Exp)
  | assume_ (condition : Exp) (holds : Bool) (kind : BranchKind)
  | return_ (value : Option Exp)
  | call (ret : Option String) (invocation : Invocation)
  | handOff (ret : Option String) (invocation : Invocation) (givenUp : List Int)
      (description : String)
  | unspecified
  deriving Repr, Inhabited

structure Instr where
  loc : Location
  action : Action
  deriving Repr, Inhabited

/-- The entry at a position that may be negative or too large; neither picks anything. -/
def pick? {α : Type} (xs : List α) (i : Int) : Option α :=
  if i < 0 then none else xs[i.toNat]?

theorem pick?_ofNat {α : Type} (xs : List α) (i : Nat) : pick? xs (i : Int) = xs[i]? := by
  have h : ¬ (i : Int) < 0 := by omega
  rw [pick?, if_neg h, Int.toNat_natCast]

namespace Action

/-- The call that an action makes, a hand-off included. -/
def invocation? : Action → Option Invocation
  | .call _ i => some i
  | .handOff _ i _ _ => some i
  | _ => none

/-- The variable that receives the result of a call. -/
def result? : Action → Option String
  | .call ret _ => ret
  | .handOff ret _ _ _ => ret
  | _ => none

/-- The arguments that a hand-off gives away. -/
def givenUpArgs : Action → List Exp
  | .handOff _ i givenUp _ => givenUp.filterMap (pick? i.args)
  | _ => []

def renderCall (ret : Option String) (i : Invocation) : String :=
  match ret with
  | some name => name ++ " = " ++ i.render
  | none => i.render

def render : Action → String
  | .declare name type none => name ++ ": " ++ type.render
  | .declare name type (some init) => name ++ ": " ++ type.render ++ " = " ++ init.render
  | .assign name value => name ++ " = " ++ value.render
  | .store target value => target.render ++ " = " ++ value.render
  | .assume_ condition holds _ =>
    "prune(" ++ condition.render ++ ", " ++ (if holds then "true" else "false") ++ ")"
  | .return_ none => "return"
  | .return_ (some value) => "return " ++ value.render
  | .call ret i => renderCall ret i
  | .handOff ret i givenUp _ =>
    "gives_up[" ++ String.intercalate ", " (givenUp.map toString) ++ "] " ++ renderCall ret i
  | .unspecified => "<instr>"

end Action

def Instr.render (i : Instr) : String := i.action.render

end ActorOwnership
