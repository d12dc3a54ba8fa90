import ActorOwnership.Number.Decimal
import ActorOwnership.Text.Quoted

/-! Expressions of the analysed programs: constants, access paths, calls and the operators, of which
only the operands matter. -/

namespace ActorOwnership
set_option autoImplicit false

inductive Const where
  | none
  | bool (b : Bool)
  | int (n : Int)
  | real (x : Binary64)
  | text (s : String)
  deriving DecidableEq, Repr, Inhabited

namespace Const

def renderPlain : Const → String
  | .none => "None"
  | .bool true => "True"
  | .bool false => "False"
  | .int n => toString n
  | .real x => x.render Binary64.plain
  | .text s => s

/-- Backslashes and double quotes get a backslash in front. -/
def escapeText (cs : List Char) : List Char :=
  cs.flatMap fun c => if c == '\\' || c == '"' then ['\\', c] else [c]

/-- A long text is cut to fifty characters, the last three being dots. -/
def abbreviate (cs : List Char) : List Char :=
  if 50 < cs.length then cs.take 47 ++ ['.', '.', '.'] else cs

def render : Const → String
  | .text s => "\"" ++ String.ofList (abbreviate (escapeText s.toList)) ++ "\""
  | c => c.renderPlain

def describe : Const → String
  | .text s => Text.quoted s
  | c => c.renderPlain

end Const

/-- An expression. An `aggregate` keeps every value that a collection may hold; `unspecified` stands
for an expression of which nothing is known. -/
inductive Exp where
  | var (name : String)
  | const (value : Const)
  | binary (op : String) (left right : Exp)
  | unary (op : String) (operand : Exp)
  | field (base : Exp) (name : String)
  | index (base key : Exp)
  | call (func : Exp) (args : List Exp) (receiver : Option Exp)
  | aggregate (elements : List Exp)
  | ternary (condition yes no : Exp)
  | unspecified
  deriving Repr, Inhabited

namespace Exp

def null : Exp := .const .none

mutual

def render : Exp → String
  | .var name => name
  | .const value => value.render
  | .binary op left right => "(" ++ left.render ++ " " ++ op ++ " " ++ right.render ++ ")"
  | .unary op operand => op ++ "(" ++ operand.render ++ ")"
  | .field base name => base.render ++ "." ++ name
  | .index base key => base.render ++ "[" ++ key.render ++ "]"
  | .call func args receiver =>
    renderReceiver receiver ++ func.render ++ "(" ++ String.intercalate ", " (renderAll args) ++ ")"
  | .aggregate elements => "[" ++ String.intercalate ", " (renderAll elements) ++ "]"
  | .ternary condition yes no =>
    "(" ++ yes.render ++ " if " ++ condition.render ++ " else " ++ no.render ++ ")"
  | .unspecified => "<exp>"

def renderAll : List Exp → List String
  | [] => []
  | e :: es => e.render :: renderAll es

/-- The object a method is called on, with the dot behind it. -/
def renderReceiver : Option Exp → String
  | none => ""
  | some e => e.render ++ "."

end

/-- A variable as a constructor term. -/
def describeVar (name : String) : String := "PVar(" ++ Text.quoted name ++ ")"

mutual

/-- The expression as a constructor term; the receiver of a call is left out. -/
def describe : Exp → String
  | .var name => "ExpVar(" ++ describeVar name ++ ")"
  | .const value => "ExpConst(" ++ value.describe ++ ")"
  | .binary op left right =>
    "ExpBinOp(" ++ Text.quoted op ++ ", " ++ left.describe ++ ", " ++ right.describe ++ ")"
  | .unary op operand => "ExpUnOp(" ++ Text.quoted op ++ ", " ++ operand.describe ++ ")"
  | .field base name => "ExpFieldAccess(" ++ base.describe ++ ", " ++ Text.quoted name ++ ")"
  | .index base key => "ExpIndex(" ++ base.describe ++ ", " ++ key.describe ++ ")"
  | .call func args _ =>
    "ExpCall(" ++ func.describe ++ ", [" ++ String.intercalate ", " (describeAll args) ++ "])"
  | .aggregate elements =>
    "ExpAggregate([" ++ String.intercalate ", " (describeAll elements) ++ "])"
  | .ternary condition yes no =>
    "ExpTernary(" ++ condition.describe ++ ", " ++ yes.describe ++ ", " ++ no.describe ++ ")"
  | .unspecified => "Exp()"

def describeAll : List Exp → List String
  | [] => []
  | e :: es => e.describe :: describeAll es

end

theorem renderAll_eq_map (es : List Exp) : renderAll es = es.map render := by
  induction es with
  | nil => simp [renderAll]
  | cons e es ih => simp [renderAll, ih]

/-- The name by which a called expression is looked up. -/
def calleeName : Exp → String
  | .var name => name
  | .const (.text s) => s
  | e => e.render

end Exp

/-- A call, whether it is an instruction or part of an expression. -/
structure Invocation where
  func : Exp
  args : List Exp
  receiver : Option Exp
  deriving Repr, Inhabited

namespace Invocation

/-- The name of the called function without its receiver. -/
def name (i : Invocation) : String := i.func.calleeName

/-- The name with the receiver in front. -/
def fullName (i : Invocation) : String := Exp.renderReceiver i.receiver ++ i.name

def render (i : Invocation) : String :=
  i.fullName ++ "(" ++ String.intercalate ", " (i.args.map Exp.render) ++ ")"

end Invocation

end ActorOwnership
