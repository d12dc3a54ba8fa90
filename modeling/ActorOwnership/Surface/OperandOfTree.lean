import ActorOwnership.Surface.Basic
import ActorOwnership.Syntax.Tree

/-! Operands and expressions from syntax trees. Parentheses and `await` do not count; where a node has
no reading of its own, every name, access path and call below it is kept. -/

namespace ActorOwnership.Surface
open Syntax
set_option autoImplicit false

def locationOf (src : Source) (t : Tree) : Location :=
  ⟨src.file, t.start.row + 1, t.start.column, some (t.stop.row + 1), some t.stop.column⟩

/-- A number that cannot be read counts as zero. -/
def integerOf (text : String) : Int :=
  match Text.readInteger .marked text with
  | .ok n => n
  | .error _ => 0

def realOf (text : String) : Binary64 := (Binary64.read? text).getD .zero

/-- What a node means in the places where it can stand. -/
structure Reading where
  exp : Exp
  operand : Operand
  /-- The outermost references at or below the node. -/
  references : List Exp
  /-- The node as one argument of a call. -/
  argument : List Argument
  /-- The node as the argument list of a call. -/
  arguments : List Argument
  /-- The node as an element of a display. -/
  elements : List Exp

namespace Reading

abbrev Kids := List (Tree × Reading)

def expOf (kids : Kids) (f : String) : Exp :=
  ((Folded.child? kids f).map Reading.exp).getD .null

/-- The first child in the role `f` as text. -/
def textOf (src : Source) (t : Tree) (f : String) : String := src.textOr "" (t.child? f)

/-- The name and receiver of a call: what is called by an attribute is called on its object. -/
def calleeOf (src : Source) (kids : Kids) : String × Option Exp :=
  match kids.find? fun k => k.1.field == some "function" with
  | none => ("", none)
  | some (f, r) =>
    match f.kind, r.exp with
    | .attribute, .field base name => (name, some base)
    | _, _ => (src.text f, none)

/-- A call with its parts. -/
def callOf (src : Source) (kids : Kids) : Operand :=
  let callee := calleeOf src kids
  .call callee.1 callee.2 (((Folded.child? kids "arguments").map Reading.arguments).getD [])

def referencesBelow (kids : Kids) : List Exp := (Folded.named kids).flatMap Reading.references

/-- The expression of a node that is neither a wrapper nor a call. -/
def plainExp (src : Source) (t : Tree) (kids : Kids) : Exp :=
  match t.kind with
  | .identifier => .var (src.text t)
  | .integer => .const (.int (integerOf (src.text t)))
  | .float => .const (.real (realOf (src.text t)))
  | .string | .concatenatedString => .const (.text (src.text t))
  | .trueLiteral => .const (.bool true)
  | .falseLiteral => .const (.bool false)
  | .noneLiteral | .lambda_ => .null
  | .binaryOperator | .booleanOperator =>
    .binary (src.textOr "+" (t.child? "operator")) (expOf kids "left") (expOf kids "right")
  | .comparisonOperator =>
    match Folded.named kids with
    | a :: b :: _ => .binary "cmp" a.exp b.exp
    | _ => .const (.bool true)
  | .unaryOperator => .unary (src.textOr "-" (t.child? "operator")) (expOf kids "argument")
  | .notOperator => .unary (src.textOr "not" (t.child? "operator")) (expOf kids "argument")
  | .attribute => .field (expOf kids "object") (textOf src t "attribute")
  | .subscript => .index (expOf kids "value") (expOf kids "subscript")
  | .conditionalExpression =>
    match Folded.named kids with
    | [yes, condition, no] => .ternary condition.exp yes.exp no.exp
    | _ => .aggregate (referencesBelow kids)
  | .listSplat | .dictionarySplat | .keywordArgument =>
    match Folded.child? kids "value" with
    | some r => r.exp
    | none => ((Folded.named kids).getLast?.map Reading.exp).getD .null
  | k =>
    if k.isCollection then .aggregate ((Folded.named kids).flatMap Reading.elements)
    else .aggregate (referencesBelow kids)

def operandOf (src : Source) (t : Tree) (kids : Kids) : Operand :=
  match t.kind.isWrapper, Folded.named kids with
  | true, inner :: _ => inner.operand
  | _, _ => if t.kind = .call then callOf src kids else .value (plainExp src t kids)

def argumentOf (src : Source) (t : Tree) (kids : Kids) (own : Operand) : List Argument :=
  match t.kind with
  | .punctuation _ | .comment => []
  | .keywordArgument =>
    match Folded.child? kids "value" with
    | some r => [.mk (some (textOf src t "name")) r.operand]
    | none => []
  | .listSplat => (Folded.named kids).head?.toList.map fun r => .mk none r.operand
  | .dictionarySplat => (Folded.named kids).head?.toList.map fun r => .mk (some "**") r.operand
  | _ => [.mk none own]

/-- A node read from its children's readings. -/
def step (src : Source) (t : Tree) (kids : Kids) : Reading :=
  let operand := operandOf src t kids
  let exp := operand.toExp
  { exp := exp
    operand := operand
    references :=
      if t.kind.isPath || t.kind = .call then [exp]
      else if t.kind.isInert then []
      else referencesBelow kids
    argument := argumentOf src t kids operand
    arguments :=
      if t.kind = .generatorExpression then [.mk none operand]
      else kids.flatMap fun k => k.2.argument
    elements := if t.kind = .pair then [expOf kids "key", expOf kids "value"] else [exp] }

end Reading

def readingOf (src : Source) (t : Tree) : Reading := t.fold (Reading.step src)

def operandOfTree (src : Source) (t : Tree) : Operand := (readingOf src t).operand

def expOfTree (src : Source) (t : Tree) : Exp := (readingOf src t).exp

/-- The expression of a child that may be missing. -/
def expOfTree? (src : Source) (t : Option Tree) : Exp := (t.map (expOfTree src)).getD .null

/-- The texts of all names and access paths at or below a node. -/
def mentionsOf (src : Source) (t : Tree) : List String :=
  t.fold fun t kids =>
    (if t.kind.isPath then [src.text t] else []) ++ (Folded.named kids).flatten

/-- The places that a pattern writes, from left to right. -/
def targetsOf (src : Source) (t : Tree) : List Target :=
  t.fold fun t kids =>
    match t.kind with
    | .identifier => [.name (src.text t)]
    | .attribute | .subscript => [.path (src.text t) (expOfTree src t)]
    | .listSplatPattern | .parenthesizedExpression => (Folded.named kids).flatten
    | k => if k.isCollection then (Folded.named kids).flatten else []

def destinationOf (src : Source) (t : Tree) : Destination :=
  if t.kind = .identifier then .name (src.text t) else .pattern (targetsOf src t)

/-- The node under parentheses and `await`. -/
def unwrap (t : Tree) : Tree :=
  t.fold fun t kids =>
    match t.kind.isWrapper, Folded.named kids with
    | true, inner :: _ => inner
    | _, _ => t

end ActorOwnership.Surface
