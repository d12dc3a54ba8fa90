import ActorOwnership.Surface.OperandOfTree

/-! Statements, functions and modules from syntax trees. A part that is missing from a damaged tree is
read as empty, and a statement of no interest as nothing. -/

namespace ActorOwnership.Surface
open Syntax
set_option autoImplicit false

def notComment (t : Tree) : Bool := t.kind ≠ .comment

/-- Elements that an assignment pairs up. -/
def pairElements (t : Tree) : List Tree := t.namedChildren.filter notComment

def isSplat (t : Tree) : Bool := t.kind = .listSplatPattern || t.kind = .listSplat

/-- Both sides list equally many elements and none of them is a splat. -/
def isPairwise (left right : Tree) : Bool :=
  left.kind.isCollection &&
  (right.kind = .expressionList || right.kind = .tupleDisplay || right.kind = .listDisplay) &&
  (pairElements left).length = (pairElements right).length &&
  !(pairElements left ++ pairElements right).any isSplat

def pairsOf (src : Source) (left right : Tree) : List Pair :=
  (pairElements left).zip (pairElements right) |>.map fun (t, v) =>
    ⟨destinationOf src t, operandOfTree src v, mentionsOf src v⟩

/-- An assignment whose right side is not an assignment itself. -/
def simpleAssignment (src : Source) (t left : Tree) : List Stmt :=
  let loc := locationOf src t
  let right := t.child? "right"
  match t.child? "type", left.kind with
  | some type, .identifier =>
    [.declare loc (src.text left) (src.text type) (right.map (operandOfTree src))]
  | _, _ =>
    match right with
    | none => []
    | some right =>
      let right := unwrap right
      if isPairwise left right then [.assignEach loc (pairsOf src left right)]
      else [.assign loc (destinationOf src left) (operandOfTree src right)]

/-- An assignment; of several targets in a row the outer one copies from the inner one. -/
def assignmentStatements (src : Source) (t : Tree) : List Stmt :=
  t.fold fun t kids =>
    match t.kind, t.child? "left", kids.find? fun k => k.1.field == some "right" with
    | .assignment, some left, some (right, inner) =>
      if right.kind = .assignment then
        inner ++ [.assign (locationOf src t) (.pattern (targetsOf src left))
          (.value (expOfTree? src (right.child? "left")))]
      else simpleAssignment src t left
    | .assignment, some left, none => simpleAssignment src t left
    | _, _, _ => []

/-- The operator of an augmented assignment without its equals sign. -/
def augmentedOperator (text : String) : String :=
  if text.toList.getLast? = some '=' then String.ofList text.toList.dropLast else "+"

def augmentedTarget (src : Source) (left : Tree) : Option Target :=
  match left.kind with
  | .identifier => some (.name (src.text left))
  | .attribute | .subscript => some (.path (src.text left) (expOfTree src left))
  | _ => none

def augmentedAssignment (src : Source) (t : Tree) : List Stmt :=
  match t.child? "left", t.child? "right" with
  | some left, some right =>
    [.augment (locationOf src t) (augmentedTarget src left)
      (augmentedOperator (src.textOr "+=" (t.child? "operator")))
      (expOfTree src left) (operandOfTree src right)]
  | _, _ => []

def returnStatement (src : Source) (t : Tree) : Stmt :=
  .return_ (locationOf src t) (t.namedChildren.head?.map (operandOfTree src))

def callStatement (src : Source) (t : Tree) : List Stmt :=
  match operandOfTree src t with
  | .call name receiver args => [.call (locationOf src t) name receiver args]
  | .value _ => []

/-- A child of an expression statement: a call or an assignment, perhaps in parentheses. -/
def expressionPart (src : Source) (t : Tree) : List Stmt :=
  let t := unwrap t
  match t.kind with
  | .call => callStatement src t
  | .assignment => assignmentStatements src t
  | .augmentedAssignment => augmentedAssignment src t
  | _ => []

/-! ### Contexts of a with block -/

/-- The target of an `as`, the last one if the tree has several. -/
def aliasOf (t : Tree) : Option Tree :=
  match (t.namedChildren.tail.filter (·.kind = .asPatternTarget)).getLast? with
  | some target => target.namedChildren.head?
  | none => none

def withItem (src : Source) (t : Tree) : List WithItem :=
  match (t.child? "value").or t.namedChildren.head? with
  | none => []
  | some value =>
    if value.kind = .asPattern then
      match value.namedChildren.head? with
      | none => []
      | some e => [⟨(aliasOf value).map (destinationOf src), operandOfTree src e⟩]
    else [⟨none, operandOfTree src value⟩]

def withItems (src : Source) (t : Tree) : List WithItem :=
  (t.children.filter (·.kind = .withClause)).flatMap fun clause =>
    (clause.namedChildren.filter (·.kind = .withItem)).flatMap (withItem src)

/-! ### Functions -/

def isDefinition (t : Tree) : Bool := t.kind = .functionDefinition || t.kind = .classDefinition

def parameterType (src : Source) (t : Tree) : TypeNote :=
  ((t.child? "type").map fun type => TypeNote.named (src.text type)).getD .unknown

def parameterOf (src : Source) (t : Tree) : List (String × TypeNote) :=
  match t.kind with
  | .identifier => [(src.text t, .unknown)]
  | .typedParameter | .defaultParameter | .typedDefaultParameter =>
    match (t.child? "name").or (t.children.find? (·.kind = .identifier)) with
    | some name => [(src.text name, parameterType src t)]
    | none => []
  | .listSplatPattern | .dictionarySplatPattern =>
    (t.children.filter (·.kind = .identifier)).map fun c => (src.text c, .unknown)
  | _ => []

def parametersOf (src : Source) (t : Tree) : List (String × TypeNote) :=
  ((t.child? "parameters").map fun ps => ps.children.flatMap (parameterOf src)).getD []

/-- Whether `part` stands somewhere in `text`. -/
def occursIn (part text : List Char) : Bool :=
  match text with
  | [] => part.isEmpty
  | _ :: rest => part.isPrefixOf text || occursIn part rest

/-- A decorator that takes away the receiver of a method. -/
def isStaticDecorator (src : Source) (t : Tree) : Bool :=
  t.kind = .decorator &&
    (occursIn "staticmethod".toList (src.text t).toList ||
      occursIn "classmethod".toList (src.text t).toList)

/-! ### Statements -/

/-- What a node means in the places where a statement, a block or a clause can stand. -/
structure Outline where
  statement : List Stmt
  block : List Stmt
  /-- The body of a clause. -/
  body : List Stmt
  clause : Clause
  function : Option Function
  /-- The node as a member of a class. -/
  member : List Function
  members : List Function
  topLevel : List TopLevel

namespace Outline

abbrev Kids := List (Tree × Outline)

def blockOf (kids : Kids) (f : String) : List Stmt :=
  ((Folded.child? kids f).map Outline.block).getD []

/-- The child in the role of the body, or else the first block. -/
def bodyOf (kids : Kids) : List Stmt :=
  ((Folded.child? kids "body").or
    ((kids.find? fun k => k.1.kind = .block).map Prod.snd)).map Outline.block |>.getD []

def conditionOf (src : Source) (t : Tree) : Exp :=
  ((t.child? "condition").map (expOfTree src)).getD (.const (.bool true))

def clauseOf (src : Source) (t : Tree) (kids : Kids) : Clause :=
  .mk (conditionOf src t) (locationOf src t) (blockOf kids "consequence")

def functionOf (src : Source) (t : Tree) (kids : Kids) : Option Function :=
  if t.kind ≠ .functionDefinition then none
  else (t.child? "name").map fun name =>
    .mk (src.text name) (parametersOf src t) (locationOf src t) false (blockOf kids "body")

/-- The definition under its decorators. -/
def definitionOf (t : Tree) (kids : Kids) (own : Option Function) : Option Function :=
  match t.kind with
  | .functionDefinition => own
  | .decoratedDefinition =>
    match kids.find? fun k => isDefinition k.1 with
    | some (d, o) => if d.kind = .functionDefinition then o.function else none
    | none => none
  | _ => none

def memberOf (src : Source) (t : Tree) (definition : Option Function) : List Function :=
  match definition with
  | none => []
  | some f =>
    if t.kind = .decoratedDefinition && t.children.any (isStaticDecorator src) then [f.asStatic]
    else [f]

def lastElse (kids : Kids) : List Stmt :=
  ((kids.filter fun k => k.1.field == some "alternative" && k.1.kind = .elseClause).getLast?.map
    fun k => k.2.body).getD []

def branchOf (kids : Kids) (own : Clause) : Stmt :=
  .branch (own :: (kids.filter fun k => k.1.field == some "alternative" && k.1.kind = .elifClause).map
    fun k => k.2.clause) (lastElse kids)

def firstBody (kids : Kids) (kind : Kind) : List Stmt :=
  ((kids.find? fun k => k.1.kind = kind).map fun k => k.2.body).getD []

def tryOf (kids : Kids) : Stmt :=
  .try_ (blockOf kids "body") (firstBody kids .elseClause)
    ((kids.filter fun k => k.1.kind = .exceptClause || k.1.kind = .exceptGroupClause).map
      fun k => k.2.body)
    (firstBody kids .finallyClause)

def statementOf (src : Source) (t : Tree) (kids : Kids) (definition : Option Function) :
    List Stmt :=
  match t.kind with
  | .functionDefinition | .decoratedDefinition => definition.toList.map .define
  | .expressionStatement => t.children.flatMap (expressionPart src)
  | .assignment => assignmentStatements src t
  | .augmentedAssignment => augmentedAssignment src t
  | .returnStatement => [returnStatement src t]
  | .ifStatement => [branchOf kids (clauseOf src t kids)]
  | .whileStatement =>
    [.while_ (locationOf src t) (conditionOf src t) (blockOf kids "body")]
  | .forStatement =>
    [.for_ (locationOf src t) (((t.child? "left").map (targetsOf src)).getD [])
      (expOfTree? src (t.child? "right")) (blockOf kids "body")]
  | .tryStatement => [tryOf kids]
  | .withStatement => [.with_ (locationOf src t) (withItems src t) (blockOf kids "body")]
  | .raiseStatement => [.raise]
  | .breakStatement => [.break_]
  | .continueStatement => [.continue_]
  | _ => []

/-- The node as a member of a module. -/
def topLevelOf (src : Source) (t : Tree) (kids : Kids) (own : Option Function) : List TopLevel :=
  match t.kind with
  | .functionDefinition => own.toList.map .function
  | .classDefinition =>
    [.class_ (src.textOr "UnknownClass" (t.child? "name"))
      (((Folded.child? kids "body").map Outline.members).getD [])]
  | .decoratedDefinition => ((kids.find? fun k => isDefinition k.1).map fun k => k.2.topLevel).getD []
  | _ => []

def step (src : Source) (t : Tree) (kids : Kids) : Outline :=
  let function := functionOf src t kids
  let definition := definitionOf t kids function
  { statement := statementOf src t kids definition
    block := kids.flatMap fun k => k.2.statement
    body := bodyOf kids
    clause := clauseOf src t kids
    function := function
    member := memberOf src t definition
    members := kids.flatMap fun k => k.2.member
    topLevel := topLevelOf src t kids function }

end Outline

def outlineOf (src : Source) (t : Tree) : Outline := t.fold (Outline.step src)

/-- The functions and classes of a module. -/
def moduleOfTree (src : Source) (root : Tree) : Module :=
  root.children.flatMap fun c => (outlineOf src c).topLevel

end ActorOwnership.Surface
