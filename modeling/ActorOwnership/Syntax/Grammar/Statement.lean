import ActorOwnership.Syntax.Grammar.Operator

/-! The grammar of statements. Statements that carry no data are passed over up to their end. -/

namespace ActorOwnership.Syntax.Grammar
open ActorOwnership.Syntax.Parser
set_option autoImplicit false

/-! ### Simple statements -/

def augmentedOperators : List String :=
  ["+=", "-=", "*=", "/=", "@=", "//=", "%=", "**=", ">>=", "<<=", "&=", "^=", "|="]

/-- What follows the left side of an assignment, if it is one. -/
def assignmentAfter (self : Grammar) (left : Tree) : Parser Tree := do
  if ← seesOneOf augmentedOperators then
    let operator ← take
    let right ← self .rightSide
    close .augmentedAssignment left.start
      [(toPattern left).withField "left", bare "operator" operator, right.withField "right"]
  else if ← accept "=" then
    let right ← self .rightSide
    close .assignment left.start [(toPattern left).withField "left", right.withField "right"]
  else return left

def rightSide (self : Grammar) : Parser Tree :=
  yieldExpression self <|> do assignmentAfter self (← self .expressions)

/-- A target with a type annotation, and perhaps a value. -/
def annotatedAfter (self : Grammar) (left : Tree) : Parser Tree := do
  let _ ← expect ":"
  let type ← typeNote self
  let right ← if ← accept "=" then
      (fun t => [t.withField "right"]) <$> self .rightSide
    else pure []
  close .assignment left.start
    ([(toPattern left).withField "left", type.withField "type"] ++ right)

def expressionStatement (self : Grammar) : Parser Tree := do
  let start ← here
  if ← sees "yield" then
    let t ← yieldExpression self
    close .expressionStatement start [t]
  else
    let left ← self .expressions
    let t ← if ← sees ":" then annotatedAfter self left else assignmentAfter self left
    close .expressionStatement start (if t.kind = .expressionList then t.children else [t])

def endsStatement (t : Token) : Bool :=
  t.kind == .newline || t.kind == .dedent || isText t ";"

def skipStatement : Parser Unit := skipWhile (!endsStatement ·)

/-- Statements that start with a word and are passed over. -/
def wordStatements : List (String × Kind) :=
  [("raise", .raiseStatement), ("break", .breakStatement), ("continue", .continueStatement),
   ("pass", .other "pass_statement"), ("del", .other "delete_statement"),
   ("assert", .other "assert_statement"), ("global", .other "global_statement"),
   ("nonlocal", .other "nonlocal_statement"), ("import", .other "import_statement"),
   ("from", .other "import_from_statement")]

def wordStatement : Parser Tree := do
  let start ← here
  let t ← take
  match wordStatements.find? fun w => isText t w.1 with
  | none => failure
  | some (_, kind) =>
    skipStatement
    close kind start []

/-- An alias of a type: the word `type` with a name behind it. -/
def typeAlias : Parser Tree := do
  let start ← here
  let _ ← expect "type"
  let _ ← identifier
  skipStatement
  close (.other "type_alias_statement") start []

def returnStatement (self : Grammar) : Parser Tree := do
  let start ← here
  let _ ← expect "return"
  let t ← optional (self .expressions)
  close .returnStatement start t.toList

def simpleStatement (self : Grammar) : Parser Tree :=
  returnStatement self <|> wordStatement <|> typeAlias <|> expressionStatement self

/-- Simple statements on one line. -/
def simpleStatements (self : Grammar) : Parser (List Tree) := do
  let first ← simpleStatement self
  let rest ← many (expect ";" *> simpleStatement self)
  let _ ← accept ";"
  let _ ← optional (expectKind .newline)
  return first :: rest

/-! ### Compound statements -/

def block (self : Grammar) : Parser Tree := do
  let _ ← expect ":"
  self .suite

/-- A clause that a word opens and that has only a body. -/
def bodyClause (self : Grammar) (word : String) (kind : Kind) (role : Option String) :
    Parser Tree := do
  let start ← here
  let _ ← expect word
  let body ← block self
  close kind start [match role with | some r => body.withField r | none => body]

def elseClause (self : Grammar) : Parser Tree := bodyClause self "else" .elseClause (some "body")

def alternative (self : Grammar) : Parser (List Tree) := do
  let clause ← optional (elseClause self)
  return clause.toList.map (Tree.withField "alternative")

/-- The condition and block of an `if`, `elif` or `while`. -/
def conditional (self : Grammar) (word : String) (role : String) : Parser (List Tree) := do
  let _ ← expect word
  let condition ← self .expression
  let body ← block self
  return [condition.withField "condition", body.withField role]

def elifClause (self : Grammar) : Parser Tree := do
  let start ← here
  let parts ← conditional self "elif" "consequence"
  close .elifClause start parts

def ifStatement (self : Grammar) : Parser Tree := do
  let start ← here
  let parts ← conditional self "if" "consequence"
  let others ← many (elifClause self)
  let last ← alternative self
  close .ifStatement start (parts ++ others.map (Tree.withField "alternative") ++ last)

def whileStatement (self : Grammar) : Parser Tree := do
  let start ← here
  let parts ← conditional self "while" "body"
  let last ← alternative self
  close .whileStatement start (parts ++ last)

def forStatement (self : Grammar) : Parser Tree := do
  let start ← here
  let _ ← accept "async"
  let _ ← expect "for"
  let left ← targets self
  let _ ← expect "in"
  let right ← self .expressions
  let body ← block self
  let last ← alternative self
  close .forStatement start
    ([left.withField "left", right.withField "right", body.withField "body"] ++ last)

def exceptClause (self : Grammar) : Parser Tree := do
  let start ← here
  let _ ← expect "except"
  let _ ← accept "*"
  let type ← optional (self .expressions)
  let body ← block self
  close .exceptClause start (type.toList ++ [body])

def tryStatement (self : Grammar) : Parser Tree := do
  let start ← here
  let _ ← expect "try"
  let body ← block self
  let handlers ← many (exceptClause self)
  let other ← optional (elseClause self)
  let last ← optional (bodyClause self "finally" .finallyClause none)
  close .tryStatement start
    (body.withField "body" :: handlers ++ other.toList ++ last.toList)

/-! ### Contexts -/

def withItem (self : Grammar) : Parser Tree := do
  let start ← here
  let t ← self .expression
  close .withItem start [t.withField "value"]

/-- Several contexts in parentheses. -/
def groupedContexts (self : Grammar) : Parser (List Tree) := do
  let _ ← expect "("
  let items ← sepBy (withItem self)
  let _ ← accept ","
  let _ ← expect ")"
  if (← sees ":") && 1 < items.length then return items else failure

def withStatement (self : Grammar) : Parser Tree := do
  let start ← here
  let _ ← accept "async"
  let _ ← expect "with"
  let inside ← here
  let items ← groupedContexts self <|> sepBy (withItem self) <* accept ","
  let clause ← close .withClause inside items
  let body ← block self
  close .withStatement start [clause, body.withField "body"]

/-! ### Definitions -/

/-- Passes over a bracketed group that may be missing. -/
def skipGroup (opening : String) : Parser Unit := do
  if ← sees opening then skipBalanced

def functionDefinition (self : Grammar) : Parser Tree := do
  let start ← here
  let _ ← accept "async"
  let _ ← expect "def"
  let name ← identifier
  skipGroup "["
  let inside ← here
  let _ ← expect "("
  let ps ← parameterList self true
  let _ ← expect ")"
  let params ← close .parameters inside ps
  let result ← if ← accept "->" then
      (fun t => [t.withField "return_type"]) <$> typeNote self
    else pure []
  let body ← block self
  close .functionDefinition start
    ([name.withField "name", params.withField "parameters"] ++ result ++ [body.withField "body"])

def classDefinition (self : Grammar) : Parser Tree := do
  let start ← here
  let _ ← expect "class"
  let name ← identifier
  skipGroup "["
  skipGroup "("
  let body ← block self
  close .classDefinition start [name.withField "name", body.withField "body"]

/-- A decorator reaches to the end of its line. -/
def decorator : Parser Tree := do
  let start ← here
  let _ ← expect "@"
  skipStatement
  let _ ← expectKind .newline
  close .decorator start []

def decoratedDefinition (self : Grammar) : Parser Tree := do
  let start ← here
  let first ← decorator
  let rest ← many decorator
  let definition ← functionDefinition self <|> classDefinition self
  close .decoratedDefinition start (first :: rest ++ [definition.withField "definition"])

/-! ### Pattern matching -/

/-- The tokens behind an indented block that has just been opened. -/
def afterBlock : Nat → List Token → List Token
  | _, [] => []
  | depth, t :: ts =>
    match t.kind, depth with
    | .indent, _ => afterBlock (depth + 1) ts
    | .dedent, 0 => t :: ts
    | .dedent, d + 1 => afterBlock d ts
    | _, _ => afterBlock depth ts

/-- Passes over an indented block, or over a line end where the block is missing. -/
def skipBlock : Parser Unit := do
  if ← seesKind .indent then
    let _ ← take
    set { ← get with tokens := afterBlock 0 (← get).tokens }
    let _ ← optional (expectKind .dedent)
  else
    let _ ← expectKind .newline

/-- A `match` is a statement if its line ends in a colon, and is passed over as a whole. -/
def matchStatement (self : Grammar) : Parser Tree := do
  let start ← here
  let _ ← expect "match"
  let _ ← self .expressions
  let _ ← expect ":"
  skipBlock
  close (.other "match_statement") start []

/-! ### Statements and suites -/

/-- A compound statement, by the words that it starts with. -/
def compoundStatement (self : Grammar) : Parser Tree := do
  match ← next? with
  | none => failure
  | some t =>
    if t.kind == .mark && t.text == "@" then decoratedDefinition self
    else if t.kind != .word then failure
    else match t.text with
      | "if" => ifStatement self
      | "while" => whileStatement self
      | "for" => forStatement self
      | "try" => tryStatement self
      | "with" => withStatement self
      | "def" => functionDefinition self
      | "class" => classDefinition self
      | "match" => matchStatement self
      | "async" => functionDefinition self <|> forStatement self <|> withStatement self
      | _ => failure

/-- One compound statement, or the simple statements of a line. -/
def statements (self : Grammar) : Parser (List Tree) :=
  (fun t => [t]) <$> compoundStatement self <|> simpleStatements self

/-- An indented block, a line of simple statements, or nothing. -/
def suite (self : Grammar) : Parser Tree := do
  if ← seesKind .indent then
    let _ ← take
    let start ← here
    let body ← many (statements self)
    let _ ← optional (expectKind .dedent)
    close .block start body.flatten
  else if ← seesKind .newline then
    let t ← take
    close .block t.start []
  else
    let start ← here
    let body ← simpleStatements self
    close .block start body

/-- Each rule, with nesting up to the given depth. -/
def upTo : Nat → Grammar
  | 0, _ => failure
  | depth + 1, rule =>
    match rule with
    | .expression => expression (upTo depth)
    | .filter => unconditional (upTo depth) .filter
    | .expressions => expressions (upTo depth)
    | .negation => negation (upTo depth) .expression
    | .unary => unary (upTo depth)
    | .primary => primary (upTo depth)
    | .rightSide => rightSide (upTo depth)
    | .field => replacementField (upTo depth)
    | .suite => suite (upTo depth)

end ActorOwnership.Syntax.Grammar
