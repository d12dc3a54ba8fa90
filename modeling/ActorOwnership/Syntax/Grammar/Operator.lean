import ActorOwnership.Syntax.Grammar.Expression

/-! Operators and their precedence. From loose to tight: alternatives, conjunction, negation,
comparison, the binary operators of `binaryLevels`, signs, powers, and what is applied from the
right. -/

namespace ActorOwnership.Syntax.Grammar
open ActorOwnership.Syntax.Parser
set_option autoImplicit false

/-! ### Operands -/

/-- A name, literal or display with its attributes, calls and indices. -/
def primary (self : Grammar) : Parser Tree := do
  let start ← here
  let t ← atom self
  trailers self start ((← get).tokens.length) t

/-- Whether a token can start the operand of an `await`. -/
def startsOperand (t : Token) : Bool :=
  match t.kind with
  | .word => !keywords.contains t.text
  | .mark => ["(", "[", "\x7b", "+", "-", "~", "..."].contains t.text
  | .integer | .float | .string | .stringOpen => true
  | _ => false

/-- Takes an `await` that has an operand. -/
def awaitWord : Parser Token := do
  if ((← get).tokens.tail.head?).any startsOperand then expect "await" else failure

def await (self : Grammar) : Parser Tree := do
  let start ← here
  let _ ← awaitWord
  let t ← self .unary
  close .await_ start [t]

/-- An operand, perhaps raised to a power. -/
def power (self : Grammar) : Parser Tree := do
  let base ← primary self
  if ← sees "**" then
    let operator ← take
    let exponent ← self .unary
    close .binaryOperator base.start
      [base.withField "left", bare "operator" operator, exponent.withField "right"]
  else return base

def unary (self : Grammar) : Parser Tree := do
  let start ← here
  if ← seesOneOf ["+", "-", "~"] then
    let operator ← take
    let t ← self .unary
    close .unaryOperator start [bare "operator" operator, t.withField "argument"]
  else await self <|> power self

/-! ### Binary operators -/

/-- Joins operands from the left as long as one of the operators follows. -/
def joinLeft (kind : Kind) (operators : List String) (operand : Parser Tree) :
    Nat → Tree → Parser Tree
  | 0, left => pure left
  | fuel + 1, left => do
    if ← seesOneOf operators then
      let operator ← take
      let right ← operand
      joinLeft kind operators operand fuel
        (← close kind left.start
          [left.withField "left", bare "operator" operator, right.withField "right"])
    else return left

def leftAssociative (kind : Kind) (operators : List String) (operand : Parser Tree) :
    Parser Tree := do
  let first ← operand
  joinLeft kind operators operand ((← get).tokens.length) first

/-- Operators between comparison and sign, the loosest first. -/
def binaryLevels : List (List String) :=
  [["|"], ["&"], ["^"], ["<<", ">>"], ["+", "-"], ["*", "/", "@", "//", "%"]]

def binary (operand : Parser Tree) : List (List String) → Parser Tree
  | [] => operand
  | operators :: tighter => leftAssociative .binaryOperator operators (binary operand tighter)

def comparisonOperator : Parser Unit := do
  if ← accept "not" then
    let _ ← expect "in"
  else if ← accept "is" then
    let _ ← accept "not"
  else if ← seesOneOf ["<", "<=", "==", "!=", ">=", ">", "<>", "in"] then
    let _ ← take
  else failure

/-- Operands with comparisons between them form one node. -/
def comparison (self : Grammar) : Parser Tree := do
  let operand := binary (unary self) binaryLevels
  let first ← operand
  match ← many (comparisonOperator *> operand) with
  | [] => return first
  | rest => close .comparisonOperator first.start (first :: rest)

/-! ### Logic -/

def lambda (self : Grammar) (body : Rule) : Parser Tree := do
  let start ← here
  let _ ← expect "lambda"
  let inside ← here
  let ps ← parameterList self false
  let params ← if ps.isEmpty then pure [] else
    (fun t => [t.withField "parameters"]) <$> close .lambdaParameters inside ps
  let _ ← expect ":"
  let t ← self body
  close .lambda_ start (params ++ [t.withField "body"])

/-- A negation, or a lambda whose body is of the given rule, or a comparison. -/
def negation (self : Grammar) (body : Rule) : Parser Tree := do
  let start ← here
  if ← sees "lambda" then lambda self body
  else if ← accept "not" then
    let t ← self .negation
    close .notOperator start [t.withField "argument"]
  else comparison self

def disjunction (self : Grammar) (body : Rule) : Parser Tree :=
  leftAssociative .booleanOperator ["or"]
    (leftAssociative .booleanOperator ["and"] (negation self body))

/-- A value bound to a name in passing. -/
def namedExpression (self : Grammar) : Parser Tree := do
  let start ← here
  if ← seesSecond ":=" then
    let name ← identifier
    let _ ← expect ":="
    let value ← self .filter
    close .namedExpression start [name.withField "name", value.withField "value"]
  else failure

/-- An expression that is no conditional. -/
def unconditional (self : Grammar) (body : Rule) : Parser Tree :=
  namedExpression self <|> disjunction self body

/-- An expression: perhaps a conditional, perhaps with a target behind `as`. -/
def expression (self : Grammar) : Parser Tree := do
  let t ← unconditional self .expression
  if ← accept "if" then
    let condition ← self .expression
    let _ ← expect "else"
    let other ← self .expression
    close .conditionalExpression t.start [t, condition, other]
  else if ← accept "as" then
    let start ← here
    let inner ← self .expression
    let bound ← close .asPatternTarget start [inner]
    close .asPattern t.start [t, bound.withField "alias"]
  else return t

/-- One expression, or a list of them without parentheses. -/
def expressions (self : Grammar) : Parser Tree := do
  let start ← here
  let first ← self .expression
  let rest ← many (expect "," *> self .expression)
  let trailing ← accept ","
  if rest.isEmpty && !trailing then return first
  else close .expressionList start (first :: rest)

end ActorOwnership.Syntax.Grammar
