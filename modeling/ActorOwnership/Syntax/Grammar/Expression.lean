import ActorOwnership.Syntax.Grammar.Basic

/-! The grammar of expressions. Rules refer to each other through `self`, so that each one is an
ordinary definition; the recursion is closed over the depth of nesting. -/

namespace ActorOwnership.Syntax
set_option autoImplicit false

/-- The rules that others may refer to at any depth. -/
inductive Rule where
  /-- An expression. -/
  | expression
  /-- An expression that is no conditional, as a comprehension's source or filter. -/
  | filter
  /-- One expression, or several with commas between. -/
  | expressions
  /-- A negation or anything that binds tighter. -/
  | negation
  /-- A signed operand or anything that binds tighter. -/
  | unary
  /-- A name, literal or display with what is applied to it. -/
  | primary
  /-- What may follow an equals sign. -/
  | rightSide
  /-- A replacement field of a formatted string. -/
  | field
  /-- The block behind a colon. -/
  | suite
  deriving DecidableEq, Repr

abbrev Grammar := Rule → Parser Tree

namespace Grammar
open ActorOwnership.Syntax.Parser

/-! ### Patterns -/

mutual

/-- A display read as a target of an assignment. -/
def toPattern : Tree → Tree
  | .node .tupleDisplay s e n f cs => .node .tuplePattern s e n f (toPatterns cs)
  | .node .parenthesizedExpression s e n f cs => .node .tuplePattern s e n f (toPatterns cs)
  | .node .listDisplay s e n f cs => .node .listPattern s e n f (toPatterns cs)
  | .node .expressionList s e n f cs => .node .patternList s e n f (toPatterns cs)
  | .node .listSplat s e n f cs => .node .listSplatPattern s e n f cs
  | t => t

def toPatterns : List Tree → List Tree
  | [] => []
  | t :: ts => toPattern t :: toPatterns ts

end

/-! ### Parameters -/

/-- A type annotation, perhaps with a star in front. -/
def typeNote (self : Grammar) : Parser Tree := do
  let start ← here
  let _ ← accept "*"
  let t ← self .expression
  close .typeNote start [t]

/-- The annotation of a parameter, where one is allowed and stands. -/
def noteOf (self : Grammar) (typed : Bool) : Parser (Option Tree) := do
  if typed then
    if ← accept ":" then some <$> typeNote self else return none
  else return none

/-- A parameter with a star or two. -/
def splatParameter (self : Grammar) (typed : Bool) (star : String) (kind : Kind) : Parser Tree := do
  let start ← here
  let _ ← expect star
  let name ← identifier
  let pattern ← close kind start [name]
  match ← noteOf self typed with
  | some type => close .typedParameter start [pattern, type.withField "type"]
  | none => return pattern

def groupPattern : Parser Tree := do
  let start ← here
  if ← sees "(" then
    skipBalanced
    close .tuplePattern start []
  else failure

/-- A named parameter with its annotation and default. -/
def plainParameter (self : Grammar) (typed : Bool) : Parser Tree := do
  let start ← here
  let name ← identifier <|> groupPattern
  let type ← noteOf self typed
  let value ← if ← accept "=" then some <$> self .expression else pure none
  match type, value with
  | none, none => return name
  | none, some v => close .defaultParameter start [name.withField "name", v.withField "value"]
  | some t, none => close .typedParameter start [name, t.withField "type"]
  | some t, some v =>
    close .typedDefaultParameter start
      [name.withField "name", t.withField "type", v.withField "value"]

/-- One parameter; a separator gives none. -/
def parameter (self : Grammar) (typed : Bool) : Parser (List Tree) :=
  (fun t => [t]) <$> splatParameter self typed "*" .listSplatPattern <|>
  (fun t => [t]) <$> splatParameter self typed "**" .dictionarySplatPattern <|>
  (fun _ => []) <$> expect "*" <|>
  (fun _ => []) <$> expect "/" <|>
  (fun t => [t]) <$> plainParameter self typed

def parameterList (self : Grammar) (typed : Bool) : Parser (List Tree) := do
  match ← optional (sepBy (parameter self typed)) with
  | none => return []
  | some ps =>
    let _ ← accept ","
    return ps.flatten

/-! ### Yield and strings -/

def yieldExpression (self : Grammar) : Parser Tree := do
  let start ← here
  let _ ← expect "yield"
  if ← accept "from" then
    let t ← self .expression
    close .yield_ start [t]
  else
    let t ← optional (self .expressions)
    close .yield_ start t.toList

/-- The replacement fields of a format or literal. -/
def fields (self : Grammar) : Parser (List Tree) := many (self .field)

/-- A replacement field: expression, equals sign and format. The conversion is no token. -/
def replacementField (self : Grammar) : Parser Tree := do
  let start ← here
  let _ ← expect "\x7b"
  let e ← yieldExpression self <|> self .expressions
  let _ ← accept "="
  let inner ← if ← accept ":" then fields self else pure []
  let _ ← expect "\x7d"
  close .interpolation start (e :: inner)

def stringLiteral (self : Grammar) : Parser Tree := do
  let start ← here
  if ← seesKind .stringOpen then
    let _ ← take
    let inner ← fields self
    let _ ← expectKind .stringClose
    close .string start inner
  else leaf .string <$> expectKind .string

/-- One literal, or several next to each other. -/
def strings (self : Grammar) : Parser Tree := do
  let start ← here
  let first ← stringLiteral self
  match ← many (stringLiteral self) with
  | [] => return first
  | rest => close .concatenatedString start (first :: rest)

/-! ### Comprehensions -/

/-- What an assignment or a loop binds: paths and groups, perhaps with commas between. -/
def target (self : Grammar) : Parser Tree := do
  let start ← here
  if ← accept "*" then
    let t ← self .primary
    close .listSplatPattern start [t]
  else toPattern <$> self .primary

def targets (self : Grammar) : Parser Tree := do
  let start ← here
  let ts ← sepBy (target self)
  let trailing ← accept ","
  match ts, trailing with
  | [t], false => return t
  | ts, _ => close .patternList start ts

def forClause (self : Grammar) : Parser Tree := do
  let start ← here
  let _ ← accept "async"
  let _ ← expect "for"
  let left ← targets self
  let _ ← expect "in"
  let right ← sepBy (self .filter)
  let _ ← accept ","
  close .forInClause start (left.withField "left" :: right.map (Tree.withField "right"))

def ifClause (self : Grammar) : Parser Tree := do
  let start ← here
  let _ ← expect "if"
  let t ← self .filter
  close .ifClause start [t]

/-- The clauses of a comprehension, if any follow. -/
def clauses (self : Grammar) : Parser (List Tree) := do
  if (← sees "for") || ((← sees "async") && (← seesSecond "for")) then
    many (forClause self <|> ifClause self)
  else return []

/-! ### Displays -/

/-- An expression, or a splat of one. -/
def starred (self : Grammar) : Parser Tree := do
  let start ← here
  if ← accept "*" then
    let t ← self .expression
    close .listSplat start [t]
  else self .expression

def element (self : Grammar) : Parser Tree := yieldExpression self <|> starred self

/-- Elements with commas between, and whether a comma follows the last one. -/
def elements (p : Parser Tree) : Parser (List Tree × Bool) := do
  match ← optional (sepBy p) with
  | none => return ([], false)
  | some ts => return (ts, ← accept ",")

def parenthesized (self : Grammar) : Parser Tree := do
  let start ← here
  let _ ← expect "("
  let (ts, trailing) ← elements (element self)
  match ts, trailing with
  | [t], false =>
    let cs ← clauses self
    let _ ← expect ")"
    if cs.isEmpty then close .parenthesizedExpression start [t]
    else close .generatorExpression start (t.withField "body" :: cs)
  | ts, _ =>
    let _ ← expect ")"
    close .tupleDisplay start ts

def bracketed (self : Grammar) : Parser Tree := do
  let start ← here
  let _ ← expect "["
  let (ts, trailing) ← elements (element self)
  match ts, trailing with
  | [t], false =>
    let cs ← clauses self
    let _ ← expect "]"
    if cs.isEmpty then close .listDisplay start [t]
    else close .listComprehension start (t.withField "body" :: cs)
  | ts, _ =>
    let _ ← expect "]"
    close .listDisplay start ts

def dictionarySplat (self : Grammar) : Parser Tree := do
  let start ← here
  let _ ← expect "**"
  let t ← self .expression
  close .dictionarySplat start [t]

/-- An entry of a dictionary, or an element of a set. -/
def entry (self : Grammar) : Parser Tree := do
  let start ← here
  if ← sees "**" then dictionarySplat self
  else
    let key ← element self
    if ← accept ":" then
      let value ← self .expression
      close .pair start [key.withField "key", value.withField "value"]
    else return key

def isEntry (t : Tree) : Bool := t.kind = .pair || t.kind = .dictionarySplat

def braced (self : Grammar) : Parser Tree := do
  let start ← here
  let _ ← expect "\x7b"
  let (ts, trailing) ← elements (entry self)
  let cs ← if ts.length = 1 && !trailing then clauses self else pure []
  let _ ← expect "\x7d"
  let body := ts.map (Tree.withField "body")
  match cs.isEmpty, ts.all isEntry with
  | true, true => close .dictionaryDisplay start ts
  | true, false => close .setDisplay start ts
  | false, true => close .dictionaryComprehension start (body ++ cs)
  | false, false => close .setComprehension start (body ++ cs)

/-! ### Calls and access paths -/

def argument (self : Grammar) : Parser Tree := do
  let start ← here
  if ← sees "**" then dictionarySplat self
  else if ← seesSecond "=" then
    let name ← identifier
    let _ ← expect "="
    let value ← self .expression
    close .keywordArgument start [name.withField "name", value.withField "value"]
  else starred self

/-- The arguments of a call: a list in parentheses, or a generator that stands alone. -/
def arguments (self : Grammar) : Parser Tree := do
  let start ← here
  let _ ← expect "("
  let (ts, trailing) ← elements (argument self)
  match ts, trailing with
  | [t], false =>
    let cs ← clauses self
    let _ ← expect ")"
    if cs.isEmpty then close .argumentList start [t]
    else close .generatorExpression start (t.withField "body" :: cs)
  | ts, _ =>
    let _ ← expect ")"
    close .argumentList start ts

/-- An index: an expression, or a slice. -/
def index (self : Grammar) : Parser Tree := do
  let start ← here
  let first ← optional (self .expression)
  if ← accept ":" then
    let second ← optional (self .expression)
    let third ← if ← accept ":" then optional (self .expression) else pure none
    close .slice start (first.toList ++ second.toList ++ third.toList)
  else match first with
    | some t => return t
    | none => failure

/-- What is applied to an operand from the right: an attribute, a call or an index. -/
def trailer (self : Grammar) (start : Mark) (t : Tree) : Parser Tree := do
  if ← accept "." then
    let name ← leaf .identifier <$> expectKind .word
    close .attribute start [t.withField "object", name.withField "attribute"]
  else if ← sees "(" then
    let args ← arguments self
    close .call start [t.withField "function", args.withField "arguments"]
  else if ← accept "[" then
    let (keys, _) ← elements (index self)
    let _ ← expect "]"
    close .subscript start (t.withField "value" :: keys.map (Tree.withField "subscript"))
  else failure

/-- All that is applied to an operand from the right. -/
def trailers (self : Grammar) (start : Mark) : Nat → Tree → Parser Tree
  | 0, t => pure t
  | fuel + 1, t => do
    match ← optional (trailer self start t) with
    | some t => trailers self start fuel t
    | none => return t

/-- As much as is applied to an operand and leaves a name or an access path. -/
def longestPath (self : Grammar) (start : Mark) : Nat → Tree → Parser Tree
  | 0, _ => failure
  | fuel + 1, t =>
    (do longestPath self start fuel (← trailer self start t)) <|>
      if t.kind.isPath then pure t else failure

/-! ### Operands -/

def constantKinds : List (String × Kind) :=
  [("True", .trueLiteral), ("False", .falseLiteral), ("None", .noneLiteral), ("...", .ellipsis)]

/-- A constant that is written as a word or a mark. -/
def constant : Parser Tree := do
  match ← next? with
  | none => failure
  | some t =>
    match constantKinds.find? fun c => isText t c.1 with
    | none => failure
    | some (_, kind) =>
      let _ ← take
      return leaf kind t

/-- A name, literal or display. -/
def plainAtom (self : Grammar) : Parser Tree := do
  match ← next? with
  | none => failure
  | some t =>
    match t.kind with
    | .string | .stringOpen => strings self
    | .integer => leaf .integer <$> take
    | .float => leaf .float <$> take
    | .word => constant <|> identifier
    | .mark =>
      if t.text == "(" then parenthesized self
      else if t.text == "[" then bracketed self
      else if t.text == "\x7b" then braced self
      else constant
    | _ => failure

/-- A splat in the place of an operand; it takes a name or an access path only. -/
def splatAtom (self : Grammar) : Parser Tree := do
  let start ← here
  let _ ← expect "*"
  let inside ← here
  let t ← plainAtom self
  let path ← longestPath self inside ((← get).tokens.length + 1) t
  close .listSplat start [path]

def atom (self : Grammar) : Parser Tree := splatAtom self <|> plainAtom self

end Grammar

end ActorOwnership.Syntax
