import ActorOwnership.Syntax.Token

/-! Parsers over token lists: a state with the tokens left and the end of the last token taken. A
parser that fails leaves the state as it was. -/

namespace ActorOwnership.Syntax
set_option autoImplicit false

structure Input where
  tokens : List Token
  /-- The end of the last token taken. -/
  last : Mark := {}
  deriving Inhabited

abbrev Parser := StateT Input Option

namespace Parser

variable {α : Type}

def next? : Parser (Option Token) := return (← get).tokens.head?

/-- Takes the next token. -/
def take : Parser Token := do
  match (← get).tokens with
  | [] => failure
  | t :: ts =>
    set ({ tokens := ts, last := t.stop } : Input)
    return t

def isText (t : Token) (text : String) : Bool :=
  (t.kind == .word || t.kind == .mark) && t.text == text

/-- Whether the next token is this word or mark. -/
def sees (text : String) : Parser Bool := return (← next?).any (isText · text)

def seesOneOf (texts : List String) : Parser Bool :=
  return (← next?).any fun t => texts.any (isText t)

def seesKind (kind : TokenKind) : Parser Bool := return (← next?).any (·.kind == kind)

/-- Whether the token after the next one is this word or mark. -/
def seesSecond (text : String) : Parser Bool :=
  return ((← get).tokens.tail.head?).any (isText · text)

/-- Takes this word or mark. -/
def expect (text : String) : Parser Token := do
  if ← sees text then take else failure

def expectKind (kind : TokenKind) : Parser Token := do
  if ← seesKind kind then take else failure

/-- Takes this word or mark if it is next. -/
def accept (text : String) : Parser Bool := do
  if ← sees text then
    let _ ← take
    return true
  else return false

/-- Where the next token starts. -/
def here : Parser Mark := do
  match ← next? with
  | some t => return t.start
  | none => return (← get).last

def manyAux (p : Parser α) : Nat → Parser (List α)
  | 0 => pure []
  | fuel + 1 => do
    match ← optional p with
    | none => pure []
    | some a => return a :: (← manyAux p fuel)

/-- Repeats a parser until it fails; each round takes a token. -/
def many (p : Parser α) : Parser (List α) := do manyAux p ((← get).tokens.length + 1)

/-- One or more, with commas between. -/
def sepBy (p : Parser α) : Parser (List α) := do
  let first ← p
  let rest ← many do
    let _ ← expect ","
    p
  return first :: rest

/-- A node from `start` to the end of the last token. -/
def close (kind : Kind) (start : Mark) (children : List Tree) : Parser Tree :=
  return .node kind start (← get).last true none children

def leaf (kind : Kind) (t : Token) : Tree := .node kind t.start t.stop true none []

/-- A bare token in a role. -/
def bare (role : String) (t : Token) : Tree :=
  .node (.other t.text) t.start t.stop false (some role) []

/-- Words that are no names. -/
def keywords : List String :=
  ["and", "as", "assert", "break", "class", "continue", "def", "del", "elif", "else", "except",
   "finally", "for", "from", "global", "if", "import", "in", "is", "lambda", "nonlocal", "not", "or",
   "pass", "raise", "return", "try", "while", "with", "yield"]

def identifier : Parser Tree := do
  match ← next? with
  | some t =>
    if t.kind == .word && !keywords.contains t.text then
      let _ ← take
      return leaf .identifier t
    else failure
  | none => failure

/-- Passes over tokens while a condition holds. -/
def skipWhile (p : Token → Bool) : Parser Unit := do
  let _ ← many do
    match ← next? with
    | some t => if p t then take else failure
    | none => failure

def nestingOf (t : Token) : Int :=
  if ["(", "[", "\x7b"].any (isText t) then 1
  else if [")", "]", "\x7d"].any (isText t) then -1
  else 0

/-- The tokens up to the bracket that closes the first one, and the tokens after it. -/
def splitBalanced : Int → List Token → List Token × List Token
  | _, [] => ([], [])
  | depth, t :: ts =>
    let d := depth + nestingOf t
    if d ≤ 0 then ([t], ts)
    else
      let (inside, after) := splitBalanced d ts
      (t :: inside, after)

/-- Passes over a bracketed group. -/
def skipBalanced : Parser Unit := do
  let s ← get
  let (inside, after) := splitBalanced 0 s.tokens
  match inside.getLast? with
  | none => failure
  | some t => set ({ tokens := after, last := t.stop } : Input)

end Parser

end ActorOwnership.Syntax
