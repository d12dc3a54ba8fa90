import ActorOwnership.Syntax.Token
import ActorOwnership.Text.Blank

/-! The lexer. Outside brackets the end of a line closes a statement, and the indentation of the next
line opens or closes blocks. Comments and line continuations are kept apart from the tokens. -/

namespace ActorOwnership.Syntax
set_option autoImplicit false

/-- What surrounds the current position, innermost first. -/
inductive Frame where
  | bracket
  /-- The literal part of a formatted string, with its quote. -/
  | string (quote : Char) (triple raw : Bool)
  /-- The expression of a replacement field. -/
  | replacement
  /-- The format behind the colon of a replacement field. -/
  | format
  deriving DecidableEq, Repr, Inhabited

structure Lexer where
  rest : List Char
  mark : Mark := {}
  frames : List Frame := []
  /-- Indentation of the open blocks, innermost first. -/
  indents : List Nat := [0]
  /-- Whether the current line has a token. -/
  pending : Bool := false
  /-- Whether the last token is a colon that may open a block. -/
  opening : Bool := false
  tokens : List Token := []
  extras : List Tree := []
  deriving Inhabited

namespace Lexer

/-! ### Characters -/

def isSpace (c : Char) : Bool :=
  Text.isBlank c || c == '\ufeff' || c == '\u2060' || c == '\u200b'

def isWordStart (c : Char) : Bool :=
  c.isAlpha || c == '_' || (0x80 ≤ c.toNat && !isSpace c)

def isWordPart (c : Char) : Bool := isWordStart c || c.isDigit

def isQuote (c : Char) : Bool := c == '"' || c == '\''

def isDigitOrUnderscore (c : Char) : Bool := c.isDigit || c == '_'

def isHexPart (c : Char) : Bool := c.isDigit || ('a' ≤ c && c ≤ 'f') || ('A' ≤ c && c ≤ 'F') || c == '_'

/-! ### Layout -/

/-- Looks from the end of a token to the next one. If a line end lies between, the indentation of the
next token and of the first comment on a line of its own. -/
def layout : List Char → Bool → Bool → Nat → Option Nat → Option (Nat × Option Nat)
  | [], _, _, _, comment => some (0, comment)
  | '\n' :: cs, _, _, _, comment => layout cs false true 0 comment
  | _ :: cs, true, found, width, comment => layout cs true found width comment
  | ' ' :: cs, _, found, width, comment => layout cs false found (width + 1) comment
  | '\t' :: cs, _, found, width, comment => layout cs false found (width + 8) comment
  | '\r' :: cs, _, found, _, comment => layout cs false found 0 comment
  | '\x0c' :: cs, _, found, _, comment => layout cs false found 0 comment
  | '#' :: cs, _, found, width, comment =>
    if found then layout cs true found width (comment.or (some width)) else none
  | '\\' :: '\n' :: cs, _, found, width, comment => layout cs false found width comment
  | '\\' :: '\r' :: '\n' :: cs, _, found, width, comment => layout cs false found width comment
  | ['\\'], _, _, _, comment => some (0, comment)
  | _ :: _, _, found, width, comment => if found then some (width, comment) else none

/-! ### Moving on -/

/-- Passes over the characters `cs`, which the rest starts with. -/
def skip (l : Lexer) (cs : List Char) : Lexer :=
  { l with rest := l.rest.drop cs.length, mark := l.mark.advanceAll cs }

/-- Makes a token of the characters `cs`, which the rest starts with. -/
def push (l : Lexer) (kind : TokenKind) (cs : List Char) : Lexer :=
  let text := String.ofList cs
  let after := l.skip cs
  { after with
    tokens := ⟨kind, text, l.mark, after.mark⟩ :: l.tokens
    pending := true
    opening := kind == .mark && text == ":" && l.frames.isEmpty }

/-- A layout token; the line is then done. -/
def pushLayout (l : Lexer) (kind : TokenKind) : Lexer :=
  { l with tokens := ⟨kind, "", l.mark, l.mark⟩ :: l.tokens, pending := false, opening := false }

def pushExtra (l : Lexer) (kind : Kind) (cs : List Char) : Lexer :=
  let after := l.skip cs
  { after with extras := .node kind l.mark after.mark true none [] :: l.extras }

def pushFrame (l : Lexer) (f : Frame) : Lexer := { l with frames := f :: l.frames }

def popFrame (l : Lexer) : Lexer := { l with frames := l.frames.tail }

/-! ### Strings -/

/-- The rest of a string literal with its closing quote. -/
def stringRest (quote : Char) (triple : Bool) : List Char → List Char
  | [] => []
  | '\\' :: c :: cs => '\\' :: c :: stringRest quote triple cs
  | c :: cs =>
    if c != quote then c :: stringRest quote triple cs
    else if !triple then [c]
    else if cs.take 2 = [quote, quote] then [c, quote, quote]
    else c :: stringRest quote triple cs

def isTriple (quote : Char) (cs : List Char) : Bool := cs.take 3 = [quote, quote, quote]

def isPrefixLetter (c : Char) : Bool := "fFrRbBuUtT".toList.contains c

/-- The letters before the quote of a string literal, if one starts here. -/
def stringLetters? (cs : List Char) : Option (List Char) :=
  let letters := cs.takeWhile isPrefixLetter
  match cs.drop letters.length with
  | c :: _ => if isQuote c then some letters else none
  | [] => none

def lexString (l : Lexer) (letters : List Char) : Lexer :=
  match l.rest.drop letters.length with
  | [] => l.skip letters
  | quote :: body =>
    let triple := isTriple quote (quote :: body)
    let delimiter := if triple then [quote, quote, quote] else [quote]
    if letters.any fun c => "fFtT".toList.contains c then
      let raw := letters.any fun c => c == 'r' || c == 'R'
      (l.push .stringOpen (letters ++ delimiter)).pushFrame (.string quote triple raw)
    else
      l.push .string
        (letters ++ delimiter ++ stringRest quote triple (l.rest.drop (letters ++ delimiter).length))

/-- One step in the literal part of a formatted string. -/
def lexLiteral (l : Lexer) (quote : Char) (triple raw : Bool) : Lexer :=
  match l.rest with
  | [] => l
  | '\x7b' :: '\x7b' :: _ => l.skip ['\x7b', '\x7b']
  | '\x7d' :: '\x7d' :: _ => l.skip ['\x7d', '\x7d']
  | '\x7b' :: _ => (l.push .mark ['\x7b']).pushFrame .replacement
  | '\\' :: '\x7b' :: _ => l.skip ['\\']
  | '\\' :: '\x7d' :: _ => l.skip ['\\']
  | '\\' :: 'N' :: '\x7b' :: cs =>
    if raw then l.skip ['\\', 'N']
    else l.skip ('\\' :: 'N' :: '\x7b' :: cs.takeWhile (· ≠ '\x7d'))
  | '\\' :: c :: _ => l.skip ['\\', c]
  | c :: cs =>
    if c == quote && !triple then (l.push .stringClose [c]).popFrame
    else if isTriple quote (c :: cs) then (l.push .stringClose [c, c, c]).popFrame
    else l.skip [c]

/-- One step in a format. -/
def lexFormat (l : Lexer) : Lexer :=
  match l.rest with
  | [] => l
  | '\x7b' :: _ => (l.push .mark ['\x7b']).pushFrame .replacement
  | '\x7d' :: _ => (l.push .mark ['\x7d']).popFrame.popFrame
  | c :: _ => l.skip [c]

/-! ### Numbers -/

/-- Digits after a base mark, if `cs` has one. -/
def basedNumber? (cs : List Char) : Option (List Char) :=
  match cs with
  | '0' :: m :: d :: rest =>
    let isPart := if m == 'x' || m == 'X' then isHexPart else isDigitOrUnderscore
    if "xXoObB".toList.contains m && isPart d then some ('0' :: m :: (d :: rest).takeWhile isPart)
    else none
  | _ => none

/-- The exponent that the characters start with, or nothing. -/
def exponentPart (cs : List Char) : List Char :=
  match cs with
  | e :: s :: d :: rest =>
    if e != 'e' && e != 'E' then []
    else if s.isDigit then e :: (s :: d :: rest).takeWhile isDigitOrUnderscore
    else if (s == '+' || s == '-') && d.isDigit then
      e :: s :: (d :: rest).takeWhile isDigitOrUnderscore
    else []
  | [e, s] => if (e == 'e' || e == 'E') && s.isDigit then [e, s] else []
  | _ => []

def suffixOf (letters : String) (cs : List Char) : List Char :=
  match cs with
  | c :: _ => if letters.toList.contains c then [c] else []
  | [] => []

def lexNumber (l : Lexer) : Lexer :=
  match basedNumber? l.rest with
  | some cs => l.push .integer (cs ++ suffixOf "lL" (l.rest.drop cs.length))
  | none =>
    let whole := l.rest.takeWhile isDigitOrUnderscore
    let rest := l.rest.drop whole.length
    let point := if rest.head? = some '.' then '.' :: rest.tail.takeWhile isDigitOrUnderscore else []
    let rest := rest.drop point.length
    let exponent := exponentPart rest
    let rest := rest.drop exponent.length
    let cs := whole ++ point ++ exponent
    if point.isEmpty && exponent.isEmpty then l.push .integer (cs ++ suffixOf "lLjJ" rest)
    else l.push .float (cs ++ suffixOf "jJ" rest)

/-! ### Marks -/

/-- Operators of more than one character, the longer ones first. -/
def longMarks : List String :=
  ["**=", "//=", ">>=", "<<=", "...", "->", ":=", "==", "!=", "<=", ">=", "<>", "+=", "-=", "*=",
   "/=", "%=", "&=", "|=", "^=", "@=", "**", "//", "<<", ">>"]

def markAt (c : Char) (cs : List Char) : List Char :=
  ((longMarks.map String.toList).find? fun m => m.isPrefixOf (c :: cs)).getD [c]

def lexMark (l : Lexer) (c : Char) (cs : List Char) : Lexer :=
  if c == '(' || c == '[' || c == '\x7b' then (l.push .mark [c]).pushFrame .bracket
  else if c == ')' || c == ']' || c == '\x7d' then (l.popFrame).push .mark [c]
  else l.push .mark (markAt c cs)

/-- Marks that have a meaning of their own directly inside a replacement field. -/
def lexReplacement? (l : Lexer) (c : Char) (cs : List Char) : Option Lexer :=
  if l.frames.head? ≠ some .replacement then none
  else if c == ':' then some ((l.push .mark [c]).pushFrame .format)
  else if c == '!' && cs.head? ≠ some '=' then some (l.skip (c :: cs.takeWhile isWordPart))
  else none

/-! ### Steps -/

/-- One step outside literals: a blank, a comment, a continuation or a token. -/
def lexCode (l : Lexer) : Lexer :=
  match l.rest with
  | [] => l
  | '#' :: cs => l.pushExtra .comment ('#' :: cs.takeWhile (· ≠ '\n'))
  | '\\' :: '\n' :: _ => l.pushExtra .lineContinuation ['\\', '\n']
  | '\\' :: '\r' :: '\n' :: _ => l.pushExtra .lineContinuation ['\\', '\r', '\n']
  | c :: cs =>
    if isSpace c then l.skip [c]
    else match stringLetters? (c :: cs) with
      | some letters => l.lexString letters
      | none =>
        if isWordStart c then l.push .word ((c :: cs).takeWhile isWordPart)
        else if c.isDigit || (c == '.' && (cs.head?.map Char.isDigit).getD false) then l.lexNumber
        else (l.lexReplacement? c cs).getD (l.lexMark c cs)

/-- The layout token that is due outside brackets, if any. -/
def layoutToken? (l : Lexer) : Option Lexer :=
  match layout l.rest false false 0 none with
  | none => none
  | some (width, comment) =>
    let top := l.indents.head?.getD 0
    if l.opening then
      if top < width then some ({ l with indents := width :: l.indents }.pushLayout .indent)
      else some (l.pushLayout .newline)
    else if l.pending then some (l.pushLayout .newline)
    else if width < top && comment.all (· < top) then
      some ({ l with indents := l.indents.tail }.pushLayout .dedent)
    else none

def step (l : Lexer) : Lexer :=
  match l.frames with
  | [] => l.layoutToken?.getD l.lexCode
  | .string quote triple raw :: _ => l.lexLiteral quote triple raw
  | .format :: _ => l.lexFormat
  | _ => l.lexCode

def run : Nat → Lexer → Lexer
  | 0, l => l
  | fuel + 1, l =>
    if l.rest.isEmpty && !l.pending && !l.opening && l.indents.length ≤ 1 then l
    else run fuel l.step

/-- The tokens of a text, and its comments and line continuations. Every step passes over a
character or makes one of at most three layout tokens for it. -/
def lex (text : String) : List Token × List Tree :=
  let cs := text.toList
  let l := run (4 * cs.length + 8) { rest := cs }
  (l.tokens.reverse, l.extras.reverse)

end Lexer

end ActorOwnership.Syntax
