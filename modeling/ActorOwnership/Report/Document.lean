import ActorOwnership.Number.Decimal
import ActorOwnership.Text.Quoted

/-! JSON documents and their text: two blanks of indentation, ASCII only, keys in the order in which
they were given. -/

namespace ActorOwnership
set_option autoImplicit false

inductive Document where
  | bool (b : Bool)
  | int (n : Int)
  | real (x : Binary64)
  | text (s : String)
  | list (items : List Document)
  | object (entries : List (String × Document))
  deriving Inhabited

namespace Document

/-- An escape by code point; a character beyond four digits is written as two halves. -/
def unitEscape (c : Char) : List Char :=
  let n := c.toNat
  if n < 0x10000 then '\\' :: 'u' :: Text.hexDigits 4 n
  else
    let m := n - 0x10000
    ('\\' :: 'u' :: Text.hexDigits 4 (0xD800 + m / 0x400)) ++
      ('\\' :: 'u' :: Text.hexDigits 4 (0xDC00 + m % 0x400))

def escapeChar (c : Char) : List Char :=
  if c == '"' || c == '\\' then ['\\', c]
  else if c == '\n' then ['\\', 'n']
  else if c == '\r' then ['\\', 'r']
  else if c == '\t' then ['\\', 't']
  else if c == '\x08' then ['\\', 'b']
  else if c == '\x0c' then ['\\', 'f']
  else if ' ' ≤ c && c ≤ '~' then [c]
  else unitEscape c

def quote (s : String) : String :=
  "\"" ++ String.ofList (s.toList.flatMap escapeChar) ++ "\""

/-- Items on lines of their own between brackets; without items, the brackets alone. -/
def bracket (opening closing : String) (depth : Nat) (items : List String) : String :=
  if items.isEmpty then opening ++ closing
  else
    let pad (n : Nat) := "\n" ++ String.ofList (List.replicate (2 * n) ' ')
    opening ++ pad (depth + 1) ++ String.intercalate ("," ++ pad (depth + 1)) items ++ pad depth ++
      closing

mutual

def renderAt (depth : Nat) : Document → String
  | .bool b => if b then "true" else "false"
  | .int n => toString n
  | .real x => x.render Binary64.json
  | .text s => quote s
  | .list items => bracket "[" "]" depth (renderItems (depth + 1) items)
  | .object entries => bracket "\x7b" "\x7d" depth (renderEntries (depth + 1) entries)

def renderItems (depth : Nat) : List Document → List String
  | [] => []
  | d :: ds => renderAt depth d :: renderItems depth ds

def renderEntries (depth : Nat) : List (String × Document) → List String
  | [] => []
  | (key, d) :: ds => (quote key ++ ": " ++ renderAt depth d) :: renderEntries depth ds

end

def render (d : Document) : String := renderAt 0 d

end Document

end ActorOwnership
