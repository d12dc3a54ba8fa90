import ActorOwnership.Text.Printable

/-! Quoted texts. The quote is single unless the text has a single quote and no double one; the quote
and the backslash are escaped, and so is every character that cannot be printed. -/

namespace ActorOwnership.Text
set_option autoImplicit false

/-- The digits of `n` in lower-case hexadecimal, with zeros in front up to `width`. -/
def hexDigits (width n : Nat) : List Char :=
  let ds := Nat.toDigits 16 n
  List.replicate (width - ds.length) '0' ++ ds

/-- An escape by code point: two, four or eight hexadecimal digits. -/
def codePointEscape (c : Char) : List Char :=
  if c.toNat < 0x100 then '\\' :: 'x' :: hexDigits 2 c.toNat
  else if c.toNat < 0x10000 then '\\' :: 'u' :: hexDigits 4 c.toNat
  else '\\' :: 'U' :: hexDigits 8 c.toNat

def quoteOf (cs : List Char) : Char :=
  if cs.contains '\'' && !cs.contains '"' then '"' else '\''

def escapeChar (quote c : Char) : List Char :=
  if c == quote || c == '\\' then ['\\', c]
  else if c == '\n' then ['\\', 'n']
  else if c == '\r' then ['\\', 'r']
  else if c == '\t' then ['\\', 't']
  else if isPrintable c then [c]
  else codePointEscape c

def quotedChars (cs : List Char) : List Char :=
  quoteOf cs :: cs.flatMap (escapeChar (quoteOf cs)) ++ [quoteOf cs]

def quoted (s : String) : String := String.ofList (quotedChars s.toList)

end ActorOwnership.Text
