import ActorOwnership.Text.Digit

/-! Integers as text. A sign may stand in front, single underscores may stand between digits, digits
of every script count, and a decimal text has at most 4300 digits. -/

namespace ActorOwnership.Text
set_option autoImplicit false

inductive IntegerError where
  | malformed
  | tooLong (digits : Nat)
  deriving DecidableEq, Repr

/-- The longest decimal text that is converted. -/
def maxDecimalDigits : Nat := 4300

/-- How the base of an integer text is chosen: decimal only, or by the mark `0x`, `0o` or `0b`. -/
inductive Radix where
  | decimal
  | marked
  deriving DecidableEq, Repr

/-- The value of a digit, where the letters of either case stand for ten and more. -/
def digitValue? (c : Char) : Option Nat :=
  match decimalValue? c with
  | some v => some v
  | none =>
    if 'a' ≤ c && c ≤ 'z' then some (c.toNat - 'a'.toNat + 10)
    else if 'A' ≤ c && c ≤ 'Z' then some (c.toNat - 'A'.toNat + 10)
    else none

/-- Digits in `base` with single underscores between them; `needDigit` says that the text may not
stop or hold an underscore here. -/
def digitsOf? (base : Nat) : Bool → List Char → Option (List Nat)
  | needDigit, [] => if needDigit then none else some []
  | needDigit, c :: cs =>
    if c == '_' then if needDigit then none else digitsOf? base true cs
    else match digitValue? c with
      | some v => if v < base then (digitsOf? base false cs).map (v :: ·) else none
      | none => none

def valueOf (base : Nat) (ds : List Nat) : Nat := ds.foldl (fun acc d => acc * base + d) 0

/-- A decimal text without sign. -/
def readDecimal (cs : List Char) : Except IntegerError Nat :=
  match digitsOf? 10 true cs with
  | none => .error .malformed
  | some ds => if ds.length ≤ maxDecimalDigits then .ok (valueOf 10 ds) else .error (.tooLong ds.length)

/-- The base that the two characters `0` and `mark` announce. -/
def markedBase? (mark : Char) : Option Nat :=
  if mark == 'x' || mark == 'X' then some 16
  else if mark == 'o' || mark == 'O' then some 8
  else if mark == 'b' || mark == 'B' then some 2
  else none

/-- Digits after a base mark, where one underscore may come first. -/
def readMarkedDigits (base : Nat) (cs : List Char) : Except IntegerError Nat :=
  let body := match cs with
    | '_' :: rest => rest
    | _ => cs
  match digitsOf? base true body with
  | none => .error .malformed
  | some ds => .ok (valueOf base ds)

/-- A text whose base is marked; a decimal that starts with zero is zero. -/
def readMarked (cs : List Char) : Except IntegerError Nat :=
  match cs with
  | '0' :: mark :: rest =>
    match markedBase? mark with
    | some base => readMarkedDigits base rest
    | none => (readDecimal cs).bind fun n => if n = 0 then .ok 0 else .error .malformed
  | _ => (readDecimal cs).bind fun n =>
    if cs.head?.bind decimalValue? = some 0 && n ≠ 0 then .error .malformed else .ok n

def readUnsigned : Radix → List Char → Except IntegerError Nat
  | .decimal, cs => readDecimal cs
  | .marked, cs => readMarked cs

/-- An integer with blanks around it and a sign in front. -/
def readInteger (radix : Radix) (s : String) : Except IntegerError Int :=
  match trimBoth isNumberBlank s.toList with
  | '-' :: cs => (readUnsigned radix cs).map fun n => -(n : Int)
  | '+' :: cs => (readUnsigned radix cs).map fun n => (n : Int)
  | cs => (readUnsigned radix cs).map fun n => (n : Int)

end ActorOwnership.Text
