import ActorOwnership.Number.Binary64
import ActorOwnership.Text.Integer

/-! Binary numbers as decimal text: the fewest digits that read back, a fixed number of places, and
the reading of a decimal. -/

namespace ActorOwnership.Binary64
set_option autoImplicit false

/-- The number `p` with `10 ^ (p - 1) ≤ num / den < 10 ^ p`, searched upwards from `p`. -/
def pointFrom : Nat → Int → Nat → Nat → Int
  | 0, p, _, _ => p
  | fuel + 1, p, num, den =>
    let reached := if p < 0 then num * Nat.pow 10 (-p).toNat < den
      else num < den * Nat.pow 10 p.toNat
    if reached then p else pointFrom fuel (p + 1) num den

/-- The place of the decimal point before the first digit: `num / den` is `0.d₁d₂… * 10 ^ p`. -/
def pointPlace (num den : Nat) : Int :=
  let guess : Int := ((num.log2 : Int) - (den.log2 : Int) - 1) * 30103 / 100000
  pointFrom 8 (guess - 1) num den

/-- `num / den` on the grid of `n` significant digits: the grid points at and above it, with the
power of ten of their last digit, the nearer first, and of two equally near the even one. -/
def gridNeighbours (num den n : Nat) : List (Nat × Int) :=
  let e := pointPlace num den - n
  let (a, b) := if e < 0 then (num * Nat.pow 10 (-e).toNat, den)
    else (num, den * Nat.pow 10 e.toNat)
  let q := a / b
  if roundDiv a b = q then [(q, e), (q + 1, e)] else [(q + 1, e), (q, e)]

/-- The first decimal that reads back, looking at `n` digits and then at more. -/
def shortestFrom : Nat → Nat → Nat → Int → Nat × Int
  | 0, _, mantissa, exponent => (mantissa, exponent)
  | fuel + 1, n, mantissa, exponent =>
    let r := ratio mantissa exponent
    match (gridNeighbours r.1 r.2 n).find? fun d =>
        ofDecimal false d.1 d.2 = .finite false mantissa exponent with
    | some d => d
    | none => shortestFrom fuel (n + 1) mantissa exponent

/-- Drops zeros at the end of the digits. -/
def trimZeros : Nat → Nat → Int → Nat × Int
  | 0, d, e => (d, e)
  | fuel + 1, d, e => if d ≠ 0 && d % 10 = 0 then trimZeros fuel (d / 10) (e + 1) else (d, e)

/-- Digits and power of ten of the shortest decimal that reads back as this magnitude. -/
def shortest (mantissa : Nat) (exponent : Int) : Nat × Int :=
  if mantissa = 0 then (0, 0)
  else
    let d := shortestFrom 17 1 mantissa exponent
    trimZeros 20 d.1 d.2

/-- How a shortest decimal is laid out. -/
structure Layout where
  /-- Point places written without an exponent. -/
  leastPlace : Int
  greatestPlace : Int
  /-- Least number of exponent digits. -/
  exponentDigits : Nat
  nan : String
  infinity : String

/-- Values from `0.0001` up to sixteen digits are positional and keep a decimal; other ones have a
signed exponent of two digits or more. -/
def plain : Layout := ⟨-3, 16, 2, "nan", "inf"⟩

/-- The same numbers in a JSON document. -/
def json : Layout := { plain with nan := "NaN", infinity := "Infinity" }

def signText (negative : Bool) : String := if negative then "-" else ""

def padLeft (width : Nat) (cs : List Char) : List Char :=
  List.replicate (width - cs.length) '0' ++ cs

/-- Digits with the point after the first `place` of them. -/
def positional (ds : List Char) (place : Int) : List Char :=
  if place ≤ 0 then '0' :: '.' :: List.replicate (-place).toNat '0' ++ ds
  else
    let n := place.toNat
    if ds.length ≤ n then ds ++ List.replicate (n - ds.length) '0' ++ ['.', '0']
    else ds.take n ++ '.' :: ds.drop n

/-- One digit before the point and the exponent behind. -/
def scientific (width : Nat) (ds : List Char) (place : Int) : List Char :=
  let e := place - 1
  let mark := if e < 0 then '-' else '+'
  let body := match ds with
    | [] => ['0']
    | [d] => [d]
    | d :: rest => d :: '.' :: rest
  body ++ 'e' :: mark :: padLeft width (Nat.toDigits 10 e.natAbs)

def render (layout : Layout) : Binary64 → String
  | .nan => layout.nan
  | .infinite negative => signText negative ++ layout.infinity
  | .finite negative mantissa exponent =>
    let d := shortest mantissa exponent
    let ds := Nat.toDigits 10 d.1
    let place : Int := if mantissa = 0 then 1 else ds.length + d.2
    signText negative ++ String.ofList
      (if layout.leastPlace ≤ place && place ≤ layout.greatestPlace then positional ds place
       else scientific layout.exponentDigits ds place)

/-- A fixed number of decimals, rounded from the exact value. -/
def renderFixed (places : Nat) : Binary64 → String
  | .nan => plain.nan
  | .infinite negative => signText negative ++ plain.infinity
  | .finite negative mantissa exponent =>
    let r := ratio mantissa exponent
    let ds := padLeft (places + 1) (Nat.toDigits 10 (roundDiv (r.1 * Nat.pow 10 places) r.2))
    let whole := ds.take (ds.length - places)
    let part := ds.drop (ds.length - places)
    signText negative ++ String.ofList (if places = 0 then whole else whole ++ '.' :: part)

open Text in
/-- Digits with single underscores between them, and what follows; `inside` says that a digit stands
right before. -/
def takeDigits : Bool → List Char → List Nat × List Char
  | _, [] => ([], [])
  | inside, c :: cs =>
    match decimalValue? c with
    | some v =>
      let (ds, rest) := takeDigits true cs
      (v :: ds, rest)
    | none =>
      if c == '_' && inside && (cs.head?.bind decimalValue?).isSome then takeDigits false cs
      else ([], c :: cs)

open Text in
/-- The exponent part `e±digits`, or nothing. -/
def takeExponent : List Char → Option Int
  | [] => some 0
  | e :: cs =>
    if e == 'e' || e == 'E' then
      let (negative, ds) := match cs with
        | '-' :: rest => (true, rest)
        | '+' :: rest => (false, rest)
        | _ => (false, cs)
      match takeDigits false ds with
      | ([], _) => none
      | (vs, []) => some (if negative then -(valueOf 10 vs : Int) else valueOf 10 vs)
      | _ => none
    else none

open Text in
/-- An unsigned decimal with an optional fraction and exponent. -/
def readUnsigned (negative : Bool) (cs : List Char) : Option Binary64 :=
  let (whole, rest) := takeDigits false cs
  let (part, rest) := match rest with
    | '.' :: after => takeDigits false after
    | _ => ([], rest)
  if whole.isEmpty && part.isEmpty then none
  else (takeExponent rest).map fun e =>
    ofDecimal negative (valueOf 10 (whole ++ part)) (e - part.length)

open Text in
/-- Reads a decimal, an infinity or a NaN, with blanks around and a sign in front. -/
def read? (s : String) : Option Binary64 :=
  let cs := trimBoth isNumberBlank s.toList
  let (negative, cs) := match cs with
    | '-' :: rest => (true, rest)
    | '+' :: rest => (false, rest)
    | _ => (false, cs)
  let word := String.ofList (cs.map Char.toLower)
  if word = "inf" || word = "infinity" then some (.infinite negative)
  else if word = "nan" then some .nan
  else readUnsigned negative cs

end ActorOwnership.Binary64
