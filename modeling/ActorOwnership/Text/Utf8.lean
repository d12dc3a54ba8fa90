/-! UTF-8 octets as characters. Reading stops at the first fault, which is described by its extent
and reason, or puts the replacement character in place of each faulty stretch. -/

namespace ActorOwnership.Text.Utf8
set_option autoImplicit false

inductive Reason where
  | invalidStart
  | invalidContinuation
  | unexpectedEnd
  deriving DecidableEq, Repr

def Reason.message : Reason → String
  | .invalidStart => "invalid start byte"
  | .invalidContinuation => "invalid continuation byte"
  | .unexpectedEnd => "unexpected end of data"

/-- A faulty stretch: where it starts, its first octet, how many octets it takes. -/
structure Fault where
  start : Nat
  octet : UInt8
  length : Nat
  reason : Reason
  deriving DecidableEq, Repr

/-- What a first octet announces: how many octets follow, the range of the first of them, and the
bits it contributes itself. -/
def lead? (b : Nat) : Option (Nat × Nat × Nat × Nat) :=
  if b < 0x80 then some (0, 0, 0, b)
  else if b < 0xC2 then none
  else if b < 0xE0 then some (1, 0x80, 0xBF, b - 0xC0)
  else if b = 0xE0 then some (2, 0xA0, 0xBF, 0)
  else if b = 0xED then some (2, 0x80, 0x9F, 0xD)
  else if b < 0xF0 then some (2, 0x80, 0xBF, b - 0xE0)
  else if b = 0xF0 then some (3, 0x90, 0xBF, 0)
  else if b < 0xF4 then some (3, 0x80, 0xBF, b - 0xF0)
  else if b = 0xF4 then some (3, 0x80, 0x8F, 4)
  else none

/-- Reads the `n` octets that follow; on a fault, the number of good ones and the reason. -/
def tails : Nat → Nat → Nat → Nat → Nat → List UInt8 → Except (Nat × Reason) Nat
  | 0, _, _, _, acc, _ => .ok acc
  | _ + 1, _, _, good, _, [] => .error (good, .unexpectedEnd)
  | n + 1, lo, hi, good, acc, b :: bs =>
    if lo ≤ b.toNat && b.toNat ≤ hi then
      tails n 0x80 0xBF (good + 1) (acc * 64 + (b.toNat - 0x80)) bs
    else .error (good, .invalidContinuation)

/-- The first character of a non-empty octet string with the octets it takes, or the length and the
reason of the faulty stretch. -/
def first (b : UInt8) (bs : List UInt8) : Except (Nat × Reason) (Char × Nat) :=
  match lead? b.toNat with
  | none => .error (1, .invalidStart)
  | some (n, lo, hi, acc) =>
    match tails n lo hi 0 acc bs with
    | .ok code => .ok (Char.ofNat code, n + 1)
    | .error (good, reason) => .error (good + 1, reason)

/-- One decoded piece: a character, or a fault. -/
inductive Piece where
  | char (c : Char)
  | fault (f : Fault)
  deriving DecidableEq, Repr

/-- Pieces in order; `skip` octets belong to the piece before. -/
def pieces : Nat → Nat → List UInt8 → List Piece
  | _, _, [] => []
  | at_, skip + 1, _ :: bs => pieces (at_ + 1) skip bs
  | at_, 0, b :: bs =>
    match first b bs with
    | .ok (c, n) => .char c :: pieces (at_ + 1) (n - 1) bs
    | .error (n, reason) => .fault ⟨at_, b, n, reason⟩ :: pieces (at_ + 1) (n - 1) bs

def Piece.charOrReplacement : Piece → Char
  | .char c => c
  | .fault _ => '\ufffd'

/-- Every faulty stretch becomes one replacement character. -/
def decodeLossy (bs : List UInt8) : String :=
  String.ofList ((pieces 0 0 bs).map Piece.charOrReplacement)

def collect : List Piece → Except Fault (List Char)
  | [] => .ok []
  | .fault f :: _ => .error f
  | .char c :: ps => (collect ps).map (c :: ·)

def decode (bs : List UInt8) : Except Fault String :=
  (collect (pieces 0 0 bs)).map String.ofList

end ActorOwnership.Text.Utf8
