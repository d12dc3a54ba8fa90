import ActorOwnership.Text.Integer
import ActorOwnership.Text.Quoted

/-! The catalog of hand-off operations: which arguments a call of a given name gives away. -/

namespace ActorOwnership
set_option autoImplicit false

/-- A call whose last name is `name` gives away the positional arguments at `args`, all of them from
`varargsFrom` on, the keyword arguments in `keywords`, and with `varKeywords` every keyword
argument. -/
structure HandOffSpec where
  name : String
  args : List Int := []
  varargsFrom : Option Int := none
  description : String := ""
  keywords : List String := []
  varKeywords : Bool := false
  deriving DecidableEq, Repr, Inhabited

/-- The integers from `first` up to but not including `last`. -/
def intRange (first last : Int) : List Int :=
  (List.range (last - first).toNat).map fun (k : Nat) => first + (k : Int)

theorem mem_intRange {first last i : Int} :
    i ∈ intRange first last ↔ first ≤ i ∧ i < last := by
  simp only [intRange, List.mem_map, List.mem_range]
  constructor
  · rintro ⟨k, hk, rfl⟩
    omega
  · rintro ⟨h₁, h₂⟩
    exact ⟨(i - first).toNat, by omega, by omega⟩

namespace HandOffSpec

/-- The positions given away by a call with `count` positional arguments. -/
def positions (s : HandOffSpec) (count : Nat) : List Int :=
  let listed := s.args.filter fun (i : Int) => 0 ≤ i && i < (count : Int)
  match s.varargsFrom with
  | none => listed
  | some first => (intRange first count).foldl insertPosition listed
where
  insertPosition (seen : List Int) (i : Int) : List Int :=
    if seen.contains i then seen else seen ++ [i]

/-- Whether the keyword argument `keyword` is given away; `**` stands for a splat. -/
def givesKeyword (s : HandOffSpec) (keyword : String) : Bool :=
  s.varKeywords || s.keywords.contains keyword

end HandOffSpec

/-- Hand-off operations with distinct names. -/
abbrev Catalog := List HandOffSpec

namespace Catalog

def find? (c : Catalog) (name : String) : Option HandOffSpec := List.find? (·.name == name) c

/-- Adds an operation, in the place of the one with its name. -/
def insert (c : Catalog) (s : HandOffSpec) : Catalog :=
  if c.any (·.name == s.name) then c.map fun t => if t.name == s.name then s else t
  else c ++ [s]

def actors : Catalog :=
  [⟨"send", [1], none, "Send event to another actor (target, event)",
      ["event", "message", "msg"], false⟩,
   ⟨"tell", [0], none, "Fire-and-forget actor message", ["message", "msg"], false⟩,
   ⟨"ask", [0], none, "Request/response actor message", ["message", "msg"], false⟩]

def machines : Catalog :=
  [⟨"create_machine", [1], none, "Create machine with initial event", ["event"], false⟩,
   ⟨"raise_event", [0], none, "Raise event in own machine", ["event"], false⟩]

def queues : Catalog :=
  [⟨"put", [0], none, "Queue hand-off", ["item", "obj"], false⟩,
   ⟨"put_nowait", [0], none, "Queue hand-off (non-blocking)", ["item", "obj"], false⟩]

def executors : Catalog :=
  [⟨"submit", [], some 1, "Executor task arguments", [], true⟩,
   ⟨"call_soon_threadsafe", [], some 1, "Event loop callback arguments", [], false⟩,
   ⟨"run_in_executor", [], some 2, "Executor task arguments", [], false⟩]

def standard : Catalog := actors ++ machines ++ queues ++ executors

def extended (extra : List HandOffSpec) : Catalog := extra.foldl insert standard

/-- Why a catalog entry cannot be read. -/
inductive EntryError where
  | shape (entry : String)
  | position (entry : String)
  | number (text : String)
  | tooLong (digits : Nat)
  deriving DecidableEq, Repr

def EntryError.message : EntryError → String
  | .shape entry => "expected NAME:POS[,POS], got " ++ Text.quoted entry
  | .position entry => "invalid argument position in " ++ Text.quoted entry
  | .number text => "invalid literal for int() with base 10: " ++
      String.ofList ((Text.quoted text).toList.take 200)
  | .tooLong digits =>
    "Exceeds the limit (4300 digits) for integer string conversion: value has " ++
      toString digits ++ " digits; use sys.set_int_max_str_digits() to increase the limit"

/-- The pieces between the separators; there is always one more piece than separators. -/
def splitChars (sep : Char) : List Char → List (List Char)
  | [] => [[]]
  | c :: cs =>
    match splitChars sep cs with
    | [] => [[]]
    | piece :: pieces => if c = sep then [] :: piece :: pieces else (c :: piece) :: pieces

/-- A position that has digits only, though not each of them need be decimal. -/
def readPosition (entry : String) (cs : List Char) : Except EntryError Int :=
  if Text.allDigits cs then
    match Text.readInteger .decimal (String.ofList cs) with
    | .ok n => .ok n
    | .error .malformed => .error (.number (String.ofList cs))
    | .error (.tooLong digits) => .error (.tooLong digits)
  else .error (.position entry)

/-- Reads the positions into the operation; `N+` sets where the open-ended part begins. -/
def readPositions (entry : String) :
    List (List Char) → HandOffSpec → Except EntryError HandOffSpec
  | [], s => .ok s
  | piece :: pieces, s =>
    let cs := Text.stripChars piece
    if cs.getLast? = some '+' then
      match readPosition entry cs.dropLast with
      | .ok n => readPositions entry pieces { s with varargsFrom := some n }
      | .error e => .error e
    else
      match readPosition entry cs with
      | .ok n => readPositions entry pieces { s with args := s.args ++ [n] }
      | .error e => .error e

/-- Reads an entry `NAME:POS[,POS...]`, where `N+` stands for position `N` and all later ones. -/
def readEntry (entry : String) : Except EntryError HandOffSpec :=
  let name := Text.stripChars (entry.toList.takeWhile (· ≠ ':'))
  match entry.toList.dropWhile (· ≠ ':') with
  | [] => .error (.shape entry)
  | _ :: positions =>
    if name.isEmpty || (Text.stripChars positions).isEmpty then .error (.shape entry)
    else readPositions entry (splitChars ',' positions)
      { name := String.ofList name, description := "user-defined gives-up operation" }

end Catalog

end ActorOwnership
