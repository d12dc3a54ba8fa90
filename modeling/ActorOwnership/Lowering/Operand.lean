import ActorOwnership.Lowering.State

/-! Lowering of operands and assignments. A hand-off in the place of a value becomes an instruction of
its own, whose result is read from a temporary. -/

namespace ActorOwnership.Lowering
open Surface
set_option autoImplicit false

/-- The entry at a position, where a negative position counts from the end. -/
def wrapPick? {α : Type} (xs : List α) (i : Int) : Option α :=
  if i < 0 then pick? xs (xs.length + i) else pick? xs i

/-- The indices of the arguments without a keyword. -/
def positionalIndices (keywords : List (Option String)) : List Nat :=
  (keywords.zipIdx.filter fun k => k.1.isNone).map Prod.snd

/-- The indices of the arguments whose keyword is given away. -/
def keywordIndices (spec : HandOffSpec) (keywords : List (Option String)) : List Nat :=
  (keywords.zipIdx.filter fun k => k.1.any spec.givesKeyword).map Prod.snd

/-- The indices of the arguments that a hand-off gives away, keyword arguments last. -/
def givenUpIndices (spec : HandOffSpec) (keywords : List (Option String)) : List Int :=
  let positional := positionalIndices keywords
  let picked := (spec.positions positional.length).filterMap (wrapPick? positional)
  (picked ++ keywordIndices spec keywords).map fun (k : Nat) => (k : Int)

/-- The action of a call: a hand-off when the catalog has its name. -/
def callAction (catalog : Catalog) (ret : Option String) (name : String) (receiver : Option Exp)
    (keywords : List (Option String)) (args : List Exp) : Action :=
  let i : Invocation := ⟨.const (.text name), args, receiver⟩
  match catalog.find? name with
  | some spec => .handOff ret i (givenUpIndices spec keywords) spec.description
  | none => .call ret i

mutual

/-- The expression of an operand, after the hand-off that it is, if it is one. -/
def lowerOperand (catalog : Catalog) (loc : Location) : Operand → State → Exp × State
  | .value e, s => (e, s)
  | .call name receiver args, s =>
    if (catalog.find? name).isSome then
      let (temp, s) := s.newTemp
      let (es, s) := lowerArguments catalog loc args s
      (.var temp,
        s.emit loc (callAction catalog (some temp) name receiver (args.map Argument.keyword) es))
    else ((Operand.call name receiver args).toExp, s)

def lowerArguments (catalog : Catalog) (loc : Location) : List Argument → State → List Exp × State
  | [], s => ([], s)
  | .mk _ v :: as, s =>
    let (e, s) := lowerOperand catalog loc v s
    let (es, s) := lowerArguments catalog loc as s
    (e :: es, s)

end

/-- A call as an instruction. The empty name receives no result. -/
def lowerCall (catalog : Catalog) (loc : Location) (ret : Option String) (name : String)
    (receiver : Option Exp) (args : List Argument) (s : State) : State :=
  let (es, s) := lowerArguments catalog loc args s
  s.emit loc (callAction catalog (ret.filter (· ≠ "")) name receiver
    (args.map Argument.keyword) es)

/-! ### Assignments -/

def writeTarget (loc : Location) (value : Exp) (s : State) : Target → State
  | .name id => s.emit loc (.assign id value)
  | .path _ e => s.emit loc (.store e value)

/-- Writes one value to all targets; a call that several targets take apart is evaluated once. -/
def writeTargets (loc : Location) (targets : List Target) (value : Exp) (s : State) : State :=
  match value with
  | .call .. =>
    if 1 < targets.length then
      let (temp, s) := s.newTemp
      targets.foldl (writeTarget loc (.var temp)) (s.emit loc (.assign temp value))
    else targets.foldl (writeTarget loc value) s
  | _ => targets.foldl (writeTarget loc value) s

/-- Assigns an operand; a call assigned to a plain name is an instruction. -/
def assignOperand (catalog : Catalog) (loc : Location) (d : Destination) (v : Operand) (s : State) :
    State :=
  match d, v with
  | .name id, .call name receiver args => lowerCall catalog loc (some id) name receiver args s
  | d, v =>
    let (e, s) := lowerOperand catalog loc v s
    writeTargets loc d.targets e s

/-- Assigns an operand to a temporary. -/
def assignTemp (catalog : Catalog) (loc : Location) (v : Operand) (s : State) : String × State :=
  let (temp, s) := s.newTemp
  match v with
  | .call name receiver args => (temp, lowerCall catalog loc (some temp) name receiver args s)
  | .value e => (temp, s.emit loc (.assign temp e))

/-- Reads the values of all pairs into temporaries. -/
def assignTemps (catalog : Catalog) (loc : Location) : List Pair → State → List Exp × State
  | [], s => ([], s)
  | p :: ps, s =>
    let (temp, s) := assignTemp catalog loc p.value s
    let (temps, s) := assignTemps catalog loc ps s
    (.var temp :: temps, s)

/-- Whether some value mentions some target. -/
def overlaps (pairs : List Pair) : Bool :=
  let names := pairs.flatMap fun p => p.destination.targets.map Target.text
  pairs.any fun p => p.mentions.any names.contains

/-- Assigns pair by pair, or, when a value mentions a target, through temporaries. -/
def assignPairs (catalog : Catalog) (loc : Location) (pairs : List Pair) (s : State) : State :=
  if overlaps pairs then
    let (temps, s) := assignTemps catalog loc pairs s
    (pairs.zip temps).foldl (fun s (p, e) => writeTargets loc p.destination.targets e s) s
  else pairs.foldl (fun s p => assignOperand catalog loc p.destination p.value s) s

def lowerWithItem (catalog : Catalog) (loc : Location) (s : State) (item : WithItem) : State :=
  match item.alias_, item.value with
  | some d, v => assignOperand catalog loc d v s
  | none, .call name receiver args => lowerCall catalog loc none name receiver args s
  | none, .value _ => s

end ActorOwnership.Lowering
