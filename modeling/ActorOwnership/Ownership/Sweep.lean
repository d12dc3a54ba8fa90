import ActorOwnership.Ownership.Liveness
import ActorOwnership.Ownership.Point
import ActorOwnership.Ownership.Slice
import ActorOwnership.Ownership.Violation

/-! The sweep from a hand-off: every field that may alias the value given away, and that is read again
before it is replaced, is a violation. -/

namespace ActorOwnership
set_option autoImplicit false

inductive SweepError where
  | unknownProcedure (name : String)
  | foreignStatement (statement : StatementId) (procedure : String)
  | unknownPass (name : String)
  /-- The pass has no rule for a statement. -/
  | noRule
  deriving DecidableEq, Repr, Inhabited

/-- A set of rules for statements. The abstract pass has only the rule for library calls. -/
inductive Pass where
  | abstract_
  | givesUp
  deriving DecidableEq, Repr, Inhabited

namespace Pass

def names : List (String × Pass) := [("gives-up", .givesUp)]

def ofName (name : String) : Except SweepError Pass :=
  match names.lookup name with
  | some p => .ok p
  | none => .error (.unknownPass name)

end Pass

def SweepError.message : SweepError → String
  | .unknownProcedure name => "unknown procedure: " ++ name
  | .foreignStatement s p => "hand-off statement " ++ s.render ++ " is not in " ++ p
  | .unknownPass name =>
    "unknown ownership pass: " ++ Text.quoted name ++ " (available: " ++
      String.intercalate ", " (Pass.names.map Prod.fst) ++ ")"
  | .noRule => ""

/-- What a sweep is about. -/
structure Sweep where
  context : Context
  pass : Pass
  point : HandOffPoint
  flow : Flow
  deriving Inhabited

namespace Sweep

structure State where
  table : SummaryTable
  /-- Answers on liveness so far. -/
  live : List (Symbol × Bool) := []
  violations : List Violation := []
  deriving Inhabited

abbrev M := ExceptT SweepError (StateM State)

variable (w : Sweep)

def procedure : Procedure := w.flow.scope.procedure

/-- Asks the summary table. -/
def withTable {α : Type} (m : StateM SummaryTable α) : M α := do
  let s ← get
  let (a, table) := m.run s.table
  set { s with table }
  return a

def rule : M Unit := if w.pass = .abstract_ then throw .noRule else pure ()

/-! ### Checks -/

/-- Whether a field is read after the hand-off before it is replaced; asked once per sweep. -/
def isLive (symbol : Symbol) : M Bool := do
  match (← get).live.lookup symbol with
  | some b => return b
  | none =>
    let b ← withTable (Liveness.isReadBeforeReset w.context symbol w.procedure.name
      (some w.point.statement) true)
    modify fun s => { s with live := (symbol, b) :: s.live }
    return b

def report (trace : Trace) (id : StatementId) (symbol : Symbol) : M Unit :=
  modify fun s => { s with
    violations := s.violations ++ [⟨trace.addAccess (w.procedure.locationOf id), symbol⟩] }

/-- Whether the value of a symbol at a statement may be part of what is given away. -/
def reachesPoint (symbol : Symbol) (id : StatementId) : Bool :=
  w.flow.flowsInto symbol w.point.symbol id w.point.statement

/-- Reports a live field that may alias the value given away. -/
def check (trace : Trace) (id : StatementId) (symbol : Symbol) : M Unit := do
  if w.reachesPoint symbol id && symbol.isField then
    if ← w.isLive symbol then w.report trace id symbol

def checkAll (trace : Trace) (id : StatementId) : List Symbol → M Unit
  | [] => pure ()
  | s :: rest => do
    w.check trace id s
    checkAll trace id rest

def anyLive : List Symbol → M Bool
  | [] => pure false
  | s :: rest => do
    if ← w.isLive s then return true
    else anyLive rest

/-! ### Calls -/

/-- Reports arguments that alias the value given away and are stored in a live field by a callee. -/
def checkArguments (trace : Trace) (id : StatementId) (callee : Summary) :
    List (Exp × Nat) → M Unit
  | [] => pure ()
  | (arg, k) :: rest => do
    match w.flow.scope.resolve arg with
    | none => pure ()
    | some symbol =>
      if w.reachesPoint symbol id then
        if ← w.anyLive (callee.fieldsWrittenFrom k) then w.report trace id symbol
    checkArguments trace id callee rest

/-- The symbols that the result of a call may alias, once the call itself has been checked. -/
def followCall (trace : Trace) (id : StatementId) (i : Invocation) : M (List Symbol) := do
  match w.context.program.resolveCallee i w.procedure with
  | none => return w.flow.scope.callSources i
  | some callee =>
    let summary ← withTable (SummaryTable.request w.context callee.name)
    w.rule
    w.checkArguments trace id summary i.args.zipIdx
    return summary.resultSymbols i w.procedure

/-- Checks a call and what its result may alias. -/
def checkCall (trace : Trace) (id : StatementId) (i : Invocation) : M Unit := do
  let symbols ← w.followCall trace id i
  w.checkAll trace id symbols

/-! ### Expressions -/

mutual

/-- The access paths and calls that the value of an expression may be. -/
def valueParts : Exp → List Exp
  | .aggregate elements => valuePartsAll elements
  | .ternary _ yes no => valueParts yes ++ valueParts no
  | .var name => [.var name]
  | .field base name => [.field base name]
  | .index base key => [.index base key]
  | .call func args receiver => [.call func args receiver]
  | _ => []

def valuePartsAll : List Exp → List Exp
  | [] => []
  | e :: es => valueParts e ++ valuePartsAll es

end

/-- Checks an access path or a call; what happens in a call is traced to it. -/
def checkPart (trace : Trace) (id : StatementId) : Exp → M Unit
  | .call func args receiver =>
    w.checkCall (trace.insertCall w.procedure.name (w.procedure.locationOf id)) id
      ⟨func, args, receiver⟩
  | e => w.checkAll trace id (w.flow.scope.resolve e).toList

def checkParts (trace : Trace) (id : StatementId) : List Exp → M Unit
  | [] => pure ()
  | e :: rest => do
    w.checkPart trace id e
    checkParts trace id rest

/-! ### Statements -/

/-- Checks the written symbol and the value of an assignment. -/
def checkAssignment (trace : Trace) (id : StatementId) (written : Option Symbol) (value : Exp) :
    M Unit := do
  w.rule
  w.checkAll trace id written.toList
  w.checkParts trace id (valueParts value)

/-- At the hand-off itself the field that is given away must not be live. -/
def checkHandOff (trace : Trace) (id : StatementId) : M Unit := do
  w.rule
  if id = w.point.statement && w.point.symbol.isField then
    if ← w.isLive w.point.symbol then w.report trace id w.point.symbol

def checkStatement (trace : Trace) (id : StatementId) : Action → M Unit
  | .declare name _ (some init) =>
    w.checkAssignment trace id (some (w.flow.scope.symbolOf name)) init
  | .assign name value => w.checkAssignment trace id (some (w.flow.scope.symbolOf name)) value
  | .store target value => w.checkAssignment trace id (w.flow.scope.resolve target) value
  | .handOff .. => w.checkHandOff trace id
  | .call _ i =>
    if id = w.point.statement then w.checkHandOff trace id else w.checkCall trace id i
  | _ => pure ()

def checkStatements (trace : Trace) : List (StatementId × Instr) → M Unit
  | [] => pure ()
  | (id, instr) :: rest => do
    w.checkStatement trace id instr.action
    checkStatements trace rest

/-- The sweep over the slice. The field that is given away is looked at first. -/
def perform (trace : Trace) : M (List Violation × List Int) := do
  let _ ← withTable (SummaryTable.request w.context w.procedure.name)
  if w.point.symbol.isField then
    let _ ← w.isLive w.point.symbol
  let slice := Slice.of w.procedure w.point.statement
  w.checkStatements trace (slice.flatMap Prod.snd)
  return ((← get).violations, slice.map Prod.fst)

end Sweep

namespace HandOffPoint

/-- The sweep of a point, if the point lies in its procedure. -/
def sweep (h : HandOffPoint) (c : Context) (pass : Pass) : Except SweepError Sweep :=
  match c.flow? h.procedure with
  | none => .error (.unknownProcedure h.procedure)
  | some f =>
    if f.scope.procedure.contains h.statement then .ok ⟨c, pass, h, f⟩
    else .error (.foreignStatement h.statement f.scope.procedure.name)

/-- The trace that a sweep starts from unless another one is given. -/
def initialTrace (h : HandOffPoint) (p : Procedure) : Trace :=
  { method := some p.name, className := p.className, symbol := some h.symbol }

/-- The violations and examined nodes of a point. What was reported before an error stays reported. -/
def run (h : HandOffPoint) (c : Context) (pass : Pass) (trace : Option Trace) (t : SummaryTable) :
    Except SweepError (List Violation × List Int) × Sweep.State :=
  match h.sweep c pass with
  | .error e => (.error e, { table := t })
  | .ok w => (w.perform (trace.getD (h.initialTrace w.procedure))).run.run { table := t }

end HandOffPoint

end ActorOwnership
