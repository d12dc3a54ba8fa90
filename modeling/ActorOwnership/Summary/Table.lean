import ActorOwnership.Flow.Context
import ActorOwnership.Summary.Basic

/-! The table of summaries. A summary is made when it is first asked for, and kept. While it is being
made, a request for it gets a blank one, so that recursive procedures come to an end. -/

namespace ActorOwnership
set_option autoImplicit false

/-- Finished summaries in the order in which they were finished. -/
abbrev SummaryTable := List Summary

namespace SummaryTable

def find? (t : SummaryTable) (name : String) : Option Summary :=
  List.find? (fun s => s.procedure == name) t

def contains (t : SummaryTable) (name : String) : Bool := (t.find? name).isSome

/-- The fields that a call of a procedure is known to replace. -/
def resetsOf (t : SummaryTable) (name : String) : List Symbol :=
  ((t.find? name).map Summary.resets).getD []

end SummaryTable

namespace Summary

/-! ### Resets -/

/-- Whether a statement replaces a field, directly or by a call on the same object. -/
def resetsAt (c : Context) (t : SummaryTable) (f : Flow) (field : Symbol) (id : StatementId) :
    Bool :=
  f.resets field id || (c.selfCallee? f id).any fun p => (t.resetsOf p.name).contains field

/-- Whether some way from the queue leads to the end without a statement that replaces the field. -/
def escapes (p : Procedure) (isReset : StatementId → Bool) : Nat → List Int → List Int → Bool
  | 0, _, _ => false
  | _, [], _ => false
  | fuel + 1, id :: queue, seen =>
    match p.node? id with
    | none => escapes p isReset fuel queue seen
    | some n =>
      if (p.statementsOf n).any fun s => isReset s.1 then escapes p isReset fuel queue seen
      else if n.succs.isEmpty then true
      else
        let new := (distinct n.succs).filter fun s => !seen.contains s
        escapes p isReset fuel (queue ++ new) (seen ++ new)

/-- Whether no way from entry to end keeps the incoming value of a field. -/
def resetsOnEveryPath (p : Procedure) (isReset : StatementId → Bool) : Bool :=
  !escapes p isReset (p.edgeCount + 2) [p.entry] [p.entry]

/-! ### Building -/

/-- Adds positions to the entry of a field, if there are any. -/
def addStore (s : Summary) (field : Symbol) (positions : List Nat) : Summary :=
  if positions.isEmpty then s
  else { s with stores := updateEntry s.stores field [] fun ps => union ps positions }

def addReads (s : Summary) (f : Fact) : Summary :=
  (f.reads.filter Symbol.isField).foldl
    (fun s x => { s with fieldReads := updateEntry s.fieldReads x [] (· ++ [f.statement]) }) s

/-- What one effect on a field adds. -/
def addEffect (flow : Flow) (id : StatementId) (s : Summary) (e : Effect) : Summary :=
  let s := if e.strong then
      { s with fieldWrites := updateEntry s.fieldWrites e.symbol [] (· ++ [id]) }
    else s
  s.addStore e.symbol (flow.parameterPositions (flow.origins.of ⟨e.symbol, some id⟩))

def addEffects (s : Summary) (flow : Flow) (f : Fact) : Summary :=
  (f.effects.filter fun e => e.symbol.isField).foldl (addEffect flow f.statement) s

/-- The positions whose incoming values an expression may hold. -/
def positionsOf (flow : Flow) (id : StatementId) (e : Exp) : List Nat :=
  flow.parameterPositions (flow.valueSetOf e id)

def addReturn (s : Summary) (flow : Flow) (id : StatementId) (value : Exp) : Summary :=
  let values := flow.valueSetOf value id
  { s with
    returnedFields := union s.returnedFields
      ((values.map Definition.symbol).filter Symbol.isField)
    returnedParams := union s.returnedParams (flow.parameterPositions values) }

/-- What is handed off with an argument: of a call, its arguments. -/
def handedParts : Exp → List Exp
  | .call _ args _ => args
  | e => [e]

def addGivenUp (s : Summary) (flow : Flow) (id : StatementId) (parts : List Exp) : Summary :=
  { s with givenUpParams := union s.givenUpParams (parts.flatMap (positionsOf flow id)) }

/-- What a statement does by itself. -/
def addStatement (s : Summary) (flow : Flow) (id : StatementId) (a : Action) : Summary :=
  let s := match flow.fact? id with
    | some f => (s.addReads f).addEffects flow f
    | none => s
  match a with
  | .return_ (some value) => s.addReturn flow id value
  | .handOff .. => s.addGivenUp flow id (a.givenUpArgs.flatMap handedParts)
  | _ => s

/-- What a call does through its callee. -/
def addCallee (s : Summary) (flow : Flow) (id : StatementId) (i : Invocation) (callee : Summary) :
    Summary :=
  let s := s.addGivenUp flow id (callee.givenUpParams.filterMap fun k => i.args[k]?)
  if i.receiver.any flow.scope.isSelf then
    callee.stores.foldl (fun s x =>
      s.addStore x.1 ((x.2.filterMap fun k => i.args[k]?).flatMap (positionsOf flow id))) s
  else s

/-- Fields that a call on the same object may replace. -/
def calleeResets (flow : Flow) (i : Invocation) (callee : Summary) : List Symbol :=
  if i.receiver.any flow.scope.isSelf then callee.resets else []

/-- Goes through the statements and asks for the summary of each callee. The fields are those that
callees replace. -/
def gather (c : Context) (flow : Flow) (request : String → StateM SummaryTable Summary) :
    List (StatementId × Instr) → Summary → List Symbol →
    StateM SummaryTable (Summary × List Symbol)
  | [], s, fields => pure (s, fields)
  | (id, instr) :: rest, s, fields => do
    let s := s.addStatement flow id instr.action
    match instr.action.invocation? with
    | none => gather c flow request rest s fields
    | some i =>
      match c.program.resolveCallee i flow.scope.procedure with
      | none => gather c flow request rest s fields
      | some callee =>
        let summary ← request callee.name
        gather c flow request rest (s.addCallee flow id i summary)
          (union fields (calleeResets flow i summary))

/-- The summary of a procedure, given a way to get the summaries of others. -/
def build (c : Context) (flow : Flow) (request : String → StateM SummaryTable Summary) :
    StateM SummaryTable Summary := do
  let p := flow.scope.procedure
  let (s, fields) ← gather c flow request p.statements (blank p) []
  let t ← get
  let candidates := union fields (s.fieldWrites.map Prod.fst)
  return { s with
    resets := candidates.filter fun x => resetsOnEveryPath p (resetsAt c t flow x) }

end Summary

namespace SummaryTable

/-- The summary of a name, made if it is missing; `path` holds the names whose summaries are being
made. A name outside the program has an empty one, which is not kept. -/
def requestWithin (c : Context) : Nat → List String → String → StateM SummaryTable Summary
  | fuel, path, name => do
    match (← get).find? name, c.program.find? name, c.flow? name with
    | some s, _, _ => return s
    | none, some p, some flow =>
      if path.contains name then return Summary.blank p
      else match fuel with
        | 0 => return Summary.blank p
        | fuel + 1 =>
          let s ← Summary.build c flow (requestWithin c fuel (name :: path))
          modify (· ++ [s])
          return s
    | none, _, _ => return { procedure := name }

/-- The summary of a name. Each name is on the path at most once, so the fuel is enough. -/
def request (c : Context) (name : String) : StateM SummaryTable Summary :=
  requestWithin c (c.program.procedures.length + 1) [] name

end SummaryTable

end ActorOwnership
