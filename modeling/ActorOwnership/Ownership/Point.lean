import ActorOwnership.Summary.Table

/-! Hand-off points: symbols whose values are given away at a statement, directly or by a callee. -/

namespace ActorOwnership
set_option autoImplicit false

structure HandOffPoint where
  symbol : Symbol
  statement : StatementId
  procedure : String
  deriving DecidableEq, Repr, Inhabited

namespace HandOffPoint

def render (h : HandOffPoint) : String :=
  h.symbol.render ++ " given up at " ++ h.statement.render

/-- The arguments that a statement gives away. -/
def handedOff (c : Context) (p : Procedure) (a : Action) : StateM SummaryTable (List Exp) :=
  match a with
  | .handOff .. => pure a.givenUpArgs
  | .call _ i =>
    match c.program.resolveCallee i p with
    | none => pure []
    | some callee => do
      let s ← SummaryTable.request c callee.name
      return (sortPositions s.givenUpParams).filterMap fun k => i.args[k]?
  | _ => pure []

/-- The points of one statement. -/
def ofStatement (c : Context) (f : Flow) (statement : StatementId × Instr) :
    StateM SummaryTable (List HandOffPoint) := do
  let args ← handedOff c f.scope.procedure statement.2.action
  return (args.flatMap Summary.handedParts).flatMap fun part =>
    (f.scope.flowing part).map fun s => ⟨s, statement.1, f.scope.procedure.name⟩

/-- The points of a list of statements, in order. -/
def ofStatements (c : Context) :
    List (Flow × StatementId × Instr) → StateM SummaryTable (List HandOffPoint)
  | [] => pure []
  | (f, s) :: rest => do
    let first ← ofStatement c f s
    return first ++ (← ofStatements c rest)

/-- All points of a program, each once. -/
def discover (c : Context) : StateM SummaryTable (List HandOffPoint) := do
  let statements := c.flows.flatMap fun f => f.scope.procedure.statements.map fun s => (f, s)
  return distinct (← ofStatements c statements)

end HandOffPoint

end ActorOwnership
