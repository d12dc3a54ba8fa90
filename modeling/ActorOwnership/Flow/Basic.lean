import ActorOwnership.Flow.Origin

/-! The flow of values in one procedure. Two symbols flow into each other between two statements when
their values may have a definition in common. -/

namespace ActorOwnership
set_option autoImplicit false

structure Flow where
  scope : Scope
  /-- Statements by node and position. -/
  facts : List Fact
  /-- All symbols in the order in which they are met. -/
  symbols : List Symbol
  outcomes : Outcomes
  /-- The definitions before and after each statement. -/
  states : List (StatementId × Reach × Reach)
  origins : Origins
  deriving Inhabited

namespace Flow

def factsAt (s : Scope) (id : Int) : List Fact :=
  (s.procedure.statementsAt id).map (Fact.ofStatement s)

/-- Parameters first, then the symbols of the statements. -/
def symbolsOf (s : Scope) (facts : List Fact) : List Symbol :=
  distinct (s.procedure.paramNames.map s.symbolOf ++ facts.flatMap Fact.symbols)

def graphOf (s : Scope) (symbols : List Symbol) : FactGraph where
  entry := s.procedure.entry
  initial := symbols.map fun x => ⟨x, none⟩
  nodes := s.procedure.reversePostorder.map fun id =>
    (id, s.procedure.predecessors id, factsAt s id)

def stateBefore (states : List (StatementId × Reach × Reach)) (id : StatementId) : Reach :=
  ((states.lookup id).map Prod.fst).getD []

/-- The writes of the statements, each with what holds before it and with its sources. -/
def writesOf (facts : List Fact) (states : List (StatementId × Reach × Reach)) :
    List (Definition × Reach × List Symbol) :=
  facts.flatMap fun f =>
    f.effects.map fun e => (⟨e.symbol, some f.statement⟩, stateBefore states f.statement, e.sources)

def ofScope (s : Scope) : Flow :=
  let facts := s.procedure.statements.map (Fact.ofStatement s)
  let symbols := symbolsOf s facts
  let g := graphOf s symbols
  let outcomes := g.solve
  let states := g.states outcomes
  let writes := writesOf facts states
  { scope := s, facts, symbols, outcomes, states
    origins := Origins.solve (g.initial ++ writes.map Prod.fst) writes }

/-! ### Statements -/

def fact? (f : Flow) (id : StatementId) : Option Fact := f.facts.find? (·.statement == id)

def effectsAt (f : Flow) (id : StatementId) : List Effect := ((f.fact? id).map Fact.effects).getD []

def readsAt (f : Flow) (id : StatementId) : List Symbol := ((f.fact? id).map Fact.reads).getD []

def defines (f : Flow) (symbol : Symbol) (id : StatementId) : Bool :=
  (f.fact? id).any (·.defines symbol)

def resets (f : Flow) (symbol : Symbol) (id : StatementId) : Bool :=
  (f.fact? id).any (·.resets symbol)

/-- Whether the analysis knows what holds at a statement. -/
def covers (f : Flow) (id : StatementId) : Bool := (f.states.lookup id).isSome

/-- The definitions that hold before a statement, or after it. -/
def stateAt (f : Flow) (id : StatementId) (after : Bool) : Reach :=
  match f.states.lookup id with
  | some (before, behind) => if after then behind else before
  | none => []

/-! ### Values -/

def reaching (f : Flow) (symbol : Symbol) (id : StatementId) (after : Bool) : Reach :=
  (f.stateAt id after).of symbol

/-- Every definition whose value a symbol may hold at a statement. -/
def valueSet (f : Flow) (symbol : Symbol) (id : StatementId) (after : Bool) : Reach :=
  f.origins.ofSymbol (f.stateAt id after) symbol

/-- Every definition whose value an expression may hold just before a statement. -/
def valueSetOf (f : Flow) (e : Exp) (id : StatementId) : Reach :=
  (f.scope.flowing e).foldl (fun v s => union v (f.valueSet s id false)) []

/-- Whether the value of `source` at one statement may be part of `target` at another. A statement
that writes `source` counts with the value that it writes. -/
def flowsInto (f : Flow) (source target : Symbol) (start stop : StatementId) : Bool :=
  if f.covers start && f.covers stop then
    (f.valueSet source start (f.defines source start)).any (f.valueSet target stop false).contains
  else source == target

/-- The positions of the parameters whose incoming values are among `values`. -/
def parameterPositions (f : Flow) (values : Reach) : List Nat :=
  distinct (values.filterMap fun d =>
    if d.isEntry && d.symbol.kind == .parameter then
      f.scope.procedure.paramPosition d.symbol.name
    else none)

end Flow

end ActorOwnership
