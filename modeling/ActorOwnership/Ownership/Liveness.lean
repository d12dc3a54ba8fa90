import ActorOwnership.Summary.Table

/-! Liveness: whether a field may be read again before it is replaced.

A way that leaves the procedure keeps the field alive for the other methods of its class, except the
constructor, which are then followed from their own entries. -/

namespace ActorOwnership.Liveness
set_option autoImplicit false

/-- How the way through some statements ends for a field. -/
inductive Passage where
  | read
  | reset
  | through
  deriving DecidableEq, Repr

/-- The first statement that reads or replaces the field decides. -/
def passage (reads : StatementId → StateM SummaryTable Bool)
    (resets : SummaryTable → StatementId → Bool) :
    List StatementId → StateM SummaryTable Passage
  | [] => pure .through
  | id :: rest => do
    if ← reads id then return .read
    else if resets (← get) id then return .reset
    else passage reads resets rest

/-- Follows all ways from the queue, nearest nodes first. The answer is `read` if one of them reads
the field, and otherwise `through` if one of them gets to an end. -/
def explore (p : Procedure) (pass : List StatementId → StateM SummaryTable Passage) :
    Nat → List (Int × Nat) → List Int → Bool → StateM SummaryTable Passage
  | 0, _, _, escaped => pure (if escaped then .through else .reset)
  | _, [], _, escaped => pure (if escaped then .through else .reset)
  | fuel + 1, (id, skip) :: queue, seen, escaped =>
    match p.node? id with
    | none => explore p pass fuel queue seen escaped
    | some n => do
      match ← pass (((p.statementsOf n).map Prod.fst).drop skip) with
      | .read => return .read
      | .reset => explore p pass fuel queue seen escaped
      | .through =>
        let new := (distinct n.succs).filter fun s => !seen.contains s
        explore p pass fuel (queue ++ new.map fun s => (s, 0)) (seen ++ new)
          (escaped || n.succs.isEmpty)

/-- Where to start: just behind a statement of the procedure, or at its entry. -/
def startOf (p : Procedure) (after : Option StatementId) : Int × Nat :=
  match after with
  | some s => if p.contains s then (s.node, s.index.toNat + 1) else (p.entry, 0)
  | none => (p.entry, 0)

/-- Whether a statement reads the field, directly or by a call on the same object. -/
def readsAt (c : Context) (f : Flow) (field : Symbol) (ask : String → StateM SummaryTable Bool)
    (id : StatementId) : StateM SummaryTable Bool :=
  if (f.readsAt id).contains field then pure true
  else match c.selfCallee? f id with
    | some callee => ask callee.name
    | none => pure false

/-- The first name for which the answer is yes ends the search. -/
def anyOf (ask : String → StateM SummaryTable Bool) : List String → StateM SummaryTable Bool
  | [] => pure false
  | name :: rest => do
    if ← ask name then return true
    else anyOf ask rest

/-- The methods that may run on the object when `p` is done and has left the field alive. -/
def successors (c : Context) (p : Procedure) (field : Symbol) : List String :=
  match p.className with
  | some cls =>
    if cls ≠ "" && field.owner = cls then
      ((c.program.methodsOf cls).filter fun q => q.name ≠ p.name && !q.isConstructor).map
        Procedure.name
    else []
  | none => []

/-- The search with a bound on nested calls; `active` holds the procedures being followed. -/
def searchWithin (c : Context) (field : Symbol) :
    Nat → List String → Bool → Option StatementId → String → StateM SummaryTable Bool
  | 0, _, _, _, _ => pure false
  | fuel + 1, active, escalate, after, name =>
    match c.flow? name with
    | none => pure false
    | some f =>
      if active.contains name then pure false
      else do
        let p := f.scope.procedure
        let ask (other : String) : StateM SummaryTable Bool := do
          let _ ← SummaryTable.request c other
          searchWithin c field fuel (name :: active) false none other
        let pass := passage (readsAt c f field ask) fun t => Summary.resetsAt c t f field
        match ← explore p pass (p.edgeCount + 2) [startOf p after] [] false with
        | .read => return true
        | .reset => return false
        | .through => if escalate then anyOf ask (successors c p field) else return false

/-- Whether some way from behind a statement, or from the entry of a procedure, reads a field before
replacing it. With `escalate` the other methods of the class count too. -/
def isReadBeforeReset (c : Context) (field : Symbol) (name : String) (after : Option StatementId)
    (escalate : Bool) : StateM SummaryTable Bool :=
  if field.isField then
    searchWithin c field (c.program.procedures.length + 1) [] escalate after name
  else pure false

end ActorOwnership.Liveness
