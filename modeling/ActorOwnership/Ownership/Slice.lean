import ActorOwnership.Flow.Scope

/-! The part of a graph from which a hand-off can be reached, visited backwards. -/

namespace ActorOwnership.Slice
set_option autoImplicit false

/-- Nodes to visit, nodes met, and whether the first node has been met again. -/
structure Frontier where
  queue : List Int
  seen : List Int
  looped : Bool := false
  deriving Repr, Inhabited

/-- Meets a node. The first node is queued once more when it is met again. -/
def Frontier.meet (start : Int) (f : Frontier) (id : Int) : Frontier :=
  let f := if !f.looped && id == start then { f with looped := true, seen := f.seen.erase start }
    else f
  if f.seen.contains id then f else { f with queue := f.queue ++ [id], seen := id :: f.seen }

/-- Visits nodes from the front of the queue; each is given with whether all of it counts. -/
def visits (p : Procedure) (start : Int) : Nat → Frontier → List (Int × Bool)
  | 0, _ => []
  | fuel + 1, f =>
    match f.queue with
    | [] => []
    | id :: queue =>
      (id, f.looped || id != start) ::
        visits p start fuel ((p.predecessors id).foldl (Frontier.meet start) { f with queue })

/-- The number of edges, counted at their targets. -/
def edgeCount (p : Procedure) : Nat := (p.nodes.flatMap Node.preds).length

/-- The nodes on the way to a statement, with the statements of each. On the first visit of its own
node only the statements up to the given one count. -/
def of (p : Procedure) (h : StatementId) : List (Int × List (StatementId × Instr)) :=
  (visits p h.node (edgeCount p + 2) { queue := [h.node], seen := [h.node] }).map fun (id, whole) =>
    let statements := p.statementsAt id
    (id, if whole then statements else statements.take (h.index.toNat + 1))

end ActorOwnership.Slice
