import ActorOwnership.Procedure.Basic

/-! Orders on the nodes of a graph: by name, breadth first, and reverse postorder. -/

namespace ActorOwnership.Procedure
set_option autoImplicit false

/-- The names of all nodes, in increasing order. -/
def sortedIds (p : Procedure) : List Int := (p.nodes.map Node.id).mergeSort fun a b => a ≤ b

def sortedNodes (p : Procedure) : List Node := p.sortedIds.filterMap p.node?

/-- Every statement, by the name of its node and its position there. -/
def statements (p : Procedure) : List (StatementId × Instr) :=
  p.sortedNodes.flatMap p.statementsOf

def edgeCount (p : Procedure) : Nat := (p.nodes.flatMap Node.succs).length

/-- Takes nodes from the front of the queue and appends their successors; a node counts once. -/
def breadthFirstFrom (p : Procedure) : Nat → List Int → List Int → List Int
  | 0, _, seen => seen.reverse
  | _, [], seen => seen.reverse
  | fuel + 1, id :: queue, seen =>
    if seen.contains id || !p.hasNode id then p.breadthFirstFrom fuel queue seen
    else p.breadthFirstFrom fuel (queue ++ p.successors id) (id :: seen)

/-- The nodes that the entry reaches, nearest first. -/
def breadthFirst (p : Procedure) : List Int := p.breadthFirstFrom (p.edgeCount + 2) [p.entry] []

/-- Depth-first visit of one node: the nodes seen, and the finished nodes with the last one first. -/
def finish (p : Procedure) : Nat → List Int × List Int → Int → List Int × List Int
  | 0, s, _ => s
  | fuel + 1, (seen, done), id =>
    if seen.contains id || !p.hasNode id then (seen, done)
    else
      let s := (p.successors id).foldl (p.finish fuel) (id :: seen, done)
      (s.1, id :: s.2)

/-- Reverse postorder from the entry; the nodes that it does not reach follow by name. -/
def reversePostorder (p : Procedure) : List Int :=
  let s := p.finish (p.nodes.length + 1) ([], []) p.entry
  s.2 ++ p.sortedIds.filter fun id => !s.1.contains id

end ActorOwnership.Procedure
