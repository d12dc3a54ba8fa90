import ActorOwnership.Collections
import ActorOwnership.Instruction

/-! Procedures and their control-flow graphs. Nodes are kept in the order in which they were added and
are named by integers; an edge is recorded at both of its ends. -/

namespace ActorOwnership
set_option autoImplicit false

inductive NodeKind where
  | entry
  | exit
  | normal
  | join
  | loopHead
  | exception
  deriving DecidableEq, Repr, Inhabited

namespace NodeKind

def label : NodeKind → String
  | .entry => "ENTRY"
  | .exit => "EXIT"
  | .normal => "NORMAL"
  | .join => "JOIN"
  | .loopHead => "LOOP_HEAD"
  | .exception => "EXCEPTION"

def all : List NodeKind := [.entry, .exit, .normal, .join, .loopHead, .exception]

def ofLabel (s : String) : NodeKind := (all.find? (·.label == s)).getD .normal

end NodeKind

/-- A node: its instructions in order, and the nodes before and after it. -/
structure Node where
  id : Int
  kind : NodeKind := .normal
  instrs : List Instr := []
  succs : List Int := []
  preds : List Int := []
  deriving Repr, Inhabited

namespace Node

def addInstr (n : Node) (i : Instr) : Node := { n with instrs := n.instrs ++ [i] }

def addSucc (n : Node) (id : Int) : Node := { n with succs := insertNew n.succs id }

def addPred (n : Node) (id : Int) : Node := { n with preds := insertNew n.preds id }

def renderIds (ids : List Int) : String :=
  "[" ++ String.intercalate ", " (ids.map toString) ++ "]"

def render (n : Node) : String :=
  let head := "Node " ++ toString n.id ++ " (" ++ n.kind.label ++ "):"
  let body := n.instrs.map fun i => "  " ++ i.render
  let edges := if n.succs.isEmpty then [] else ["  -> " ++ renderIds n.succs]
  String.intercalate "\n" (head :: body ++ edges)

end Node

/-- Names one instruction: procedure, node, and position in the node. -/
structure StatementId where
  procedure : String
  node : Int
  index : Int
  deriving DecidableEq, Repr, Inhabited

namespace StatementId

def render (s : StatementId) : String :=
  s.procedure ++ "@" ++ toString s.node ++ ":" ++ toString s.index

/-- Order by procedure name, then node, then position. -/
def le (s t : StatementId) : Bool :=
  if s.procedure ≠ t.procedure then decide (s.procedure < t.procedure)
  else if s.node ≠ t.node then decide (s.node < t.node)
  else decide (s.index ≤ t.index)

end StatementId

/-- A function or method with its graph. Parameters include the receiver of a method. -/
structure Procedure where
  name : String
  params : List (String × TypeNote) := []
  nodes : List Node := []
  entry : Int := 0
  exit : Int := -1
  loc : Option Location := none
  isMethod : Bool := false
  className : Option String := none
  isStatic : Bool := false
  isConstructor : Bool := false
  nextId : Int := 0
  deriving Repr, Inhabited

namespace Procedure

/-! ### Nodes and edges -/

def node? (p : Procedure) (id : Int) : Option Node := p.nodes.find? (·.id == id)

def hasNode (p : Procedure) (id : Int) : Bool := p.nodes.any (·.id == id)

/-- Puts a node into the graph, in the place of the node with its name if there is one. -/
def addNode (p : Procedure) (n : Node) : Procedure :=
  { p with
    nodes := if p.hasNode n.id then p.nodes.map fun m => if m.id == n.id then n else m
      else p.nodes ++ [n]
    nextId := if p.nextId ≤ n.id then n.id + 1 else p.nextId }

/-- A node with an unused name; it is not yet in the graph. -/
def freshNode (p : Procedure) (kind : NodeKind) : Node × Procedure :=
  ({ id := p.nextId, kind := kind }, { p with nextId := p.nextId + 1 })

def modifyNode (p : Procedure) (id : Int) (f : Node → Node) : Procedure :=
  { p with nodes := p.nodes.map fun n => if n.id == id then f n else n }

/-- Draws an edge when both ends exist. -/
def connect (p : Procedure) (source target : Int) : Procedure :=
  if p.hasNode source && p.hasNode target then
    (p.modifyNode source (·.addSucc target)).modifyNode target (·.addPred source)
  else p

def successors (p : Procedure) (id : Int) : List Int := ((p.node? id).map Node.succs).getD []

def predecessors (p : Procedure) (id : Int) : List Int := ((p.node? id).map Node.preds).getD []

/-! ### Statements -/

def instrsAt (p : Procedure) (id : Int) : List Instr := ((p.node? id).map Node.instrs).getD []

def statementsOf (p : Procedure) (n : Node) : List (StatementId × Instr) :=
  n.instrs.zipIdx.map fun (i, k) => (⟨p.name, n.id, k⟩, i)

/-- The statements of a node in order. -/
def statementsAt (p : Procedure) (id : Int) : List (StatementId × Instr) :=
  match p.node? id with
  | some n => p.statementsOf n
  | none => []

def instrAt? (p : Procedure) (s : StatementId) : Option Instr :=
  if s.procedure = p.name then pick? (p.instrsAt s.node) s.index else none

def contains (p : Procedure) (s : StatementId) : Bool := (p.instrAt? s).isSome

/-- The place of a statement; a statement from elsewhere has the place of the procedure. -/
def locationOf (p : Procedure) (s : StatementId) : Location :=
  match p.instrAt? s with
  | some i => i.loc
  | none => p.loc.getD .unknown

/-! ### Parameters -/

def paramNames (p : Procedure) : List String := p.params.map Prod.fst

/-- The receiver of an instance method. -/
def selfName (p : Procedure) : Option String :=
  if p.isMethod && !p.isStatic then p.paramNames.head? else none

/-- Parameters by the position of the argument that a caller writes. -/
def positionalParams (p : Procedure) : List String :=
  if p.selfName.isSome then p.paramNames.tail else p.paramNames

def paramPosition (p : Procedure) (name : String) : Option Nat :=
  p.positionalParams.findIdx? (· == name)

def render (p : Procedure) : String :=
  "def " ++ p.name ++ "(" ++
    String.intercalate ", " (p.params.map fun (name, type) => name ++ ": " ++ type.render) ++ ")"

theorem contains_iff {p : Procedure} {s : StatementId} :
    p.contains s = true ↔ ∃ i, p.instrAt? s = some i := by
  simp [contains, Option.isSome_iff_exists]

theorem hasNode_iff {p : Procedure} {id : Int} :
    p.hasNode id = true ↔ ∃ n, p.node? id = some n := by
  simp [hasNode, node?, ← Option.isSome_iff_exists, List.find?_isSome]

end Procedure

end ActorOwnership
