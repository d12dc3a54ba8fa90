import ActorOwnership.Catalog
import ActorOwnership.Program
import ActorOwnership.Surface.Basic

/-! The state of lowering: the finished procedures, the graph under construction, and the node that
receives the next instruction. There is no such node in code that cannot be reached, and what is
emitted there is dropped. -/

namespace ActorOwnership.Lowering
set_option autoImplicit false

structure State where
  /-- Number of temporaries made so far, over all procedures. -/
  temps : Nat := 0
  program : Program := {}
  proc : Procedure
  current : Option Int := none
  /-- Nodes that leave the procedure before its end. -/
  exits : List Int := []

/-- The innermost loop: its head, and the node after it. -/
structure Loop where
  head : Int
  after : Int

namespace State

def tempName (n : Nat) : String := "__tmp_" ++ toString n

def newTemp (s : State) : String × State := (tempName s.temps, { s with temps := s.temps + 1 })

def emitAt (s : State) (id : Int) (i : Instr) : State :=
  { s with proc := s.proc.modifyNode id (·.addInstr i) }

/-- Appends an instruction to the current node. -/
def emit (s : State) (loc : Location) (action : Action) : State :=
  match s.current with
  | some id => s.emitAt id ⟨loc, action⟩
  | none => s

/-- A new node of the graph. -/
def newNode (s : State) (kind : NodeKind) : Int × State :=
  let (n, p) := s.proc.freshNode kind
  (n.id, { s with proc := p.addNode n })

def connect (s : State) (source : Option Int) (target : Int) : State :=
  match source with
  | some id => { s with proc := s.proc.connect id target }
  | none => s

/-- Draws an edge from the current node. -/
def connectCurrent (s : State) (target : Int) : State := s.connect s.current target

def moveTo (s : State) (id : Int) : State := { s with current := some id }

def stop (s : State) : State := { s with current := none }

/-- The current path leaves the procedure. -/
def leave (s : State) : State :=
  { s with exits := s.exits ++ s.current.toList, current := none }

end State

end ActorOwnership.Lowering
