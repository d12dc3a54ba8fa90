import ActorOwnership.Flow.Effect
import ActorOwnership.Flow.Saturation
import ActorOwnership.Procedure.Traversal

/-! Reaching definitions: which writes of each symbol may still hold at each statement. -/

namespace ActorOwnership
set_option autoImplicit false

/-- A write of a symbol at a statement; without a statement, the value on entry. -/
structure Definition where
  symbol : Symbol
  statement : Option StatementId := none
  deriving DecidableEq, Repr, Inhabited

namespace Definition

def isEntry (d : Definition) : Bool := d.statement.isNone

/-- The statement of a definition, or the word for the entry. -/
def place (d : Definition) : String := (d.statement.map StatementId.render).getD "entry"

def render (d : Definition) : String := d.symbol.render ++ "@" ++ d.place

/-- The definition with the kind and the owner of its symbol. -/
def describe (d : Definition) : String :=
  d.symbol.kind.word ++ " " ++ d.symbol.owner ++ "." ++ d.symbol.name ++ " @ " ++ d.place

end Definition

/-- Definitions that may hold at one point, each once. -/
abbrev Reach := List Definition

namespace Fact

/-- The definitions after a statement. What the statement replaces is dropped, then all that it
writes is added. -/
def apply (f : Fact) (r : Reach) : Reach :=
  union (r.filter fun d => !f.resets d.symbol) (f.effects.map fun e => ⟨e.symbol, some f.statement⟩)

end Fact

/-- The definitions before and after each statement of a row, and after the last one. -/
def Reach.along : Reach → List Fact → List (StatementId × Reach × Reach) × Reach
  | r, [] => ([], r)
  | r, f :: fs =>
    let after := f.apply r
    let rest := Reach.along after fs
    ((f.statement, r, after) :: rest.1, rest.2)

/-- A graph for the analysis: the entry, what holds there, and the nodes in the order of visits. -/
structure FactGraph where
  entry : Int
  initial : Reach
  nodes : List (Int × List Int × List Fact)
  deriving Inhabited

/-- What holds at the end of each node. -/
abbrev Outcomes := List (Int × Reach)

namespace Outcomes

def at_ (o : Outcomes) (id : Int) : Reach := (o.lookup id).getD []

/-- Adds definitions at the end of a node. -/
def add (o : Outcomes) (id : Int) (r : Reach) : Outcomes :=
  o.map fun x => if x.1 == id then (x.1, union x.2 r) else x

def size (o : Outcomes) : Nat := (o.flatMap Prod.snd).length

end Outcomes

namespace FactGraph

/-- What holds at the start of a node. -/
def entering (g : FactGraph) (o : Outcomes) (id : Int) (preds : List Int) : Reach :=
  preds.foldl (fun r pred => union r (o.at_ pred)) (if id = g.entry then g.initial else [])

/-- Visits one node. -/
def visit (g : FactGraph) (o : Outcomes) (node : Int × List Int × List Fact) : Outcomes :=
  o.add node.1 (Reach.along (g.entering o node.1 node.2.1) node.2.2).2

/-- Visits every node once. -/
def round (g : FactGraph) (o : Outcomes) : Outcomes := g.nodes.foldl g.visit o

/-- The number of definitions there can be. -/
def definitionCount (g : FactGraph) : Nat :=
  g.initial.length + (g.nodes.flatMap fun n => n.2.2.flatMap Fact.effects).length

def start (g : FactGraph) : Outcomes := g.nodes.map fun n => (n.1, [])

/-- The least solution: a definition is at the end of a node only if it got there along edges. -/
def solve (g : FactGraph) : Outcomes :=
  saturate Outcomes.size g.round (g.nodes.length * g.definitionCount + 1) g.start

/-- The definitions before and after each statement. -/
def states (g : FactGraph) (o : Outcomes) : List (StatementId × Reach × Reach) :=
  g.nodes.flatMap fun n => (Reach.along (g.entering o n.1 n.2.1) n.2.2).1

end FactGraph

end ActorOwnership
