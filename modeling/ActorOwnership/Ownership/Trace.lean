import ActorOwnership.Location
import ActorOwnership.Symbol

/-! Traces: the calls on the way to a violation, outermost first, and the places of the accesses. -/

namespace ActorOwnership
set_option autoImplicit false

structure Trace where
  method : Option String := none
  className : Option String := none
  symbol : Option Symbol := none
  calls : List (String × Location) := []
  accesses : List Location := []
  deriving DecidableEq, Repr, Inhabited

namespace Trace

/-- Puts a call in front. -/
def insertCall (t : Trace) (unit : String) (loc : Location) : Trace :=
  { t with calls := (unit, loc) :: t.calls }

def addAccess (t : Trace) (loc : Location) : Trace := { t with accesses := t.accesses ++ [loc] }

/-- Appends another trace, and takes from it what this one does not say. -/
def merge (t u : Trace) : Trace where
  method := t.method.or u.method
  className := t.className.or u.className
  symbol := t.symbol.or u.symbol
  calls := t.calls ++ u.calls
  accesses := t.accesses ++ u.accesses

/-- The last access, or else the innermost call. -/
def location? (t : Trace) : Option Location :=
  t.accesses.getLast?.or (t.calls.getLast?.map Prod.snd)

def frames (t : Trace) : List (String × String) := t.calls.map fun (unit, loc) => (unit, loc.render)

def lines (t : Trace) : List String :=
  (t.calls.map fun (unit, loc) => "call in " ++ unit ++ " at " ++ loc.render) ++
    t.accesses.map fun loc => "access at " ++ loc.render

def render (t : Trace) : String := String.intercalate "\n" t.lines

@[simp] theorem empty_merge (t : Trace) : merge {} t = t := by
  cases t
  simp [merge]

end Trace

end ActorOwnership
