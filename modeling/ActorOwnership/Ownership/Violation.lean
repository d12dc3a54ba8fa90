import ActorOwnership.Ownership.Trace

/-! Violations: symbols through which a value can still be reached after it was given away. -/

namespace ActorOwnership
set_option autoImplicit false

structure Violation where
  trace : Trace
  symbol : Symbol
  deriving DecidableEq, Repr, Inhabited

namespace Violation

def render (v : Violation) : String :=
  let place := match v.trace.location? with
    | some loc => " at " ++ loc.render
    | none => ""
  "given-up value still reachable through '" ++ v.symbol.render ++ "'" ++ place

/-- Two violations with the same symbol at the same place count as one. -/
def key (v : Violation) : Symbol × String :=
  (v.symbol, (v.trace.location?.map Location.render).getD "")

/-- Keeps a violation unless its key was seen before. The last one kept stands first. -/
def keepFirst : List (Symbol × String) × List Violation → Violation →
    List (Symbol × String) × List Violation
  | (seen, kept), v => if seen.contains v.key then (seen, kept) else (v.key :: seen, v :: kept)

/-- The first violation of each key. -/
def unique (vs : List Violation) : List Violation := (vs.foldl keepFirst ([], [])).2.reverse

end Violation

end ActorOwnership
