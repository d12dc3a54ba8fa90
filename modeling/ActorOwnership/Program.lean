import ActorOwnership.Library
import ActorOwnership.Procedure.Basic

/-! Programs: procedures by name, and the library they call into. -/

namespace ActorOwnership
set_option autoImplicit false

/-- Procedures have distinct names and keep the order of their first definition. -/
structure Program where
  procedures : List Procedure := []
  library : Library := []
  sourceFiles : List String := []
  deriving Repr, Inhabited

namespace Program

def find? (g : Program) (name : String) : Option Procedure :=
  g.procedures.find? (·.name == name)

/-- A procedure takes the place of the one with its name, or comes last. -/
def addProcedure (g : Program) (p : Procedure) : Program :=
  { g with
    procedures := if g.procedures.any (·.name == p.name) then
        g.procedures.map fun q => if q.name == p.name then p else q
      else g.procedures ++ [p] }

def methodsOf (g : Program) (className : String) : List Procedure :=
  g.procedures.filter (·.className == some className)

/-- Class names in the order of their first method. -/
def classes (g : Program) : List String :=
  (g.procedures.filterMap Procedure.className).foldl
    (fun seen c => if c = "" then seen else insertNew seen c) []

/-- The procedure that a call runs.

A call on the receiver of an instance method runs the method of its class; a call of a bare name runs
the function of that name, or constructs an object of the class of that name. Other calls are not
resolved. -/
def resolveCallee (g : Program) (i : Invocation) (caller : Procedure) : Option Procedure :=
  match i.receiver with
  | some (.var receiver) =>
    if caller.selfName = some receiver then
      g.find? (caller.className.getD "None" ++ "." ++ i.name)
    else none
  | some _ => none
  | none =>
    match g.find? i.name with
    | some p => if p.isMethod then g.find? (i.name ++ ".__init__") else some p
    | none => g.find? (i.name ++ ".__init__")

def render (g : Program) : String :=
  String.intercalate "\n" (("Program with " ++ toString g.procedures.length ++ " procedures:") ::
    g.procedures.map fun p => "  - " ++ p.name)

theorem find?_name {g : Program} {name : String} {p : Procedure} (h : g.find? name = some p) :
    p.name = name := by
  have := List.find?_some h
  simpa using this

end Program

end ActorOwnership
