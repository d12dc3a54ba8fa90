import ActorOwnership.Flow.Basic
import ActorOwnership.Program

/-! A program together with the flow of its procedures. -/

namespace ActorOwnership
set_option autoImplicit false

/-- A program with the flow of each of its procedures. -/
structure Context where
  program : Program
  flows : List Flow
  deriving Inhabited

namespace Context

def ofProgram (g : Program) : Context :=
  ⟨g, g.procedures.map fun p => Flow.ofScope ⟨p, g.library⟩⟩

/-- The flow of a procedure of the program. -/
def flow? (c : Context) (name : String) : Option Flow :=
  c.flows.find? fun f => f.scope.procedure.name == name

/-- The procedure that a statement calls on its own object, unless it is a constructor. -/
def selfCallee? (c : Context) (f : Flow) (id : StatementId) : Option Procedure :=
  match (f.scope.procedure.instrAt? id).bind fun i => i.action.invocation? with
  | none => none
  | some i =>
    if i.receiver.any f.scope.isSelf then
      (c.program.resolveCallee i f.scope.procedure).filter fun p => !p.isConstructor
    else none

/-- Whether a value flows from one symbol to another between two statements. A missing symbol flows
nowhere, and between procedures only the same symbol counts. -/
def flowsInto (c : Context) (source target : Option Symbol) (start stop : StatementId) : Bool :=
  if start.procedure ≠ stop.procedure then source == target
  else match c.flow? start.procedure, source, target with
    | some f, some a, some b => f.flowsInto a b start stop
    | _, _, _ => false

end Context

end ActorOwnership
