import ActorOwnership.Ownership.Sweep

/-! Sessions: requests about one program that share the summaries made so far. -/

namespace ActorOwnership
set_option autoImplicit false

/-- A program, the summaries made so far, and all violations reported so far. -/
structure Session where
  context : Context
  table : SummaryTable := []
  reports : List Violation := []
  deriving Inhabited

namespace Session

def ofProgram (g : Program) : Session := { context := .ofProgram g }

/-- Asks a question that may need summaries. -/
def ask {α : Type} (s : Session) (m : StateM SummaryTable α) : α × Session :=
  let (a, table) := m.run s.table
  (a, { s with table })

/-- Sweeps one point. What it reports stays reported even if it ends in an error. -/
def sweep (s : Session) (h : HandOffPoint) (pass : Pass) (trace : Option Trace) :
    Except SweepError (List Violation × List Int) × Session :=
  let (result, after) := h.run s.context pass trace s.table
  (result, { s with table := after.table, reports := s.reports ++ after.violations })

def sweepEach (s : Session) (pass : Pass) :
    List HandOffPoint →
      List (HandOffPoint × Except SweepError (List Violation × List Int)) × Session
  | [] => ([], s)
  | h :: rest =>
    let (result, s) := s.sweep h pass none
    let (results, s) := s.sweepEach pass rest
    ((h, result) :: results, s)

/-- Sweeps every point of the program. -/
def sweepAll (s : Session) (pass : Pass) :
    List (HandOffPoint × Except SweepError (List Violation × List Int)) × Session :=
  let (points, s) := s.ask (HandOffPoint.discover s.context)
  s.sweepEach pass points

/-- The procedures whose summaries are kept, in the order of the program. -/
def cached (s : Session) : List String :=
  (s.context.program.procedures.map Procedure.name).filter s.table.contains

end Session

end ActorOwnership
