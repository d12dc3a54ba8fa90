import ActorOwnership.Ownership.Sweep
import ActorOwnership.Scan.Finding

/-! The analysis of a whole program: a sweep for each hand-off point, and a finding for each distinct
violation. -/

namespace ActorOwnership
set_option autoImplicit false

/-- What the sweep of one point gave. -/
structure Outcome where
  point : HandOffPoint
  /-- All that was reported. -/
  reported : List Violation
  result : Except SweepError (List Violation)

namespace Outcome

def violations (o : Outcome) : List Violation :=
  match o.result with
  | .ok vs => vs
  | .error _ => []

def error? (o : Outcome) : Option String :=
  match o.result with
  | .ok _ => none
  | .error e => some ("Analysis error at " ++ o.point.render ++ ": " ++ e.message)

/-- The sweeps of all points, in order. -/
def ofPoints (c : Context) (pass : Pass) : List HandOffPoint → StateM SummaryTable (List Outcome)
  | [] => pure []
  | h :: rest => do
    let (result, s) := h.run c pass none (← get)
    set s.table
    return ⟨h, s.violations, result.map Prod.fst⟩ :: (← ofPoints c pass rest)

/-- The first violation of each key, with the point that it was found for. -/
def firstOfKeys : List (HandOffPoint × Violation) → List (Symbol × String) →
    List (HandOffPoint × Violation)
  | [], _ => []
  | (h, v) :: rest, seen =>
    if seen.contains v.key then firstOfKeys rest seen
    else (h, v) :: firstOfKeys rest (v.key :: seen)

def found (os : List Outcome) : List (HandOffPoint × Violation) :=
  firstOfKeys (os.flatMap fun o => o.violations.map fun v => (o.point, v)) []

/-- The findings by line, column and symbol. -/
def findings (g : Program) (os : List Outcome) : List Finding :=
  ((found os).map fun (h, v) =>
    Finding.ofViolation (g.find? h.procedure) h v).mergeSort Finding.le

end Outcome

/-- The points of a program, and what their sweeps gave or why there were none. -/
structure Analysis where
  points : List HandOffPoint
  outcomes : Except SweepError (List Outcome)

namespace Analysis

/-- An unknown pass is an error only if there is something to sweep. -/
def ofContext (c : Context) (passName : String) : Analysis :=
  let (points, table) := (HandOffPoint.discover c).run []
  match points, Pass.ofName passName with
  | [], _ => ⟨[], .ok []⟩
  | _, .error e => ⟨points, .error e⟩
  | _, .ok pass => ⟨points, .ok ((Outcome.ofPoints c pass points).run table).1⟩

def ofProgram (g : Program) (passName : String) : Analysis := ofContext (.ofProgram g) passName

/-- The findings of a program. -/
def findings (g : Program) (passName : String) : Except SweepError (List Finding) :=
  (ofProgram g passName).outcomes.map (Outcome.findings g)

end Analysis

end ActorOwnership
