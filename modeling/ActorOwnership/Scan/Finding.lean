import ActorOwnership.Number.Decimal
import ActorOwnership.Ownership.Point
import ActorOwnership.Ownership.Violation

/-! Findings: violations in the form in which they are reported, and the result of scanning a file. -/

namespace ActorOwnership
set_option autoImplicit false

inductive Severity where
  | critical
  | high
  | medium
  | low
  | info
  deriving DecidableEq, Repr, Inhabited

namespace Severity

def label : Severity → String
  | .critical => "critical"
  | .high => "high"
  | .medium => "medium"
  | .low => "low"
  | .info => "info"

def heading : Severity → String
  | .critical => "CRITICAL"
  | .high => "HIGH"
  | .medium => "MEDIUM"
  | .low => "LOW"
  | .info => "INFO"

def all : List Severity := [.critical, .high, .medium, .low, .info]

/-- The severity with a label, or the complaint that there is none. -/
def ofLabel (text : String) : Except String Severity :=
  match all.find? (·.label == text) with
  | some s => .ok s
  | none => .error (Text.quoted text ++ " is not a valid Severity")

theorem ofLabel_label (s : Severity) : ofLabel s.label = .ok s := by
  cases s <;> rfl

end Severity

structure Finding where
  symbol : String
  severity : Severity
  location : String
  line : Int
  column : Int
  description : String
  procedure : String
  givenUpAt : String := ""
  trace : List String := []
  ruleId : String := "handoff/given-up-field"
  deriving DecidableEq, Repr, Inhabited

namespace Finding

/-- The operation that gives a value away. -/
def operationAt (p : Option Procedure) (id : StatementId) : String :=
  match (p.bind (·.instrAt? id)).bind fun i => i.action.invocation? with
  | some i => i.name
  | none => "a hand-off"

/-- A violation of a hand-off point in the procedure `p`, if that is known. A violation without a
place of its own is placed at the hand-off. -/
def ofViolation (p : Option Procedure) (h : HandOffPoint) (v : Violation) : Finding :=
  let handOff := p.map (·.locationOf h.statement)
  let loc := v.trace.location?.or handOff
  { symbol := v.symbol.render
    severity := .high
    location := (loc.map Location.render).getD ""
    line := (loc.map Location.line).getD 0
    column := (loc.map Location.column).getD 0
    description := "'" ++ v.symbol.render ++ "' may alias '" ++ h.symbol.render ++
      "', given up by " ++ operationAt p h.statement ++ "()" ++
      (handOff.map fun l => " at line " ++ toString l.line).getD "" ++
      ", and is read again before being reset"
    procedure := h.procedure
    givenUpAt := (handOff.map Location.render).getD ""
    trace := v.trace.lines }

/-- Order by line, then column, then symbol. -/
def le (a b : Finding) : Bool :=
  if a.line ≠ b.line then decide (a.line < b.line)
  else if a.column ≠ b.column then decide (a.column < b.column)
  else decide (a.symbol ≤ b.symbol)

end Finding

/-- What scanning one file gave. The time is in milliseconds. -/
structure ScanResult where
  filename : String
  findings : List Finding := []
  errors : List String := []
  time : Binary64 := .zero
  lines : Int := 0
  procedures : Int := 0
  points : Int := 0
  deriving Repr, Inhabited

namespace ScanResult

def hasFindings (r : ScanResult) : Bool := !r.findings.isEmpty

end ScanResult

end ActorOwnership
