import ActorOwnership.Report.Document
import ActorOwnership.Scan.Finding

/-! Scan results in SARIF: one run with all findings, and a rule for each rule name in use. -/

namespace ActorOwnership.Sarif
set_option autoImplicit false

def level : Severity → String
  | .critical | .high => "error"
  | .medium => "warning"
  | .low | .info => "note"

structure Rule where
  id : String
  level : String
  deriving DecidableEq, Repr, Inhabited

/-- The rule of a finding; its level is that of the finding. -/
def Rule.ofFinding (f : Finding) : Rule := ⟨f.ruleId, Sarif.level f.severity⟩

/-- A finding in its file; columns count from one. -/
structure Entry where
  ruleId : String
  level : String
  message : String
  uri : String
  startLine : Int
  startColumn : Int
  deriving DecidableEq, Repr, Inhabited

def Entry.ofFinding (file : String) (f : Finding) : Entry where
  ruleId := f.ruleId
  level := Sarif.level f.severity
  message := f.description
  uri := file
  startLine := f.line
  startColumn := f.column + 1

structure Run where
  rules : List Rule := []
  results : List Entry := []
  deriving DecidableEq, Repr, Inhabited

namespace Run

/-- One finding more; it declares its rule unless a rule of this name is there. -/
def add (file : String) (run : Run) (f : Finding) : Run where
  rules := if run.rules.any (·.id == f.ruleId) then run.rules else run.rules ++ [.ofFinding f]
  results := run.results ++ [.ofFinding file f]

/-- The run of one file. -/
def ofFile (r : ScanResult) : Run := r.findings.foldl (add r.filename) {}

/-- Puts a rule in the place of the one with its name, or else behind the others. -/
def putRule (rules : List Rule) (rule : Rule) : List Rule :=
  if rules.any (·.id == rule.id) then rules.map fun r => if r.id == rule.id then rule else r
  else rules ++ [rule]

/-- Appends another run; its rules win. -/
def join (run other : Run) : Run where
  rules := other.rules.foldl putRule run.rules
  results := run.results ++ other.results

def merge (runs : List Run) : Run := runs.foldl join {}

/-- One file stands alone; the runs of several are merged. -/
def ofResults : List ScanResult → Run
  | [r] => ofFile r
  | results => merge (results.map ofFile)

end Run

open Document in
def Rule.document (r : Rule) : Document :=
  object [("id", text r.id), ("name", text "GivenUpFieldOwnership"),
    ("shortDescription", object [("text", text "Field used after its value was given up")]),
    ("defaultConfiguration", object [("level", text r.level)])]

open Document in
def Entry.document (e : Entry) : Document :=
  object [("ruleId", text e.ruleId), ("level", text e.level),
    ("message", object [("text", text e.message)]),
    ("locations", list [object [("physicalLocation", object [
      ("artifactLocation", object [("uri", text e.uri)]),
      ("region", object [("startLine", int e.startLine), ("startColumn", int e.startColumn)])])]])]

open Document in
def Run.document (run : Run) : Document :=
  object [
    ("$schema", text ("https://raw.githubusercontent.com/oasis-tcs/sarif-spec/master/Schemata/" ++
      "sarif-schema-2.1.0.json")),
    ("version", text "2.1.0"),
    ("runs", list [object [
      ("tool", object [("driver", object [("name", text "handoff"), ("version", text "0.1.0"),
        ("rules", list (run.rules.map Rule.document))])]),
      ("results", list (run.results.map Entry.document))]])]

end ActorOwnership.Sarif

namespace ActorOwnership.Report

def sarifDocument (results : List ScanResult) : Document := (Sarif.Run.ofResults results).document

def sarif (results : List ScanResult) : String := (sarifDocument results).render

end ActorOwnership.Report
