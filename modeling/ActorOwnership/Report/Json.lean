import ActorOwnership.Report.Document
import ActorOwnership.Scan.Finding

/-! Scan results as JSON documents. -/

namespace ActorOwnership
set_option autoImplicit false

open Document in
def Finding.document (f : Finding) : Document :=
  object [("rule_id", text f.ruleId), ("symbol", text f.symbol),
    ("severity", text f.severity.label), ("location", text f.location), ("line", int f.line),
    ("column", int f.column), ("description", text f.description), ("procedure", text f.procedure),
    ("given_up_at", text f.givenUpAt), ("trace", list (f.trace.map text))]

open Document in
def ScanResult.document (r : ScanResult) : Document :=
  object [("filename", text r.filename), ("findings", list (r.findings.map Finding.document)),
    ("errors", list (r.errors.map text)), ("scan_time_ms", real r.time),
    ("lines_scanned", int r.lines), ("procedures_analyzed", int r.procedures),
    ("gives_up_points", int r.points), ("summary", object [("total", int r.findings.length)])]

namespace Report

/-- One result stands alone; several are listed with a summary. -/
def jsonDocument (results : List ScanResult) : Document :=
  match results with
  | [r] => r.document
  | _ => .object [("files", .list (results.map ScanResult.document)),
      ("summary", .object [("files_scanned", .int results.length),
        ("total_findings", .int (results.flatMap ScanResult.findings).length),
        ("files_with_errors", .int (results.filter fun r => !r.errors.isEmpty).length)])]

def json (results : List ScanResult) : String := (jsonDocument results).render

end Report

end ActorOwnership
