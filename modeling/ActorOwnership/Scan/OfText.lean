import ActorOwnership.Program.OfSource
import ActorOwnership.Scan.Analysis

/-! Scanning a source text. The parser is a parameter of the scanner; what the lowering of one text
leaves behind is where the lowering of the next one starts. -/

namespace ActorOwnership
set_option autoImplicit false

/-- How to scan. -/
structure Scanner where
  /-- The syntax tree of a text. -/
  parse : String → Syntax.Tree
  catalog : Catalog
  passName : String := "gives-up"
  verbose : Bool := false

/-- A result, and the lines printed on the way. -/
structure Scan where
  result : ScanResult
  log : List String := []

namespace Scanner

def lineCount (text : String) : Nat := (text.toList.filter (· == '\n')).length + 1

def progress (message : String) : String := "[Scanner] " ++ message

/-- The lines printed for an analysis. -/
def analysisLog (a : Analysis) (findings : List Finding) : List String :=
  ("Found " ++ toString a.points.length ++ " gives-up points") ::
    match a.outcomes with
    | .error _ => []
    | .ok os =>
      [toString (os.flatMap Outcome.reported).length ++ " reports, " ++
        toString findings.length ++ " unique findings"]

/-- The scan of a text whose program is given. -/
def report (s : Scanner) (file text : String) (g : Program) : Scan :=
  let a := Analysis.ofProgram g s.passName
  let (findings, errors) := match a.outcomes with
    | .ok os => (Outcome.findings g os, os.filterMap Outcome.error?)
    | .error e => ([], ["Scan error: " ++ e.message])
  let result : ScanResult :=
    { filename := file, findings, errors, lines := lineCount text,
      procedures := g.procedures.length, points := a.points.length }
  let log := ["Parsing " ++ file ++ "...",
      "Found " ++ toString g.procedures.length ++ " procedures"] ++ analysisLog a findings ++
    ["Scan complete: " ++ toString findings.length ++ " findings",
      "Time: " ++ result.time.renderFixed 2 ++ "ms"]
  ⟨result, if s.verbose then log.map progress else []⟩

/-- Scans a text after others. -/
def scanAfter (s : Scanner) (left : Lowering.State) (file text : String) : Scan × Lowering.State :=
  let m := Surface.moduleOfTree (Syntax.Source.ofText file text) (s.parse text)
  let left := Lowering.lowerAfter s.catalog Library.standard file m left
  (s.report file text left.program, left)

def scan (s : Scanner) (file text : String) : Scan := (s.scanAfter .fresh file text).1

end Scanner

end ActorOwnership
