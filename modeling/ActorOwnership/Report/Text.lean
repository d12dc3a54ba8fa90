import ActorOwnership.Scan.Finding

/-! Scan results as text to be read. -/

namespace ActorOwnership.Report
set_option autoImplicit false

def rule (c : Char) (width : Nat) : String := String.ofList (List.replicate width c)

def findingLines (number : Nat) (f : Finding) : List String :=
  ["\n" ++ toString number ++ ". [" ++ f.severity.heading ++ "] " ++ f.ruleId,
   "   Location: " ++ f.location,
   "   Field: " ++ f.symbol,
   "   Function: " ++ f.procedure,
   "   Description: " ++ f.description] ++
  if f.trace.isEmpty then [] else "   Trace:" :: f.trace.map ("     " ++ ·)

def header (r : ScanResult) : List String :=
  ["\n" ++ rule '=' 60,
   "Handoff Ownership Scan: " ++ r.filename,
   rule '=' 60,
   "\nLines scanned: " ++ toString r.lines,
   "Procedures analyzed: " ++ toString r.procedures,
   "Gives-up points: " ++ toString r.points,
   "Scan time: " ++ r.time.renderFixed 2 ++ "ms"]

def errorLines (r : ScanResult) : List String :=
  if r.errors.isEmpty then [] else "\nErrors:" :: r.errors.map ("  ❌ " ++ ·)

def findingsPart (r : ScanResult) : List String :=
  if r.findings.isEmpty then ["\n✅ No given-up fields in use!"]
  else ["\nFindings: " ++ toString r.findings.length, rule '-' 40] ++
    (r.findings.zipIdx 1).flatMap fun (f, k) => findingLines k f

/-- The report on one file. -/
def text (r : ScanResult) : String :=
  String.intercalate "\n"
    (header r ++ errorLines r ++ findingsPart r ++ ["\n" ++ rule '=' 60 ++ "\n"])

/-- Whether findings make the command fail. -/
def fails (results : List ScanResult) (failOn : String) : Bool :=
  failOn ≠ "none" && results.any ScanResult.hasFindings

end ActorOwnership.Report
