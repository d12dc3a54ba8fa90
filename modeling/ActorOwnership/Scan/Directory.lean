import ActorOwnership.Files.Glob
import ActorOwnership.Scan.OfText

/-! Scanning files. The files of a directory are scanned one after the other. -/

namespace ActorOwnership
set_option autoImplicit false

/-- Why a command breaks off. -/
inductive CommandError where
  | file (error : FileError)
  | glob (error : GlobError)
  | language (message : String)

def CommandError.message : CommandError → String
  | .file e => e.message
  | .glob e => e.message
  | .language message => message

namespace Scanner

/-- Scans the file at a path, after others; a missing one gives an error in the result. -/
def scanFileAfter (s : Scanner) (left : Lowering.State) (files : Files) (path : String) :
    Except FileError (Scan × Lowering.State) :=
  let p := Path.ofText path
  match files.find? p with
  | none => .ok (⟨{ filename := p.render, errors := ["File not found: " ++ path] }, []⟩, left)
  | some _ => (files.readText p).map (s.scanAfter left p.render)

def scanFile (s : Scanner) (files : Files) (path : String) : Except FileError Scan :=
  (s.scanFileAfter .fresh files path).map Prod.fst

def scanFiles (s : Scanner) (files : Files) : List Path → Lowering.State →
    Except FileError (List Scan)
  | [], _ => .ok []
  | p :: ps, left => do
    let (scan, left) ← s.scanFileAfter left files p.render
    return scan :: (← s.scanFiles files ps left)

/-- Scans the files of a directory that match a pattern, in the order of their paths. -/
def scanDirectory (s : Scanner) (files : Files) (path pattern : String) :
    Except CommandError (List Scan) := do
  let g ← (Glob.ofText pattern).mapError .glob
  let paths := (g.paths files (Path.ofText path)).mergeSort Path.le
  (s.scanFiles files (paths.filter files.hasFile) .fresh).mapError .file

end Scanner

end ActorOwnership
