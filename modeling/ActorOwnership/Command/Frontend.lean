import ActorOwnership.Scan.Directory
import ActorOwnership.Syntax.Parse

/-! The frontend of the command: its language, and the parser for it. -/

namespace ActorOwnership
set_option autoImplicit false

def Program.ofText (catalog : Catalog) (library : Library) (file text : String) : Program :=
  ofSource Syntax.parse catalog library file text

namespace Scanner

def languages : List String := ["python"]

/-- A scanner for a language, with more hand-off operations than the standard ones. -/
def forLanguage (language : String) (extra : List HandOffSpec) (passName : String)
    (verbose : Bool) : Except String Scanner :=
  if languages.contains language then
    .ok ⟨Syntax.parse, Catalog.extended extra, passName, verbose⟩
  else .error ("Unsupported language: " ++ language)

end Scanner

end ActorOwnership
