import ActorOwnership.Lowering.Statement
import ActorOwnership.Surface.StatementOfTree

/-! Programs from source text, given a parser. -/

namespace ActorOwnership.Program
set_option autoImplicit false

/-- The program of a source text that is given with its syntax tree. -/
def ofTree (catalog : Catalog) (library : Library) (file text : String) (root : Syntax.Tree) :
    Program :=
  Lowering.lowerModule catalog library file
    (Surface.moduleOfTree (Syntax.Source.ofText file text) root)

def ofSource (parse : String → Syntax.Tree) (catalog : Catalog) (library : Library)
    (file text : String) : Program :=
  ofTree catalog library file text (parse text)

end ActorOwnership.Program
