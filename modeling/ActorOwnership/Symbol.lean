import ActorOwnership.Text.Quoted

/-! Symbols: the named cells that an analysis follows. A field lives as long as its object; a local or
a parameter lives for one call of its procedure. -/

namespace ActorOwnership
set_option autoImplicit false

inductive SymbolKind where
  | field
  | local_
  | parameter
  deriving DecidableEq, Repr, Inhabited

def SymbolKind.label : SymbolKind → String
  | .field => "FIELD"
  | .local_ => "LOCAL"
  | .parameter => "PARAMETER"

def SymbolKind.all : List SymbolKind := [.field, .local_, .parameter]

/-- A short word for the kind. -/
def SymbolKind.word : SymbolKind → String
  | .field => "field"
  | .local_ => "local"
  | .parameter => "param"

def SymbolKind.ofWord? (s : String) : Option SymbolKind := SymbolKind.all.find? (·.word == s)

/-- The owner of a field is its class, of any other symbol its procedure. -/
structure Symbol where
  name : String
  kind : SymbolKind
  owner : String := ""
  deriving DecidableEq, Repr, Inhabited

namespace Symbol

def isField (s : Symbol) : Bool := s.kind == .field

/-- A field is shown with its class. -/
def render (s : Symbol) : String :=
  if s.isField && s.owner ≠ "" then s.owner ++ "." ++ s.name else s.name

def describe (s : Symbol) : String :=
  "Symbol(" ++ Text.quoted s.name ++ ", " ++ s.kind.label ++ ", " ++ Text.quoted s.owner ++ ")"

end Symbol

end ActorOwnership
