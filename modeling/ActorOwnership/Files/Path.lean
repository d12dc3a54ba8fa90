import ActorOwnership.Catalog

/-! Paths as text: components between slashes, where empty components and single dots do not count. -/

namespace ActorOwnership
set_option autoImplicit false

/-- An anchored path keeps its leading slash, or two of them. -/
structure Path where
  anchor : String := ""
  parts : List String := []
  deriving DecidableEq, Repr, Inhabited

namespace Path

/-- Exactly two leading slashes are kept; any other number counts as one. -/
def anchorOf (cs : List Char) : String :=
  match (cs.takeWhile (· == '/')).length with
  | 0 => ""
  | 2 => "//"
  | _ => "/"

def partsOf (cs : List Char) : List String :=
  ((Catalog.splitChars '/' cs).map String.ofList).filter fun p => p ≠ "" && p ≠ "."

def ofText (s : String) : Path := ⟨anchorOf s.toList, partsOf s.toList⟩

def render (p : Path) : String :=
  let body := p.anchor ++ String.intercalate "/" p.parts
  if body = "" then "." else body

/-- Order by components, not by text: a directory's files come before what sorts after its name. -/
def le (p q : Path) : Bool := !q.parts.lex p.parts fun a b => decide (a < b)

def child (p : Path) (name : String) : Path := { p with parts := p.parts ++ [name] }

end Path

end ActorOwnership
