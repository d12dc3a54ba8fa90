import ActorOwnership.Text.Quoted

/-! Places in source files. -/

namespace ActorOwnership
set_option autoImplicit false

/-- A place in a file; lines count from one and columns from zero. -/
structure Location where
  file : String
  line : Int
  column : Int := 0
  endLine : Option Int := none
  endColumn : Option Int := none
  deriving DecidableEq, Repr, Inhabited

namespace Location

def unknown : Location := ⟨"<unknown>", 0, 0, none, none⟩

/-- File and line, and the column unless it is zero. -/
def render (l : Location) : String :=
  if l.column = 0 then l.file ++ ":" ++ toString l.line
  else l.file ++ ":" ++ toString l.line ++ ":" ++ toString l.column

def describe (l : Location) : String :=
  "Location(" ++ Text.quoted l.file ++ ", " ++ toString l.line ++ ", " ++ toString l.column ++ ")"

end Location

end ActorOwnership
