import ActorOwnership.Syntax.Tree

/-! Tokens of Python source text. Line ends and indentation are tokens of no width. -/

namespace ActorOwnership.Syntax
set_option autoImplicit false

inductive TokenKind where
  | word
  | mark
  | integer
  | float
  /-- A string literal without replacement fields. -/
  | string
  /-- The ends of a string literal with replacement fields. -/
  | stringOpen
  | stringClose
  | newline
  | indent
  | dedent
  deriving DecidableEq, Repr, Inhabited

structure Token where
  kind : TokenKind
  text : String
  start : Mark
  stop : Mark
  deriving Repr, Inhabited

namespace Mark

/-- The position after a character. -/
def advance (m : Mark) (c : Char) : Mark :=
  if c == '\n' then ⟨m.offset + 1, m.row + 1, 0⟩
  else ⟨m.offset + c.utf8Size, m.row, m.column + c.utf8Size⟩

def advanceAll (m : Mark) (cs : List Char) : Mark := cs.foldl advance m

end Mark

end ActorOwnership.Syntax
