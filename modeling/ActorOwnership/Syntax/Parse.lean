import ActorOwnership.Syntax.Grammar.Statement
import ActorOwnership.Syntax.Lexer

/-! From text to syntax tree. Comments and line continuations become children of the innermost node
around them. -/

namespace ActorOwnership.Syntax
set_option autoImplicit false

namespace Tree

/-- Whether `inner` lies between the ends of `outer`. -/
def encloses (outer inner : Tree) : Bool :=
  outer.start.offset ≤ inner.start.offset && inner.stop.offset ≤ outer.stop.offset

mutual

/-- Puts a node without children into the innermost node around it. -/
def attach (extra : Tree) : Tree → Tree
  | .node k s e n f cs => .node k s e n f (attachAmong extra cs)

def attachAmong (extra : Tree) : List Tree → List Tree
  | [] => [extra]
  | t :: ts =>
    if t.encloses extra then attach extra t :: ts
    else if extra.start.offset < t.start.offset then extra :: t :: ts
    else t :: attachAmong extra ts

end

end Tree

/-- The syntax tree of a text. -/
def parse (text : String) : Tree :=
  let (tokens, extras) := Lexer.lex text
  let self := Grammar.upTo (4 * tokens.length + 8)
  let body := ((Parser.many (Grammar.statements self)).run' { tokens }).getD []
  let stop := Mark.advanceAll {} text.toList
  extras.foldl (fun t extra => Tree.attach extra t) (.node .module {} stop true none body.flatten)

end ActorOwnership.Syntax
