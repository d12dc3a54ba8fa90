import ActorOwnership.Syntax.Kind
import ActorOwnership.Text.Utf8

/-! Syntax trees. A node has a kind, an extent, perhaps the name of its role in its parent, and its
children. Positions count octets of UTF-8. -/

namespace ActorOwnership.Syntax
set_option autoImplicit false

/-- A position: octets from the start, line and octets into the line, all from zero. -/
structure Mark where
  offset : Nat := 0
  row : Nat := 0
  column : Nat := 0
  deriving DecidableEq, Repr, Inhabited

inductive Tree where
  | node (kind : Kind) (start stop : Mark) (named : Bool) (field : Option String)
      (children : List Tree)
  deriving Repr, Inhabited

namespace Tree

def kind : Tree → Kind
  | .node k .. => k

def start : Tree → Mark
  | .node _ s .. => s

def stop : Tree → Mark
  | .node _ _ e .. => e

/-- Whether the node stands for a construct and not for a bare token. -/
def named : Tree → Bool
  | .node _ _ _ n .. => n

/-- The role of the node in its parent. -/
def field : Tree → Option String
  | .node _ _ _ _ f _ => f

def children : Tree → List Tree
  | .node _ _ _ _ _ cs => cs

def withField (f : String) : Tree → Tree
  | .node k s e n _ cs => .node k s e n (some f) cs

def namedChildren (t : Tree) : List Tree := t.children.filter named

/-- The first child in the role `f`. -/
def child? (t : Tree) (f : String) : Option Tree := t.children.find? (·.field == some f)

variable {α : Type}

mutual

/-- Computes a value for each node from the node and the values of its children. -/
def fold (f : Tree → List (Tree × α) → α) : Tree → α
  | .node k s e n r cs => f (.node k s e n r cs) (foldAll f cs)

def foldAll (f : Tree → List (Tree × α) → α) : List Tree → List (Tree × α)
  | [] => []
  | t :: ts => (t, fold f t) :: foldAll f ts

end

theorem foldAll_eq_map (f : Tree → List (Tree × α) → α) (ts : List Tree) :
    foldAll f ts = ts.map fun t => (t, fold f t) := by
  induction ts with
  | nil => simp [foldAll]
  | cons t ts ih => simp [foldAll, ih]

/-- What a fold computes at a node depends on the node and on the fold of its children. -/
theorem fold_eq (f : Tree → List (Tree × α) → α) (t : Tree) :
    fold f t = f t (t.children.map fun c => (c, fold f c)) := by
  cases t
  simp [fold, children, foldAll_eq_map]

end Tree

/-! ### Folded children -/

namespace Folded

variable {α : Type}

/-- The value of the first child in the role `f`. -/
def child? (kids : List (Tree × α)) (f : String) : Option α :=
  (kids.find? fun k => k.1.field == some f).map Prod.snd

/-- The values of the children that are constructs. -/
def named (kids : List (Tree × α)) : List α :=
  (kids.filter fun k => k.1.named).map Prod.snd

end Folded

/-! ### Text of nodes -/

/-- The octets of a source file and its name. -/
structure Source where
  file : String
  octets : ByteArray

namespace Source

def ofText (file text : String) : Source := ⟨file, text.toUTF8⟩

/-- The text of a node; octets that are not UTF-8 are replaced. -/
def text (s : Source) (t : Tree) : String :=
  Text.Utf8.decodeLossy (s.octets.extract t.start.offset t.stop.offset).toList

def textOr (s : Source) (fallback : String) (t : Option Tree) : String :=
  (t.map s.text).getD fallback

end Source

end ActorOwnership.Syntax
