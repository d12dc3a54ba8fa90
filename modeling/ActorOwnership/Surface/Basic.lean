import ActorOwnership.Instruction

/-! Surface programs: functions, classes and statements as they are written, with the parts kept that
the analysis can see. Expressions are already in their final form, except that a call keeps its
parts, because a hand-off becomes an instruction of its own. -/

namespace ActorOwnership.Surface
set_option autoImplicit false

mutual

/-- A value that a statement computes. -/
inductive Operand where
  | value (e : Exp)
  | call (name : String) (receiver : Option Exp) (args : List Argument)

/-- An argument with its keyword; `**` stands for a splat of keywords. -/
inductive Argument where
  | mk (keyword : Option String) (value : Operand)

end

def Argument.keyword : Argument → Option String
  | .mk k _ => k

def Argument.value : Argument → Operand
  | .mk _ v => v

mutual

/-- The operand as one expression, with calls nested in it. -/
def Operand.toExp : Operand → Exp
  | .value e => e
  | .call name receiver args => .call (.const (.text name)) (Argument.toExps args) receiver

def Argument.toExps : List Argument → List Exp
  | [] => []
  | .mk _ v :: as => v.toExp :: Argument.toExps as

end

instance : Inhabited Operand := ⟨.value .null⟩

/-- A place that an assignment writes: a name, or an access path with its text. -/
inductive Target where
  | name (id : String)
  | path (text : String) (exp : Exp)
  deriving Inhabited

/-- The text by which a target can be mentioned in a value. -/
def Target.text : Target → String
  | .name id => id
  | .path text _ => text

/-- The left side of an assignment: one plain name, or any pattern with its places. -/
inductive Destination where
  | name (id : String)
  | pattern (targets : List Target)
  deriving Inhabited

def Destination.targets : Destination → List Target
  | .name id => [.name id]
  | .pattern targets => targets

/-- One target and value of an assignment between lists of equal length, with the names and access
paths that the value mentions. -/
structure Pair where
  destination : Destination
  value : Operand
  mentions : List String

/-- A context that a block enters, and where its value goes. -/
structure WithItem where
  alias_ : Option Destination
  value : Operand

mutual

inductive Stmt where
  | call (loc : Location) (name : String) (receiver : Option Exp) (args : List Argument)
  | declare (loc : Location) (name type : String) (init : Option Operand)
  | assign (loc : Location) (destination : Destination) (value : Operand)
  | assignEach (loc : Location) (pairs : List Pair)
  | augment (loc : Location) (target : Option Target) (op : String) (left : Exp) (value : Operand)
  | return_ (loc : Location) (value : Option Operand)
  | branch (clauses : List Clause) (orElse : List Stmt)
  | while_ (loc : Location) (condition : Exp) (body : List Stmt)
  | for_ (loc : Location) (targets : List Target) (iterable : Exp) (body : List Stmt)
  | try_ (body orElse : List Stmt) (handlers : List (List Stmt)) (final : List Stmt)
  | with_ (loc : Location) (items : List WithItem) (body : List Stmt)
  | raise
  | break_
  | continue_
  | define (function : Function)

/-- A condition and what is done when it holds. -/
inductive Clause where
  | mk (condition : Exp) (loc : Location) (body : List Stmt)

inductive Function where
  | mk (name : String) (params : List (String × TypeNote)) (loc : Location) (isStatic : Bool)
      (body : List Stmt)

end

instance : Inhabited Stmt := ⟨.raise⟩

def Function.name : Function → String
  | .mk n .. => n

def Function.body : Function → List Stmt
  | .mk _ _ _ _ b => b

def Function.asStatic : Function → Function
  | .mk n ps l _ b => .mk n ps l true b

inductive TopLevel where
  | function (f : Function)
  | class_ (name : String) (methods : List Function)

abbrev Module := List TopLevel

end ActorOwnership.Surface
