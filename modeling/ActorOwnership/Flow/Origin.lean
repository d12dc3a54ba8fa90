import ActorOwnership.Flow.Reaching

/-! Origins: from which definitions the value of a definition may come. -/

namespace ActorOwnership
set_option autoImplicit false

/-- Definitions with the definitions that their values may come from. -/
abbrev Origins := List (Definition × Reach)

/-- The definitions of a symbol among those that hold; if none do, the value on entry. -/
def Reach.of (r : Reach) (symbol : Symbol) : Reach :=
  match r.filter (·.symbol == symbol) with
  | [] => [⟨symbol, none⟩]
  | ds => ds

namespace Origins

/-- The origins of a definition; an unknown one has only itself. -/
def of (o : Origins) (d : Definition) : Reach := (o.lookup d).getD [d]

def add (o : Origins) (d : Definition) (r : Reach) : Origins :=
  o.map fun x => if x.1 == d then (x.1, union x.2 r) else x

def size (o : Origins) : Nat := (o.flatMap Prod.snd).length

/-- The origins of all definitions of a symbol that hold. -/
def ofSymbol (o : Origins) (r : Reach) (symbol : Symbol) : Reach :=
  (r.of symbol).foldl (fun v d => union v (o.of d)) []

/-- Copies the origins of the sources of an effect. -/
def copy (o : Origins) (d : Definition) (before : Reach) (sources : List Symbol) : Origins :=
  o.add d (sources.foldl (fun v s => union v (o.ofSymbol before s)) [])

/-- Copies origins along every effect once. -/
def round (writes : List (Definition × Reach × List Symbol)) (o : Origins) : Origins :=
  writes.foldl (fun o w => o.copy w.1 w.2.1 w.2.2) o

/-- Every definition starts with itself. -/
def start (definitions : List Definition) : Origins :=
  (distinct definitions).map fun d => (d, [d])

/-- The closure: the definitions that a value may come from in any number of copies. -/
def solve (definitions : List Definition) (writes : List (Definition × Reach × List Symbol)) :
    Origins :=
  saturate size (round writes) (definitions.length * definitions.length + 1) (start definitions)

end Origins

end ActorOwnership
