import ActorOwnership.Flow.Scope

/-! What actions write. -/

namespace ActorOwnership
set_option autoImplicit false

/-- `symbol` receives a value that may hold parts of the values of `sources`. A strong effect replaces
the old value; a weak one adds to it. -/
structure Effect where
  symbol : Symbol
  strong : Bool
  sources : List Symbol := []
  deriving DecidableEq, Repr, Inhabited

namespace Scope

/-- The variable that receives the result of a call. -/
def resultEffect (s : Scope) (ret : Option String) (i : Invocation) : List Effect :=
  match ret with
  | some name => [⟨s.symbolOf name, true, s.callSources i⟩]
  | none => []

/-- Arguments that a library callee stores into its receiver. -/
def receiverEffect (s : Scope) (i : Invocation) : List Effect :=
  match s.library.callSpec i, i.receiver with
  | some spec, some receiver =>
    if spec.flowsIntoReceiver.isEmpty then []
    else match s.resolve receiver with
      | some target =>
        [⟨target, false,
          distinct (spec.flowsIntoReceiver.filterMap (pick? (s.flowingAll i.args))).flatten⟩]
      | none => []
  | _, _ => []

/-- What an action writes. A store to a field of the receiver replaces it; any other store changes a
part of a value that stays where it is. -/
def effectsOf (s : Scope) : Action → List Effect
  | .declare name _ (some init) => [⟨s.symbolOf name, true, s.flowing init⟩]
  | .assign name value => [⟨s.symbolOf name, true, s.flowing value⟩]
  | .store target value =>
    match s.resolve target with
    | some top => [⟨top, s.isSelfField target, s.flowing value⟩]
    | none => []
  | .call ret i | .handOff ret i _ _ => s.resultEffect ret i ++ s.receiverEffect i
  | _ => []

end Scope

/-- What one statement of a procedure writes and reads. -/
structure Fact where
  statement : StatementId
  effects : List Effect
  reads : List Symbol
  deriving Repr, Inhabited

namespace Fact

def ofStatement (s : Scope) (statement : StatementId × Instr) : Fact :=
  ⟨statement.1, s.effectsOf statement.2.action, s.readsOf statement.2.action⟩

/-- Whether the statement writes `symbol`. -/
def defines (f : Fact) (symbol : Symbol) : Bool := f.effects.any (·.symbol == symbol)

/-- Whether the statement replaces the value of `symbol`. -/
def resets (f : Fact) (symbol : Symbol) : Bool :=
  f.effects.any fun e => e.symbol == symbol && e.strong

/-- The symbols written, their sources, and the symbols read. -/
def symbols (f : Fact) : List Symbol :=
  (f.effects.flatMap fun e => e.symbol :: e.sources) ++ f.reads

end Fact

end ActorOwnership
