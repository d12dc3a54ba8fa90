import ActorOwnership.Lowering.Operand

/-! Lowering of statements to graphs. A branch leads both ways from the current node and meets again in
a join; a loop has a head from which the body and the rest follow; a handler may start before the
guarded block or after it. -/

namespace ActorOwnership.Lowering
open Surface
set_option autoImplicit false

/-- The two assumptions at a branch, with an edge each. -/
def fork (s : State) (source : Option Int) (loc : Location) (condition : Exp)
    (kinds : BranchKind × BranchKind) (yes no : Int) : State :=
  match source with
  | none => s
  | some id =>
    let s := (s.emitAt id ⟨loc, .assume_ condition true kinds.1⟩).connect source yes
    (s.emitAt id ⟨loc, .assume_ condition false kinds.2⟩).connect source no

/-- The start of a loop: head, body and after, and the assumptions at the head. The body is current
afterwards. -/
def openLoop (loc : Location) (condition : Exp) (kinds : BranchKind × BranchKind) (s : State) :
    Loop × State :=
  let before := s.current
  let (head, s) := s.newNode .loopHead
  let (body, s) := s.newNode .normal
  let (after, s) := s.newNode .normal
  let s := s.connect before head
  (⟨head, after⟩, (fork s (some head) loc condition kinds body after).moveTo body)

/-- The end of a loop: the back edge, and the way on. -/
def closeLoop (l : Loop) (s : State) : State := (s.connectCurrent l.head).moveTo l.after

/-- The element that a loop variable receives. -/
def nextOf (iterable : Exp) : Exp := .call (.const (.text "next")) [iterable] none

def openFunction (name : String) (owner : Option String) (params : List (String × TypeNote))
    (loc : Location) (isStatic : Bool) (s : State) : State :=
  let proc : Procedure := {
    name := match owner with
      | some c => c ++ "." ++ name
      | none => name
    params := params
    loc := some loc
    isMethod := owner.isSome
    className := owner
    isStatic := owner.isSome && isStatic
    isConstructor := owner.isSome && name == "__init__" }
  let (entry, s) := { s with proc := proc, current := none, exits := [] }.newNode .entry
  { s with proc := { s.proc with entry := entry } }.moveTo entry

/-- Draws the edges into the exit and adds the procedure to the program. -/
def closeFunction (s : State) : State :=
  let (exit, s) := s.newNode .exit
  let s := { s with proc := { s.proc with exit := exit } }.connectCurrent exit
  let s := s.exits.foldl (fun s id => s.connect (some id) exit) s
  { s with program := s.program.addProcedure s.proc }

mutual

def lowerStmt (catalog : Catalog) (loop : Option Loop) : Stmt → State → State
  | .call loc name receiver args, s => lowerCall catalog loc none name receiver args s
  | .declare loc name type none, s => s.emit loc (.declare name (.named type) none)
  | .declare loc name type (some v), s =>
    let (e, s) := lowerOperand catalog loc v s
    s.emit loc (.declare name (.named type) (some e))
  | .assign loc d v, s => assignOperand catalog loc d v s
  | .assignEach loc pairs, s => assignPairs catalog loc pairs s
  | .augment loc target op left v, s =>
    let (e, s) := lowerOperand catalog loc v s
    target.toList.foldl (writeTarget loc (.binary op left e)) s
  | .return_ loc none, s => (s.emit loc (.return_ none)).leave
  | .return_ loc (some v), s =>
    let (e, s) := lowerOperand catalog loc v s
    (s.emit loc (.return_ (some e))).leave
  | .branch clauses orElse, s =>
    let (join, s) := s.newNode .join
    let s := lowerClauses catalog loop join clauses s
    let s := lowerBlock catalog loop orElse s
    (s.connectCurrent join).moveTo join
  | .while_ loc condition body, s =>
    let (l, s) := openLoop loc condition (.whileTrue, .whileFalse) s
    closeLoop l (lowerBlock catalog (some l) body s)
  | .for_ loc targets iterable body, s =>
    let (l, s) := openLoop loc (.const (.bool true)) (.forEnter, .forExit) s
    let s := writeTargets loc targets (nextOf iterable) s
    closeLoop l (lowerBlock catalog (some l) body s)
  | .try_ body orElse handlers final, s =>
    let before := s.current
    let s := lowerBlock catalog loop body s
    let s := lowerBlock catalog loop orElse s
    if handlers.isEmpty then lowerBlock catalog loop final s
    else
      let bodyEnd := s.current
      let (join, s) := s.newNode .join
      let s := s.connect bodyEnd join
      let s := lowerHandlers catalog loop before bodyEnd join handlers s
      lowerBlock catalog loop final (s.moveTo join)
  | .with_ loc items body, s =>
    lowerBlock catalog loop body (items.foldl (lowerWithItem catalog loc) s)
  | .raise, s => s.leave
  | .break_, s =>
    match loop with
    | some l => (s.connectCurrent l.after).stop
    | none => s.stop
  | .continue_, s =>
    match loop with
    | some l => (s.connectCurrent l.head).stop
    | none => s.stop
  | .define f, s => lowerFunction catalog none f s

def lowerBlock (catalog : Catalog) (loop : Option Loop) : List Stmt → State → State
  | [], s => s
  | stmt :: stmts, s => lowerBlock catalog loop stmts (lowerStmt catalog loop stmt s)

/-- The clauses of a branch, each tried where the one before it fails. -/
def lowerClauses (catalog : Catalog) (loop : Option Loop) (join : Int) :
    List Clause → State → State
  | [], s => s
  | .mk condition loc body :: clauses, s =>
    let before := s.current
    let (yes, s) := s.newNode .normal
    let (no, s) := s.newNode .normal
    let s := fork s before loc condition (.ifTrue, .ifFalse) yes no
    let s := lowerBlock catalog loop body (s.moveTo yes)
    lowerClauses catalog loop join clauses ((s.connectCurrent join).moveTo no)

/-- The handlers of a guarded block. -/
def lowerHandlers (catalog : Catalog) (loop : Option Loop) (before bodyEnd : Option Int)
    (join : Int) : List (List Stmt) → State → State
  | [], s => s
  | handler :: handlers, s =>
    let (start, s) := s.newNode .exception
    let s := (s.connect before start).connect bodyEnd start
    let s := lowerBlock catalog loop handler (s.moveTo start)
    lowerHandlers catalog loop before bodyEnd join handlers (s.connectCurrent join)

/-- A function, as a method when it has an owner. The graph around it is left as it was. -/
def lowerFunction (catalog : Catalog) (owner : Option String) : Function → State → State
  | .mk name params loc isStatic body, s =>
    let inner := closeFunction
      (lowerBlock catalog none body (openFunction name owner params loc isStatic s))
    { s with temps := inner.temps, program := inner.program }

end

def lowerTopLevel (catalog : Catalog) (s : State) : TopLevel → State
  | .function f => lowerFunction catalog none f s
  | .class_ name methods => methods.foldl (fun s f => lowerFunction catalog (some name) f s) s

/-- No module has been lowered yet. -/
def State.fresh : State := { proc := { name := "" } }

/-- For each module the temporaries are counted anew, and its program has no procedures yet. The rest
is as the module before left it. -/
def State.renew (library : Library) (file : String) (left : State) : State :=
  { left with temps := 0, program := { library := library, sourceFiles := [file] } }

/-- Lowers a module, after others. -/
def lowerAfter (catalog : Catalog) (library : Library) (file : String) (m : Module)
    (left : State) : State :=
  m.foldl (lowerTopLevel catalog) (left.renew library file)

/-- The program of a module. -/
def lowerModule (catalog : Catalog) (library : Library) (file : String) (m : Module) : Program :=
  (lowerAfter catalog library file m .fresh).program

end ActorOwnership.Lowering
