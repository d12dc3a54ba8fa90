import ActorOwnership.Proofs.FunctionNodes

/-! The graph of a function, built from the nodes of its syntax tree without a reading in between. A
statement is a builder: it is given the innermost loop and what has been built before it. -/

namespace ActorOwnership.Lowering
open Syntax Surface State
set_option autoImplicit false

/-! ### Builders -/

abbrev Builder := Option Loop → State → State

namespace Builder

/-- One statement after the other. -/
def block (bs : List Builder) : Builder := fun loop s => bs.foldl (fun s b => b loop s) s

/-- A clause of a branch. The way on for the case that the condition does not hold is current after
it. -/
def clause (loc : Location) (condition : Exp) (body : Builder) (join : Int) : Builder := fun loop s =>
  (body loop (s.openClause loc condition)).jump join (s.size + 1)

def branch (clauses : List (Location × Exp × Builder)) (otherwise : Builder) : Builder :=
  fun loop s =>
    (otherwise loop (clauses.foldl (fun w c => clause c.1 c.2.1 c.2.2 s.size loop w)
      (s.newNode .join).2)).jump s.size s.size

def loop (loc : Location) (condition : Exp) (kinds : BranchKind × BranchKind) (body : Builder) :
    Builder := fun _ s =>
  (body (some ⟨s.size, s.size + 2⟩) (s.openBody loc condition kinds)).jump s.size (s.size + 2)

/-- A handler, with the nodes from which it starts and the node where all paths meet. -/
def handler (before bodyEnd : Option Int) (join : Int) (b : Builder) : Builder := fun loop w =>
  ((b loop (enterHandler before bodyEnd w)).jump join join).stop

/-- Guarded statements and some handlers of theirs. -/
def handled (body : Builder) (handlers : List Builder) : Builder := fun loop s =>
  let t := body loop s
  handlers.foldl (fun w h => handler s.current t.current t.size h loop w) (openJoin t)

/-- Guarded statements with all handlers. -/
def guarded (body : Builder) (handlers : List Builder) : Builder := fun loop s =>
  if handlers.isEmpty then body loop s
  else (handled body handlers loop s).moveTo (body loop s).size

/-- A function becomes a procedure of its own, and the graph around it is left as it was. -/
def define (name : String) (params : List (String × TypeNote)) (loc : Location) (body : Builder) :
    Builder := fun _ s =>
  let inner := closeFunction (body none (openFunction name none params loc false s))
  { s with temps := inner.temps, program := inner.program }

end Builder

section Nodes
variable (catalog : Catalog) (src : Source)

def builderStep (t : Tree) (kids : Placed.Kids Builder) : Builder :=
  let loc := locationOf src t
  let body := Builder.block (Placed.blockIn kids "body")
  match t.kind with
  | .returnStatement => fun _ s =>
    (giveBack catalog loc (t.namedChildren.head?.map (operandOfTree src)) s).leave
  | .raiseStatement => fun _ s => s.leave
  | .breakStatement => goTo Loop.after
  | .continueStatement => goTo Loop.head
  | .ifStatement =>
    .branch (((t, Placed.blockIn kids "consequence") :: Placed.elifs kids).map fun c =>
        (locationOf src c.1, Outline.conditionOf src c.1, .block c.2))
      (.block (Placed.otherwise kids))
  | .whileStatement => .loop loc (Outline.conditionOf src t) (.whileTrue, .whileFalse) body
  | .forStatement =>
    let targets := ((t.child? "left").map (targetsOf src)).getD []
    .loop loc (.const (.bool true)) (.forEnter, .forExit) fun loop s =>
      body loop (takeNext loc targets (expOfTree? src (t.child? "right")) s)
  | .withStatement => fun loop s => body loop (enterAll catalog loc (withItems src t) s)
  | .tryStatement => fun loop s =>
    Builder.block (Placed.firstClause kids .finallyClause) loop
      (Builder.guarded
        (.block (Placed.blockIn kids "body" ++ Placed.firstClause kids .elseClause))
        ((Placed.handlers kids).map .block) loop s)
  | .functionDefinition =>
    if t.isFunction then
      .define (src.textOr "" (t.child? "name")) (parametersOf src t) loc body
    else fun _ s => s
  | .decoratedDefinition =>
    ((kids.find? fun k => isDefinition k.1).map fun k => k.2.statement).getD fun _ s => s
  | _ => fun loop => lowerBlock catalog loop (simpleStatements src t)

/-- What a statement adds to the graph. -/
def build (t : Tree) : Builder := t.foldStatement (builderStep catalog src)

def buildAll (ts : List Tree) : Builder := .block (ts.map (build catalog src))

end Nodes

/-! ### Trees and their readings -/

section Reading
variable (catalog : Catalog) (src : Source)

theorem build_eq (t : Tree) :
    build catalog src t = builderStep catalog src t (t.placedKids (builderStep catalog src)) :=
  Tree.foldStatement_eq _ t

theorem buildAll_append (ts ts' : List Tree) (loop : Option Loop) (s : State) :
    buildAll catalog src (ts ++ ts') loop s =
      buildAll catalog src ts' loop (buildAll catalog src ts loop s) := by
  rw [buildAll, Builder.block, List.map_append, List.foldl_append]
  rfl

/-- The node builds what its reading is lowered to. -/
def Builds (t : Tree) : Prop :=
  ∀ loop s, lowerBlock catalog loop (statementsOf src t) s = build catalog src t loop s

variable {catalog src} {t : Tree}

theorem Builds.block {ts : List Tree} (h : ∀ t ∈ ts, Builds catalog src t) (loop : Option Loop)
    (s : State) :
    lowerBlock catalog loop (blockStatements src ts) s = buildAll catalog src ts loop s := by
  induction ts generalizing s with
  | nil =>
    rw [blockStatements, List.flatMap_nil, lowerBlock]
    rfl
  | cons t ts ih =>
    rw [List.forall_mem_cons] at h
    rw [blockStatements, List.flatMap_cons, lowerBlock_append, h.1 loop s]
    exact ih h.2 _

theorem Builds.clauses {cs : List Tree}
    (h : ∀ c ∈ cs, ∀ t ∈ c.blockIn "consequence", Builds catalog src t) (loop : Option Loop)
    (join : Int) (s : State) :
    lowerClauses catalog loop join (cs.map (clauseAt src)) s =
      (cs.map fun c => (locationOf src c, Outline.conditionOf src c,
        buildAll catalog src (c.blockIn "consequence"))).foldl
        (fun w c => Builder.clause c.1 c.2.1 c.2.2 join loop w) s := by
  induction cs generalizing s with
  | nil => rw [List.map_nil, lowerClauses, List.map_nil, List.foldl_nil]
  | cons c cs ih =>
    rw [List.forall_mem_cons] at h
    rw [List.map_cons, clauseAt, lowerClauses_cons, Builds.block h.1, ih h.2]
    rfl

/-- Guarded statements with handlers, node by node. -/
theorem Builds.handled {ts : List Tree} {tss : List (List Tree)}
    {body orElse : List Stmt} (hbody : ∀ loop s,
      protect catalog loop body orElse s = buildAll catalog src ts loop s)
    (h : ∀ ts ∈ tss, ∀ t ∈ ts, Builds catalog src t) (loop : Option Loop) (s : State) :
    handled catalog loop body orElse (tss.map (blockStatements src)) s =
      Builder.handled (buildAll catalog src ts) (tss.map (buildAll catalog src)) loop s := by
  unfold Lowering.handled Builder.handled
  rw [hbody, List.foldl_map, List.foldl_map]
  refine List.foldl_ext _ _ _ fun w ts' hts' => ?_
  rw [lowerHandler, Builds.block (h ts' hts')]
  rfl

theorem Builds.guarded {ts : List Tree} {tss : List (List Tree)} {body orElse : List Stmt}
    (hbody : ∀ loop s, protect catalog loop body orElse s = buildAll catalog src ts loop s)
    (h : ∀ ts ∈ tss, ∀ t ∈ ts, Builds catalog src t) (loop : Option Loop) (s : State) :
    guarded catalog loop body orElse (tss.map (blockStatements src)) s =
      Builder.guarded (buildAll catalog src ts) (tss.map (buildAll catalog src)) loop s := by
  unfold Lowering.guarded Builder.guarded
  rw [Builds.handled hbody h, hbody, List.isEmpty_map, List.isEmpty_map]

theorem Builds.protect {ts ts' : List Tree} (h : ∀ t ∈ ts, Builds catalog src t)
    (h' : ∀ t ∈ ts', Builds catalog src t) (loop : Option Loop) (s : State) :
    protect catalog loop (blockStatements src ts) (blockStatements src ts') s =
      buildAll catalog src (ts ++ ts') loop s := by
  rw [Lowering.protect, Builds.block h, Builds.block h', buildAll_append]

theorem lowerBlock_single (loop : Option Loop) (stmt : Stmt) (s : State) :
    lowerBlock catalog loop [stmt] s = lowerStmt catalog loop stmt s := by
  rw [lowerBlock, lowerBlock]

theorem build_simple (h : t.kind.isSimple = true) (loop : Option Loop) :
    build catalog src t loop = lowerBlock catalog loop (simpleStatements src t) := by
  rw [build_eq]
  unfold builderStep
  generalize t.kind = kind at h
  cases kind <;> first | rfl | cases h

theorem emits_buildAll {ts : List Tree} (h : ∀ t ∈ ts, t.kind.isSimple = true) (loop : Option Loop) :
    Emits (buildAll catalog src ts loop) := by
  induction ts with
  | nil => exact emits_id
  | cons t ts ih =>
    rw [List.forall_mem_cons] at h
    have hfirst : Emits (build catalog src t loop) := by
      rw [build_simple h.1]
      exact emits_lowerBlock catalog _ loop (isSimple_simpleStatements src t)
    exact (ih h.2).comp hfirst

variable (catalog src)

theorem builds (t : Tree) : Builds catalog src t := by
  induction t using Tree.induct_descendants with
  | h t ih =>
    have hbody : ∀ d ∈ t.blockIn "body", Builds catalog src d :=
      fun d hd => ih d (Tree.descendant_of_blockIn hd)
    have hfirst : ∀ kind, ∀ d ∈ t.firstClause kind, Builds catalog src d :=
      fun kind d hd => ih d (Tree.descendant_of_firstClause hd)
    have hread := readAs_statementsOf src t
    intro loop s
    generalize statementsOf src t = stmts at hread ⊢
    cases hread with
    | simple h => rw [build_simple h]
    | return_ h =>
      rw [lowerBlock_single, returnStatement, lowerStmt_return, build_eq, builderStep, h]
    | raise h =>
      rw [lowerBlock_single, lowerStmt, build_eq, builderStep, h]
    | break_ h =>
      rw [lowerBlock_single, lowerStmt_break, build_eq, builderStep, h]
    | continue_ h =>
      rw [lowerBlock_single, lowerStmt_continue, build_eq, builderStep, h]
    | branch h =>
      have hclauses : ∀ c ∈ t :: t.elifs, ∀ d ∈ c.blockIn "consequence", Builds catalog src d := by
        rw [List.forall_mem_cons]
        exact ⟨fun d hd => ih d (Tree.descendant_of_blockIn hd),
          fun c hc d hd => ih d (Tree.descendant_of_elif hc hd)⟩
      have helse : ∀ d ∈ t.otherwise, Builds catalog src d :=
        fun d hd => ih d (Tree.descendant_of_otherwise hd)
      rw [lowerBlock_single, lowerStmt_branch, Builds.clauses hclauses, Builds.block helse, build_eq,
        builderStep, h]
      simp only [Tree.blockIn_placedKids, Tree.elifs_placedKids, Tree.otherwise_placedKids,
        List.map_cons, List.map_map]
      rfl
    | while_ h =>
      rw [lowerBlock_single, lowerStmt_while, Builds.block hbody, build_eq, builderStep, h]
      simp only [Tree.blockIn_placedKids]
      rfl
    | for_ h =>
      rw [lowerBlock_single, lowerStmt_for, Builds.block hbody, build_eq, builderStep, h]
      simp only [Tree.blockIn_placedKids]
      rfl
    | with_ h =>
      rw [lowerBlock_single, lowerStmt_with, Builds.block hbody, build_eq, builderStep, h]
      simp only [Tree.blockIn_placedKids]
      rfl
    | try_ h =>
      have hhandlers : ∀ ts ∈ t.handlers, ∀ d ∈ ts, Builds catalog src d :=
        fun ts hts d hd => ih d (Tree.descendant_of_handler hts hd)
      rw [lowerBlock_single, lowerStmt_try, Builds.block (hfirst _),
        Builds.guarded (Builds.protect hbody (hfirst _)) hhandlers, build_eq, builderStep, h]
      simp only [Tree.blockIn_placedKids, Tree.firstClause_placedKids, Tree.handlers_placedKids,
        ← List.map_append, List.map_map]
      rfl
    | function h =>
      rw [build_eq, builderStep, h]
      cases t.isFunction with
      | false =>
        simp only [Bool.false_eq_true, if_false, lowerBlock]
      | true =>
        simp only [if_true, Tree.blockIn_placedKids]
        rw [lowerBlock_single, lowerStmt, functionAt, lowerFunction, Builds.block hbody]
        rfl
    | decorated h =>
      rw [build_eq, builderStep, h]
      simp only [Tree.placedKids, List.find?_map, Option.map_map]
      cases hfind : t.children.find? isDefinition with
      | none =>
        simp only [Option.map_none, Option.getD_none, lowerBlock]
        simp only [Function.comp_def, hfind, Option.map_none, Option.getD_none]
      | some d =>
        simp only [Function.comp_def, hfind]
        exact ih d (Tree.child_mem_descendants (List.mem_of_find?_eq_some hfind)) loop s

theorem lowerBlock_blockStatements (ts : List Tree) (loop : Option Loop) (s : State) :
    lowerBlock catalog loop (blockStatements src ts) s = buildAll catalog src ts loop s :=
  Builds.block (fun t _ => builds catalog src t) loop s

end Reading

/-! ### Where a node stands in a body -/

section Occurrence
variable (catalog : Catalog) (src : Source)

/-- The clauses of a branch, up to some place. -/
def buildClauses (cs : List Tree) (join : Int) : Builder := fun loop s =>
  (cs.map fun c => (locationOf src c, Outline.conditionOf src c,
    buildAll catalog src (c.blockIn "consequence"))).foldl
    (fun w c => Builder.clause c.1 c.2.1 c.2.2 join loop w) s

/-- The statements that the handlers of a node guard. -/
def guardedNodes (t : Tree) : List Tree := t.blockIn "body" ++ t.firstClause .elseClause

/-- The guarded statements of a node with some of its handlers. -/
def buildHandled (t : Tree) (handlers : List (List Tree)) : Builder :=
  .handled (buildAll catalog src (guardedNodes t)) (handlers.map (buildAll catalog src))

/-- All of a guarded block except its final statements. -/
def buildGuarded (t : Tree) : Builder :=
  .guarded (buildAll catalog src (guardedNodes t)) (t.handlers.map (buildAll catalog src))

/-- `PartNode catalog src a t starts b block`: the block is a part of the statement, and `b` is
where it is built when the statement is built at `a`. An edge to a handler is drawn from `starts`
after the block. -/
inductive PartNode : Spot → Tree → List Int → Spot → List Tree → Prop where
  | clause {loop : Option Loop} {s : State} {t c : Tree} {before after : List Tree} :
      t.kind = .ifStatement → t :: t.elifs = before ++ c :: after →
      PartNode ⟨loop, s⟩ t []
        ⟨loop, (buildClauses catalog src before s.size loop (s.newNode .join).2).openClause
          (locationOf src c) (Outline.conditionOf src c)⟩ (c.blockIn "consequence")
  | otherwise {loop : Option Loop} {s : State} {t : Tree} : t.kind = .ifStatement →
      PartNode ⟨loop, s⟩ t []
        ⟨loop, buildClauses catalog src (t :: t.elifs) s.size loop (s.newNode .join).2⟩ t.otherwise
  | while_ {loop : Option Loop} {s : State} {t : Tree} : t.kind = .whileStatement →
      PartNode ⟨loop, s⟩ t []
        ⟨some ⟨s.size, s.size + 2⟩, s.openBody (locationOf src t) (Outline.conditionOf src t)
          (.whileTrue, .whileFalse)⟩ (t.blockIn "body")
  | for_ {loop : Option Loop} {s : State} {t : Tree} : t.kind = .forStatement →
      PartNode ⟨loop, s⟩ t []
        ⟨some ⟨s.size, s.size + 2⟩, takeNext (locationOf src t)
          (((t.child? "left").map (targetsOf src)).getD []) (expOfTree? src (t.child? "right"))
          (s.openBody (locationOf src t) (.const (.bool true)) (.forEnter, .forExit))⟩
        (t.blockIn "body")
  | with_ {loop : Option Loop} {s : State} {t : Tree} : t.kind = .withStatement →
      PartNode ⟨loop, s⟩ t [] ⟨loop, enterAll catalog (locationOf src t) (withItems src t) s⟩
        (t.blockIn "body")
  | guarded {loop : Option Loop} {s : State} {t : Tree} : t.kind = .tryStatement →
      PartNode ⟨loop, s⟩ t (handlerStarts t.handlers s) ⟨loop, s⟩ (t.blockIn "body")
  | orElse {loop : Option Loop} {s : State} {t : Tree} : t.kind = .tryStatement →
      PartNode ⟨loop, s⟩ t (handlerStarts t.handlers s)
        ⟨loop, buildAll catalog src (t.blockIn "body") loop s⟩ (t.firstClause .elseClause)
  | handler {loop : Option Loop} {s : State} {t : Tree} {handler : List Tree}
      {before after : List (List Tree)} :
      t.kind = .tryStatement → t.handlers = before ++ handler :: after →
      PartNode ⟨loop, s⟩ t []
        ⟨loop, enterHandler s.current (buildAll catalog src (guardedNodes t) loop s).current
          (buildHandled catalog src t before loop s)⟩ handler
  | final {loop : Option Loop} {s : State} {t : Tree} : t.kind = .tryStatement →
      PartNode ⟨loop, s⟩ t [] ⟨loop, buildGuarded catalog src t loop s⟩ (t.firstClause .finallyClause)

/-- `OccursNode catalog src a block starts b t`: the node stands in the block, at any depth, and `b`
is where it is built when the block is built at `a`. Handlers of the guarded blocks around it start
from `starts`. -/
inductive OccursNode : Spot → List Tree → List Int → Spot → Tree → Prop where
  | here {loop : Option Loop} {s : State} {t : Tree} (before after : List Tree) :
      OccursNode ⟨loop, s⟩ (before ++ t :: after) [] ⟨loop, buildAll catalog src before loop s⟩ t
  | inside {loop : Option Loop} {s : State} {outer t : Tree} {starts starts' : List Int} {a b : Spot}
      {block : List Tree} (before after : List Tree) :
      PartNode catalog src ⟨loop, buildAll catalog src before loop s⟩ outer starts a block →
      OccursNode a block starts' b t →
        OccursNode ⟨loop, s⟩ (before ++ outer :: after) (starts' ++ starts) b t

variable {catalog src} {t : Tree}

theorem protect_nodes (t : Tree) (loop : Option Loop) (s : State) :
    protect catalog loop (blockStatements src (t.blockIn "body"))
      (blockStatements src (t.firstClause .elseClause)) s =
      buildAll catalog src (guardedNodes t) loop s :=
  Builds.protect (fun t _ => builds catalog src t) (fun t _ => builds catalog src t) loop s

theorem handled_nodes (t : Tree) (handlers : List (List Tree)) (loop : Option Loop) (s : State) :
    handled catalog loop (blockStatements src (t.blockIn "body"))
      (blockStatements src (t.firstClause .elseClause)) (handlers.map (blockStatements src)) s =
      buildHandled catalog src t handlers loop s :=
  Builds.handled (protect_nodes t) (fun _ _ t _ => builds catalog src t) loop s

theorem guarded_nodes (t : Tree) (loop : Option Loop) (s : State) :
    guarded catalog loop (blockStatements src (t.blockIn "body"))
      (blockStatements src (t.firstClause .elseClause)) (t.handlers.map (blockStatements src)) s =
      buildGuarded catalog src t loop s :=
  Builds.guarded (protect_nodes t) (fun _ _ t _ => builds catalog src t) loop s

theorem lowerClauses_nodes (cs : List Tree) (join : Int) (loop : Option Loop) (s : State) :
    lowerClauses catalog loop join (cs.map (clauseAt src)) s =
      buildClauses catalog src cs join loop s :=
  Builds.clauses (fun _ _ t _ => builds catalog src t) loop join s

theorem handlerStarts_map {α β : Type} (f : α → β) (handlers : List α) (s : State) :
    handlerStarts (handlers.map f) s = handlerStarts handlers s := by
  rw [handlerStarts, List.isEmpty_map, handlerStarts]

/-- The parts of a node are read as the parts of its reading. -/
theorem PartNode.part {a b : Spot} {starts : List Int} {block : List Tree}
    (h : PartNode catalog src a t starts b block) :
    ∃ stmt, statementsOf src t = [stmt] ∧
      Part catalog a stmt starts b (blockStatements src block) := by
  cases h with
  | @clause loop s _ c before after h hsplit =>
    refine ⟨_, statementsOf_branch src t h, ?_⟩
    rw [hsplit, List.map_append, List.map_cons, ← lowerClauses_nodes]
    exact .clause _ _ _
  | otherwise h =>
    refine ⟨_, statementsOf_branch src t h, ?_⟩
    rw [← lowerClauses_nodes]
    exact .otherwise _ _
  | while_ h => exact ⟨_, statementsOf_while src t h, .while_ _ _ _⟩
  | for_ h => exact ⟨_, statementsOf_for src t h, .for_ _ _ _ _⟩
  | with_ h => exact ⟨_, statementsOf_with src t h, .with_ _ _ _⟩
  | guarded h =>
    refine ⟨_, statementsOf_try src t h, ?_⟩
    rw [← handlerStarts_map (blockStatements src)]
    exact .guarded _ _ _ _
  | orElse h =>
    refine ⟨_, statementsOf_try src t h, ?_⟩
    rw [← handlerStarts_map (blockStatements src), ← lowerBlock_blockStatements]
    exact .orElse _ _ _ _
  | handler h hsplit =>
    refine ⟨_, statementsOf_try src t h, ?_⟩
    rw [← handled_nodes, ← protect_nodes, hsplit, List.map_append, List.map_cons]
    exact .handler _ _ _ _ _
  | final h =>
    refine ⟨_, statementsOf_try src t h, ?_⟩
    rw [← guarded_nodes]
    exact .final _ _ _ _

theorem OccursNode.occurs {a b : Spot} {starts : List Int} {block : List Tree} {stmt : Stmt}
    (h : OccursNode catalog src a block starts b t) (hstmt : statementsOf src t = [stmt]) :
    Occurs catalog a (blockStatements src block) starts b stmt := by
  have hsplit : ∀ (before after : List Tree) (t : Tree) (stmt : Stmt), statementsOf src t = [stmt] →
      blockStatements src (before ++ t :: after) =
        blockStatements src before ++ stmt :: blockStatements src after := by
    intro before after t stmt hstmt
    rw [blockStatements, List.flatMap_append, List.flatMap_cons, hstmt]
    rfl
  induction h with
  | here before after =>
    rw [hsplit before after _ _ hstmt, ← lowerBlock_blockStatements]
    exact .here _ _
  | inside before after hpart _ ih =>
    obtain ⟨outer, houter, hpart⟩ := hpart.part
    rw [← lowerBlock_blockStatements] at hpart
    rw [hsplit before after _ _ houter]
    exact .inside _ _ hpart (ih hstmt)

end Occurrence

/-! ### Procedures -/

section Procedures
variable (catalog : Catalog) (src : Source)

/-- Where the body of a function is built. -/
def opened (f : FunctionNode) (s : State) : Spot :=
  ⟨none, openFunction (src.textOr "" (f.node.child? "name")) f.owner (parametersOf src f.node)
    (locationOf src f.node) f.isStatic s⟩

/-- The graph that a function becomes. -/
def built (f : FunctionNode) (s : State) : Procedure :=
  (closed (buildAll catalog src f.body none (opened src f s).state)).proc

theorem good_opened (f : FunctionNode) (s : State) : Good (opened src f s).state :=
  good_openFunction _ _ _ _ _ s

theorem lowered_node (f : FunctionNode) (s : State) :
    lowered catalog f.owner (functionAt src f.node f.isStatic) s = built catalog src f s := by
  rw [lowered, built, ← lowerBlock_blockStatements]
  rfl

/-- The function in force is found by its name as the graph of its nodes. -/
theorem find?_built (library : Library) (file text : String) {root : Tree} {f : FunctionNode}
    (h : InForce (.ofText file text) root f) :
    ∃ s, (Program.ofTree catalog library file text root).find? (f.name (.ofText file text)) =
      some (built catalog (.ofText file text) f s) := by
  obtain ⟨s, hs⟩ := find?_ofTree catalog library file text h
  exact ⟨s, hs.trans (congrArg some (lowered_node catalog (.ofText file text) f s))⟩

end Procedures

end ActorOwnership.Lowering
