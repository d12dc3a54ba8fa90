import ActorOwnership.Proofs.Growth
import ActorOwnership.Proofs.Occurrence
import Mathlib.Data.List.Forall2

/-! Lowering changes a graph in four ways only: it appends an instruction, makes a node, draws an edge,
or leaves the graph alone. Each of them keeps a graph regular, so the graphs of all procedures are. -/

namespace ActorOwnership
set_option autoImplicit false

/-! ### Regular graphs -/

namespace Procedure
variable {p q : Procedure} {n id : Int}

/-- The nodes are numbered in their order from zero on. An edge joins two nodes of the graph and is
recorded once at each of its ends. -/
structure Regular (p : Procedure) : Prop where
  ids : p.nodes.map Node.id = (List.range p.nodes.length).map fun k : Nat => (k : Int)
  next : p.nextId = p.nodes.length
  succs : ∀ n ∈ p.nodes, n.succs.Nodup ∧ ∀ m ∈ n.succs, p.hasNode m = true
  preds : ∀ n ∈ p.nodes, n.preds.Nodup ∧ ∀ m ∈ n.preds, p.hasNode m = true
  symmetric : p.Symmetric

theorem Regular.hasNode_iff (h : p.Regular) : p.hasNode n = true ↔ 0 ≤ n ∧ n < p.nextId := by
  have hmem : p.hasNode n = true ↔ n ∈ p.nodes.map Node.id := by simp [hasNode]
  rw [hmem, h.ids, h.next, List.mem_map]
  constructor
  · rintro ⟨k, hk, rfl⟩
    have hlt := List.mem_range.mp hk
    omega
  · rintro ⟨hnonneg, hlt⟩
    exact ⟨n.toNat, List.mem_range.mpr (by omega), by omega⟩

theorem predecessors_addInstr (i : Instr) :
    (p.modifyNode id (·.addInstr i)).predecessors n = p.predecessors n := by
  unfold predecessors
  rw [map_node?_modifyNode (·.addInstr i) (fun _ => rfl) fun _ => rfl]

theorem predecessors_connect {source target : Int} (hsource : p.hasNode source = true)
    (htarget : p.hasNode target = true) : (p.connect source target).predecessors n =
      if n = target then insertNew (p.predecessors n) source else p.predecessors n := by
  have hkept : ((p.modifyNode source (·.addSucc target)).node? n).map Node.preds =
      (p.node? n).map Node.preds := map_node?_modifyNode (·.addSucc target) (fun _ => rfl) fun _ => rfl
  obtain ⟨m, hm⟩ := hasNode_iff.mp htarget
  unfold connect predecessors
  rw [hsource, htarget, Bool.and_self, if_pos rfl, node?_modifyNode (·.addPred source) fun _ => rfl,
    ← hkept]
  split
  · rename_i heq
    subst heq
    rw [hm] at hkept
    obtain ⟨m', hm', _⟩ := Option.map_eq_some_iff.mp hkept
    simp [hm', Node.addPred]
  · simp

/-- One more node at the end of an edge. -/
theorem insertNew_within {xs : List Int} (h : xs.Nodup ∧ ∀ k ∈ xs, p.hasNode k = true)
    (hn : p.hasNode n = true) :
    (insertNew xs n).Nodup ∧ ∀ k ∈ insertNew xs n, p.hasNode k = true := by
  refine ⟨nodup_insertNew h.1 n, fun k hk => ?_⟩
  rcases mem_insertNew.mp hk with hk | rfl
  · exact h.2 k hk
  · exact hn

/-- A change that keeps the names of the nodes, their number and their edges. -/
theorem Regular.of_nodes (h : p.Regular) {f : Node → Node} (hnodes : q.nodes = p.nodes.map f)
    (hnext : q.nextId = p.nextId) (hid : ∀ m, (f m).id = m.id)
    (hsuccs : ∀ m ∈ p.nodes, (f m).succs.Nodup ∧ ∀ k ∈ (f m).succs, p.hasNode k = true)
    (hpreds : ∀ m ∈ p.nodes, (f m).preds.Nodup ∧ ∀ k ∈ (f m).preds, p.hasNode k = true)
    (hsymmetric : q.Symmetric) : q.Regular := by
  have hsame : ∀ k, q.hasNode k = p.hasNode k := by
    intro k
    simp [hasNode, hnodes, Function.comp_def, hid]
  refine ⟨?_, ?_, ?_, ?_, hsymmetric⟩
  · rw [hnodes, List.length_map, ← h.ids, List.map_map]
    exact List.map_congr_left fun m _ => hid m
  · rw [hnext, hnodes, List.length_map, h.next]
  · rw [hnodes, List.forall_mem_map]
    simpa only [hsame] using hsuccs
  · rw [hnodes, List.forall_mem_map]
    simpa only [hsame] using hpreds

theorem Regular.addInstr (h : p.Regular) (id : Int) (i : Instr) :
    (p.modifyNode id (·.addInstr i)).Regular := by
  refine h.of_nodes rfl rfl ?_ ?_ ?_ ?_
  · intro m
    split <;> rfl
  · intro m hm
    split <;> exact h.succs m hm
  · intro m hm
    split <;> exact h.preds m hm
  · intro a b
    unfold LeadsTo Precedes
    rw [successors_addInstr, predecessors_addInstr]
    exact h.symmetric a b

theorem Regular.connect (h : p.Regular) (source target : Int) :
    (p.connect source target).Regular := by
  by_cases hboth : (p.hasNode source && p.hasNode target) = true
  · obtain ⟨hsource, htarget⟩ := Bool.and_eq_true_iff.mp hboth
    have hnodes : (p.connect source target).nodes = p.nodes.map fun m =>
        { m with
          succs := if m.id = source then insertNew m.succs target else m.succs
          preds := if m.id = target then insertNew m.preds source else m.preds } := by
      unfold Procedure.connect modifyNode
      rw [if_pos hboth, List.map_map]
      apply List.map_congr_left
      intro m _
      simp only [Function.comp, Node.addSucc, Node.addPred, beq_iff_eq]
      split <;> split <;> simp_all
    refine h.of_nodes hnodes (Lowering.State.size_connect p source target) (fun _ => rfl) ?_ ?_ ?_
    · intro m hm
      simp only
      split
      · exact insertNew_within (h.succs m hm) htarget
      · exact h.succs m hm
    · intro m hm
      simp only
      split
      · exact insertNew_within (h.preds m hm) hsource
      · exact h.preds m hm
    · intro a b
      unfold LeadsTo Precedes
      rw [successors_connect hsource htarget, predecessors_connect hsource htarget]
      have hold : b ∈ p.successors a ↔ a ∈ p.predecessors b := h.symmetric a b
      split <;> split <;> simp_all [mem_insertNew]
  · unfold Procedure.connect
    rwa [if_neg hboth]

end Procedure

namespace Lowering
open Surface State

/-- A new node is last in the order, and nothing leads there or away. -/
theorem regular_newNode {s : State} (h : s.proc.Regular) (kind : NodeKind) :
    (s.newNode kind).2.proc.Regular := by
  -- The nodes that leave the procedure play no part here.
  have hsize : 0 ≤ s.proc.nextId := by
    rw [h.next]
    exact Int.natCast_nonneg _
  have hsized : Sized { s with exits := [] } := ⟨fun n => h.hasNode_iff, hsize, by simp⟩
  have hnodes : (s.newNode kind).2.proc.nodes = s.proc.nodes ++ [{ id := s.size, kind := kind }] :=
    nodes_newNode (s := { s with exits := [] }) kind hsized
  have hgrown : ∀ n, s.proc.hasNode n = true → (s.newNode kind).2.proc.hasNode n = true := by
    intro n hn
    have hsome : s.proc.nodes.any (·.id == n) = true := hn
    simp [Procedure.hasNode, hnodes, hsome]
  have hpreds : ∀ n, (s.newNode kind).2.proc.predecessors n = s.proc.predecessors n := by
    intro n
    have hnode : (s.newNode kind).2.proc.node? n = _ :=
      node?_newNode (s := { s with exits := [] }) kind hsized
    unfold Procedure.predecessors
    rw [hnode]
    by_cases hn : n = s.size
    · have hnone : s.proc.node? s.size = none :=
        Procedure.node?_of_hasNode_eq_false (hsized.not_hasNode (Int.le_refl _))
      simp [hn, hnone]
    · simp [hn]
  refine ⟨?_, ?_, ?_, ?_, ?_⟩
  · rw [hnodes, List.map_append, h.ids, List.length_append, List.length_singleton, List.range_succ,
      List.map_append, List.map_singleton, List.map_singleton, ← h.next]
  · have hsize := size_newNode kind s
    rw [size, size, h.next] at hsize
    rw [hsize, hnodes]
    simp
  · intro n hn
    rw [hnodes] at hn
    rcases List.mem_append.mp hn with hn | hn
    · exact ⟨(h.succs n hn).1, fun m hm => hgrown m ((h.succs n hn).2 m hm)⟩
    · obtain rfl := List.mem_singleton.mp hn
      exact ⟨List.nodup_nil, fun m hm => by cases hm⟩
  · intro n hn
    rw [hnodes] at hn
    rcases List.mem_append.mp hn with hn | hn
    · exact ⟨(h.preds n hn).1, fun m hm => hgrown m ((h.preds n hn).2 m hm)⟩
    · obtain rfl := List.mem_singleton.mp hn
      exact ⟨List.nodup_nil, fun m hm => by cases hm⟩
  · intro a b
    have hsuccs : (s.newNode kind).2.proc.successors a = s.proc.successors a :=
      succs_newNode (s := { s with exits := [] }) kind hsized
    unfold Procedure.LeadsTo Procedure.Precedes
    rw [hsuccs, hpreds]
    exact h.symmetric a b

/-! ### Steps -/

/-- One change of the graph. A step that leaves the graph alone may add procedures to the program. -/
inductive Step : List Procedure → State → State → Prop where
  | emit (s : State) (id : Int) (i : Instr) : Step [] s (s.emitAt id i)
  | node (s : State) (kind : NodeKind) : Step [] s (s.newNode kind).2
  | edge (s : State) (source target : Int) : Step [] s (s.connect (some source) target)
  | rest {ps : List Procedure} {s t : State} : t.proc.nodes = s.proc.nodes → t.size = s.size →
      t.program = ps.foldl Program.addProcedure s.program → Step ps s t

/-- Steps one after the other, with all the procedures that they add. -/
inductive Steps : List Procedure → State → State → Prop where
  | refl (s : State) : Steps [] s s
  | tail {ps qs : List Procedure} {s t u : State} : Steps ps s t → Step qs t u → Steps (ps ++ qs) s u

section Steps
variable {ps qs : List Procedure} {s t u : State}

theorem Step.steps (h : Step ps s t) : Steps ps s t := .tail (.refl s) h

theorem Steps.trans (h : Steps ps s t) (h' : Steps qs t u) : Steps (ps ++ qs) s u := by
  induction h' with
  | refl =>
    rw [List.append_nil]
    exact h
  | tail _ hstep ih =>
    rw [← List.append_assoc]
    exact (ih h).tail hstep

/-- More steps, after which no procedure is added. -/
theorem Steps.andThen (h : Steps ps s t) (h' : Steps [] t u) : Steps ps s u :=
  List.append_nil ps ▸ h.trans h'

theorem Step.regular (h : Step ps s t) (hs : s.proc.Regular) : t.proc.Regular := by
  cases h with
  | emit => exact hs.addInstr _ _
  | node => exact regular_newNode hs _
  | edge => exact hs.connect _ _
  | rest hnodes hsize _ =>
    refine hs.of_nodes (f := fun m => m) (by rw [hnodes, List.map_id']) hsize (fun _ => rfl) hs.succs
      hs.preds ?_
    intro a b
    have hold := hs.symmetric a b
    unfold Procedure.LeadsTo Procedure.Precedes Procedure.successors Procedure.predecessors
      Procedure.node? at hold ⊢
    rwa [hnodes]

theorem Steps.regular (h : Steps ps s t) (hs : s.proc.Regular) : t.proc.Regular := by
  induction h with
  | refl => exact hs
  | tail _ hstep ih => exact hstep.regular (ih hs)

theorem Step.program_eq (h : Step ps s t) :
    t.program = ps.foldl Program.addProcedure s.program := by
  cases h with
  | rest _ _ hprogram => exact hprogram
  | _ => rfl

theorem Steps.program_eq (h : Steps ps s t) :
    t.program = ps.foldl Program.addProcedure s.program := by
  induction h with
  | refl => rfl
  | tail _ hstep ih => rw [hstep.program_eq, ih, List.foldl_append]

/-- A step that changes neither graph nor program. -/
theorem steps_of_eq (hproc : t.proc = s.proc) (hprogram : t.program = s.program) : Steps [] s t :=
  (Step.rest (by rw [hproc]) (by rw [size, hproc]) hprogram).steps

theorem steps_connect (s : State) (source : Option Int) (target : Int) :
    Steps [] s (s.connect source target) := by
  cases source with
  | none => exact .refl s
  | some source => exact (Step.edge s source target).steps

theorem steps_emitAll (is : List Instr) (s : State) : Steps [] s (s.emitAll is) := by
  induction is generalizing s with
  | nil => exact .refl s
  | cons i is ih =>
    have hemit : Steps [] s (s.emit i.loc i.action) := by
      unfold State.emit
      split
      · exact (Step.emit s _ _).steps
      · exact .refl s
    exact hemit.trans (ih _)

theorem steps_emits {f : State → State} (hf : Emits f) (s : State) : Steps [] s (f s) := by
  rw [hf s]
  exact (steps_emitAll _ s).trans (steps_of_eq rfl rfl)

theorem steps_jump (s : State) (target next : Int) : Steps [] s (s.jump target next) :=
  (steps_connect s s.current target).trans (steps_of_eq rfl rfl)

theorem steps_branch (s : State) (loc : Location) (condition : Exp) (kinds : BranchKind × BranchKind)
    (yes no : Int) : Steps [] s (s.branch loc condition kinds yes no) := by
  unfold branch fork
  cases s.current with
  | none => exact steps_of_eq rfl rfl
  | some c =>
    have hyes : Steps [] s ((s.emitAt c ⟨loc, .assume_ condition true kinds.1⟩).connect (some c) yes) :=
      (Step.emit s c _).steps.trans (Step.edge _ c yes).steps
    have hno := (hyes.trans (Step.emit _ c ⟨loc, .assume_ condition false kinds.2⟩).steps).trans
      (Step.edge _ c no).steps
    exact hno.trans (steps_of_eq rfl rfl)

theorem steps_openClause (s : State) (loc : Location) (condition : Exp) :
    Steps [] s (s.openClause loc condition) :=
  ((Step.node s .normal).steps.trans (Step.node _ .normal).steps).trans
    (steps_branch s.spare loc condition _ _ _)

theorem steps_openBody (s : State) (loc : Location) (condition : Exp)
    (kinds : BranchKind × BranchKind) : Steps [] s (s.openBody loc condition kinds) := by
  have hnodes : Steps [] s (s.newNode .loopHead).2.spare :=
    ((Step.node s .loopHead).steps.trans (Step.node _ .normal).steps).trans
      (Step.node _ .normal).steps
  exact (hnodes.trans (steps_jump _ s.size s.size)).trans
    (steps_branch s.openHead loc condition kinds _ _)

theorem steps_openJoin (s : State) : Steps [] s (openJoin s) :=
  ((Step.node s .join).steps.trans (steps_jump _ s.size s.size)).trans (steps_of_eq rfl rfl)

theorem steps_enterHandler (before bodyEnd : Option Int) (s : State) :
    Steps [] s (enterHandler before bodyEnd s) :=
  (((Step.node s .exception).steps.trans (steps_connect _ before _)).trans
    (steps_connect _ bodyEnd _)).trans (steps_of_eq rfl rfl)

theorem steps_leave (s : State) : Steps [] s s.leave := steps_of_eq rfl rfl

theorem steps_goTo (pick : Loop → Int) (loop : Option Loop) (s : State) :
    Steps [] s (goTo pick loop s) := by
  cases loop with
  | none => exact steps_of_eq rfl rfl
  | some l => exact (steps_jump s (pick l) (pick l)).trans (steps_of_eq rfl rfl)

theorem steps_closed (s : State) : Steps [] s (closed s) := by
  have hexit : Steps [] s (withExit s) := by
    have hset : Step [] (s.newNode .exit).2 (withExit s) := .rest rfl rfl rfl
    exact (Step.node s .exit).steps.trans hset.steps
  have hall : ∀ (ids : List Int) (t : State),
      Steps [] t (ids.foldl (fun t id => t.connect (some id) s.size) t) := by
    intro ids
    induction ids with
    | nil => exact fun t => .refl t
    | cons id ids ih => exact fun t => (steps_connect t (some id) s.size).trans (ih _)
  exact (hexit.trans (steps_connect _ _ _)).trans (hall s.exits _)

end Steps

/-! ### Functions -/

mutual

/-- The functions that a statement defines, at any depth. Such a function has no owner. -/
def stmtFunctions : Stmt → List (Option String × Function)
  | .branch clauses orElse => clausesFunctions clauses ++ blockFunctions orElse
  | .while_ _ _ body => blockFunctions body
  | .for_ _ _ _ body => blockFunctions body
  | .try_ body orElse handlers final =>
    blockFunctions body ++ blockFunctions orElse ++ handlersFunctions handlers ++
      blockFunctions final
  | .with_ _ _ body => blockFunctions body
  | .define f => functionsOf none f
  | _ => []

def blockFunctions : List Stmt → List (Option String × Function)
  | [] => []
  | stmt :: stmts => stmtFunctions stmt ++ blockFunctions stmts

def clausesFunctions : List Clause → List (Option String × Function)
  | [] => []
  | .mk _ _ body :: clauses => blockFunctions body ++ clausesFunctions clauses

def handlersFunctions : List (List Stmt) → List (Option String × Function)
  | [] => []
  | handler :: handlers => blockFunctions handler ++ handlersFunctions handlers

/-- The functions that are defined in a function, and then the function itself. -/
def functionsOf (owner : Option String) : Function → List (Option String × Function)
  | .mk name params loc isStatic body =>
    blockFunctions body ++ [(owner, .mk name params loc isStatic body)]

end

def topLevelFunctions : TopLevel → List (Option String × Function)
  | .function f => functionsOf none f
  | .class_ name methods => methods.flatMap (functionsOf (some name))

/-- All functions of a module in the order in which they are finished, methods with their class. -/
def moduleFunctions (m : Module) : List (Option String × Function) := m.flatMap topLevelFunctions

section Functions
variable (catalog : Catalog)

/-- The procedure is what the function becomes, from some state. -/
def Becomes (x : Option String × Function) (p : Procedure) : Prop :=
  ∃ s, p = lowered catalog x.1 x.2 s

/-- From `s` to `t` the functions are finished, one after the other. -/
def Finishes (fs : List (Option String × Function)) (s t : State) : Prop :=
  ∃ ps, Steps ps s t ∧ List.Forall₂ (Becomes catalog) fs ps

variable {catalog} {fs fs' : List (Option String × Function)} {s t u : State}

theorem Steps.finishes (h : Steps [] s t) : Finishes catalog [] s t := ⟨[], h, .nil⟩

theorem Finishes.append (h : Finishes catalog fs s t) (h' : Finishes catalog fs' t u) :
    Finishes catalog (fs ++ fs') s u := by
  obtain ⟨ps, hsteps, hps⟩ := h
  obtain ⟨qs, hsteps', hqs⟩ := h'
  exact ⟨ps ++ qs, hsteps.trans hsteps', List.rel_append hps hqs⟩

theorem Finishes.andThen (h : Finishes catalog fs s t) (h' : Steps [] t u) :
    Finishes catalog fs s u := by
  obtain ⟨ps, hsteps, hps⟩ := h
  exact ⟨ps, hsteps.andThen h', hps⟩

theorem Steps.before (h : Steps [] s t) (h' : Finishes catalog fs t u) :
    Finishes catalog fs s u := h.finishes.append h'

theorem mem_addProcedure {g : Program} {p q : Procedure}
    (hq : q ∈ (g.addProcedure p).procedures) : q ∈ g.procedures ∨ q = p := by
  unfold Program.addProcedure at hq
  split at hq
  · obtain ⟨r, hr, rfl⟩ := List.mem_map.mp hq
    split
    · exact Or.inr rfl
    · exact Or.inl hr
  · simpa using hq

/-- A function is finished after those in its body. -/
theorem finishes_function {owner : Option String} {f : Function}
    (hbody : Finishes catalog fs (entered owner f s)
      (lowerBlock catalog none f.body (entered owner f s))) :
    Finishes catalog (fs ++ [(owner, f)]) s (lowerFunction catalog owner f s) := by
  obtain ⟨name, params, loc, isStatic, body⟩ := f
  obtain ⟨ps, hsteps, hps⟩ := hbody.andThen (steps_closed _)
  refine ⟨ps ++ [_], (Step.rest ?_ ?_ ?_).steps, List.rel_append hps (.cons ⟨s, rfl⟩ .nil)⟩
  · rw [lowerFunction]
  · rw [lowerFunction]
  · rw [lowerFunction, closeFunction_eq, List.foldl_append]
    exact congrArg (Program.addProcedure · _) hsteps.program_eq

theorem finishes_simple {stmt : Stmt} (h : isSimple stmt = true) (loop : Option Loop) (s : State) :
    Finishes catalog (stmtFunctions stmt) s (lowerStmt catalog loop stmt s) := by
  have hnone : stmtFunctions stmt = [] := by
    cases stmt with
    | call | declare | assign | assignEach | augment => simp only [stmtFunctions]
    | _ => cases h
  rw [lowerStmt_simple catalog h loop, hnone]
  exact (steps_emits (emits_simple catalog h) s).finishes

variable (catalog)

mutual

theorem finishes_lowerStmt : ∀ (stmt : Stmt) (loop : Option Loop) (s : State),
    Finishes catalog (stmtFunctions stmt) s (lowerStmt catalog loop stmt s)
  | .call .., loop, s => finishes_simple rfl loop s
  | .declare .., loop, s => finishes_simple rfl loop s
  | .assign .., loop, s => finishes_simple rfl loop s
  | .assignEach .., loop, s => finishes_simple rfl loop s
  | .augment .., loop, s => finishes_simple rfl loop s
  | .return_ loc v, loop, s => by
    simp only [lowerStmt_return, stmtFunctions]
    exact ((steps_emits (emits_giveBack catalog loc v) s).trans (steps_leave _)).finishes
  | .raise, loop, s => by
    simp only [lowerStmt, stmtFunctions]
    exact (steps_leave s).finishes
  | .branch clauses orElse, loop, s => by
    rw [lowerStmt_branch, stmtFunctions]
    have hclauses := (Step.node s .join).steps.before
      (finishes_lowerClauses clauses loop s.size (s.newNode .join).2)
    exact (hclauses.append (finishes_lowerBlock orElse loop _)).andThen (steps_jump _ _ _)
  | .while_ loc condition body, loop, s => by
    rw [lowerStmt_while, stmtFunctions]
    exact ((steps_openBody s loc condition _).before (finishes_lowerBlock body _ _)).andThen
      (steps_jump _ _ _)
  | .for_ loc targets iterable body, loop, s => by
    rw [lowerStmt_for, stmtFunctions]
    have hopen := (steps_openBody s loc (.const (.bool true)) (.forEnter, .forExit)).andThen
      (steps_emits (emits_takeNext loc targets iterable) _)
    exact (hopen.before (finishes_lowerBlock body _ _)).andThen (steps_jump _ _ _)
  | .try_ body orElse handlers final, loop, s => by
    have hprotect : Finishes catalog (blockFunctions body ++ blockFunctions orElse) s
        (protect catalog loop body orElse s) :=
      (finishes_lowerBlock body loop s).append (finishes_lowerBlock orElse loop _)
    have hhandled := (hprotect.andThen (steps_openJoin _)).append
      (finishes_lowerHandlers handlers loop s.current (protect catalog loop body orElse s).current
        (protect catalog loop body orElse s).size _)
    have hguarded : Finishes catalog (blockFunctions body ++ blockFunctions orElse ++
        handlersFunctions handlers) s (guarded catalog loop body orElse handlers s) := by
      unfold guarded
      split
      · rename_i hnone
        rw [List.isEmpty_iff.mp hnone, handlersFunctions, List.append_nil]
        exact hprotect
      · exact hhandled.andThen (steps_of_eq rfl rfl)
    rw [lowerStmt_try, stmtFunctions]
    exact hguarded.append (finishes_lowerBlock final loop _)
  | .with_ loc items body, loop, s => by
    rw [lowerStmt_with, stmtFunctions]
    exact (steps_emits (emits_enterAll catalog loc items) s).before (finishes_lowerBlock body loop _)
  | .break_, loop, s => by
    simp only [lowerStmt_break, stmtFunctions]
    exact (steps_goTo Loop.after loop s).finishes
  | .continue_, loop, s => by
    simp only [lowerStmt_continue, stmtFunctions]
    exact (steps_goTo Loop.head loop s).finishes
  | .define f, loop, s => by
    rw [lowerStmt, stmtFunctions]
    exact finishes_lowerFunction none f s

theorem finishes_lowerBlock : ∀ (stmts : List Stmt) (loop : Option Loop) (s : State),
    Finishes catalog (blockFunctions stmts) s (lowerBlock catalog loop stmts s)
  | [], loop, s => by
    rw [lowerBlock, blockFunctions]
    exact (Steps.refl s).finishes
  | stmt :: stmts, loop, s => by
    rw [lowerBlock, blockFunctions]
    exact (finishes_lowerStmt stmt loop s).append (finishes_lowerBlock stmts loop _)

theorem finishes_lowerClauses : ∀ (clauses : List Clause) (loop : Option Loop) (join : Int)
    (s : State), Finishes catalog (clausesFunctions clauses) s
      (lowerClauses catalog loop join clauses s)
  | [], loop, join, s => by
    rw [lowerClauses, clausesFunctions]
    exact (Steps.refl s).finishes
  | .mk condition loc body :: clauses, loop, join, s => by
    rw [lowerClauses_cons, clausesFunctions]
    have hbody := (steps_openClause s loc condition).before (finishes_lowerBlock body loop _)
    exact (hbody.andThen (steps_jump _ join _)).append (finishes_lowerClauses clauses loop join _)

theorem finishes_lowerHandlers : ∀ (handlers : List (List Stmt)) (loop : Option Loop)
    (before bodyEnd : Option Int) (join : Int) (s : State),
    Finishes catalog (handlersFunctions handlers) s
      (handlers.foldl (lowerHandler catalog loop before bodyEnd join) s)
  | [], _, _, _, _, s => by
    rw [handlersFunctions]
    exact (Steps.refl s).finishes
  | handler :: handlers, loop, before, bodyEnd, join, s => by
    rw [handlersFunctions, List.foldl_cons]
    have hblock := (steps_enterHandler before bodyEnd s).before (finishes_lowerBlock handler loop _)
    have hone : Finishes catalog _ s (lowerHandler catalog loop before bodyEnd join s handler) :=
      (hblock.andThen (steps_jump _ join join)).andThen (steps_of_eq rfl rfl)
    exact hone.append (finishes_lowerHandlers handlers loop before bodyEnd join _)

theorem finishes_lowerFunction : ∀ (owner : Option String) (f : Function) (s : State),
    Finishes catalog (functionsOf owner f) s (lowerFunction catalog owner f s)
  | owner, .mk name params loc isStatic body, s => by
    rw [functionsOf]
    exact finishes_function (finishes_lowerBlock body none _)

end

theorem finishes_foldl {α : Type} {f : State → α → State} {h : α → List (Option String × Function)}
    (hf : ∀ a s, Finishes catalog (h a) s (f s a)) (as : List α) (s : State) :
    Finishes catalog (as.flatMap h) s (as.foldl f s) := by
  induction as generalizing s with
  | nil => exact (Steps.refl s).finishes
  | cons a as ih => exact (hf a s).append (ih (f s a))

theorem finishes_lowerTopLevel (x : TopLevel) (s : State) :
    Finishes catalog (topLevelFunctions x) s (lowerTopLevel catalog s x) := by
  cases x with
  | function f => exact finishes_lowerFunction catalog none f s
  | class_ name methods =>
    exact finishes_foldl catalog (finishes_lowerFunction catalog (some name)) methods s

/-- A program has what the functions of its module become, and of those with one name the last. -/
theorem exists_procedures_lowerModule (library : Library) (file : String) (m : Module) :
    ∃ ps, List.Forall₂ (Becomes catalog) (moduleFunctions m) ps ∧
      lowerModule catalog library file m =
        ps.foldl Program.addProcedure { library := library, sourceFiles := [file] } := by
  obtain ⟨ps, hsteps, hps⟩ :=
    finishes_foldl catalog (finishes_lowerTopLevel catalog) m (State.fresh.renew library file)
  exact ⟨ps, hps, hsteps.program_eq⟩

theorem mem_foldl_addProcedure {g : Program} {ps : List Procedure} {q : Procedure}
    (hq : q ∈ (ps.foldl Program.addProcedure g).procedures) : q ∈ g.procedures ∨ q ∈ ps := by
  induction ps generalizing g with
  | nil => exact Or.inl hq
  | cons p ps ih =>
    rcases ih hq with hq | hq
    · rcases mem_addProcedure hq with hq | rfl
      · exact Or.inl hq
      · exact Or.inr List.mem_cons_self
    · exact Or.inr (List.mem_cons_of_mem p hq)

theorem exists_becomes {fs : List (Option String × Function)} {ps : List Procedure}
    (h : List.Forall₂ (Becomes catalog) fs ps) {p : Procedure} (hp : p ∈ ps) :
    ∃ x ∈ fs, Becomes catalog x p := by
  induction h with
  | nil => cases hp
  | cons hx _ ih =>
    rcases List.mem_cons.mp hp with rfl | hp
    · exact ⟨_, List.mem_cons_self, hx⟩
    · obtain ⟨y, hy, hyp⟩ := ih hp
      exact ⟨y, List.mem_cons_of_mem _ hy, hyp⟩

/-- Every procedure of a program is what a function of the module becomes. -/
theorem exists_becomes_of_mem {library : Library} {file : String} {m : Module} {p : Procedure}
    (hp : p ∈ (lowerModule catalog library file m).procedures) :
    ∃ x ∈ moduleFunctions m, Becomes catalog x p := by
  obtain ⟨ps, hps, hprogram⟩ := exists_procedures_lowerModule catalog library file m
  rw [hprogram] at hp
  rcases mem_foldl_addProcedure hp with hp | hp
  · cases hp
  · exact exists_becomes catalog hps hp

/-- A procedure of another name leaves those that are there. -/
theorem find?_addProcedure_of_ne (g : Program) {p : Procedure} {name : String}
    (h : p.name ≠ name) : (g.addProcedure p).find? name = g.find? name := by
  have hother : (p.name == name) = false := beq_eq_false_iff_ne.mpr h
  unfold Program.addProcedure Program.find?
  split
  · induction g.procedures with
    | nil => rfl
    | cons q qs ih =>
      rw [List.map_cons, List.find?_cons, List.find?_cons, ih]
      by_cases hq : q.name = p.name
      · simp [hq, hother]
      · simp [hq]
  · simp [List.find?_append, hother]

theorem find?_foldl_addProcedure (g : Program) {ps : List Procedure} {name : String}
    (h : ∀ p ∈ ps, p.name ≠ name) : (ps.foldl Program.addProcedure g).find? name = g.find? name := by
  induction ps generalizing g with
  | nil => rfl
  | cons p ps ih =>
    rw [List.forall_mem_cons] at h
    rw [List.foldl_cons, ih _ h.2, find?_addProcedure_of_ne g h.1]

theorem Becomes.name_eq {x : Option String × Function} {p : Procedure} (h : Becomes catalog x p) :
    p.name = qualifiedName x.1 x.2.name := by
  obtain ⟨s, rfl⟩ := h
  exact congrArg Prod.fst (header_lowered catalog x.1 x.2 s)

/-- A function is in the program under its name, unless a later one has the same name. -/
theorem find?_lowerModule (library : Library) (file : String) {m : Module}
    {before after : List (Option String × Function)} {x : Option String × Function}
    (hm : moduleFunctions m = before ++ x :: after)
    (hlast : ∀ y ∈ after, qualifiedName y.1 y.2.name ≠ qualifiedName x.1 x.2.name) :
    ∃ s, (lowerModule catalog library file m).find? (qualifiedName x.1 x.2.name) =
      some (lowered catalog x.1 x.2 s) := by
  obtain ⟨ps, hps, hprogram⟩ := exists_procedures_lowerModule catalog library file m
  have hdrop := List.forall₂_drop before.length hps
  rw [hm, List.drop_left] at hdrop
  obtain ⟨p, qs, ⟨s, rfl⟩, hqs, hps⟩ := List.forall₂_cons_left_iff.mp hdrop
  refine ⟨s, ?_⟩
  have hother : ∀ q ∈ qs, q.name ≠ qualifiedName x.1 x.2.name := by
    intro q hq
    obtain ⟨y, hy, hbecomes⟩ := exists_becomes catalog hqs hq
    rw [hbecomes.name_eq]
    exact hlast y hy
  rw [hprogram, ← List.take_append_drop before.length ps, hps, List.foldl_append, List.foldl_cons,
    find?_foldl_addProcedure _ hother, ← Becomes.name_eq catalog ⟨s, rfl⟩]
  exact find?_addProcedure _ _

theorem regular_lowered (owner : Option String) (f : Function) (s : State) :
    (lowered catalog owner f s).Regular := by
  have hentered : (entered owner f s).proc.Regular := by
    obtain ⟨name, params, loc, isStatic, body⟩ := f
    refine ⟨rfl, rfl, ?_, ?_, ?_⟩
    · exact List.forall_mem_singleton.mpr ⟨List.nodup_nil, nofun⟩
    · exact List.forall_mem_singleton.mpr ⟨List.nodup_nil, nofun⟩
    · intro a b
      have hnodes : (entered owner (.mk name params loc isStatic body) s).proc.nodes =
          [{ id := 0, kind := .entry }] := rfl
      unfold Procedure.LeadsTo Procedure.Precedes Procedure.successors Procedure.predecessors
        Procedure.node?
      rw [hnodes, List.find?_singleton, List.find?_singleton]
      split <;> split <;> simp
  obtain ⟨ps, hsteps, _⟩ := (finishes_lowerBlock catalog f.body none _).andThen (steps_closed _)
  exact hsteps.regular hentered

end Functions

end Lowering

end ActorOwnership
