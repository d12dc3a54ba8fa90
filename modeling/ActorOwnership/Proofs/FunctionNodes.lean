import ActorOwnership.Program.OfSource
import ActorOwnership.Proofs.Nodes
import ActorOwnership.Proofs.Regular

/-! The functions of a syntax tree. A definition becomes a procedure where it stands in a module, in
a class or, at any depth, among the statements of another function; of several definitions with one
name the last to be finished is in force. -/

namespace ActorOwnership
open Syntax Surface Lowering
set_option autoImplicit false

/-! ### Definitions among statements -/

namespace Syntax.Tree

def definedStep (t : Tree) (kids : Placed.Kids (List Tree)) : List Tree :=
  match t.kind with
  | .functionDefinition => if t.isFunction then (Placed.blockIn kids "body").flatten ++ [t] else []
  | .decoratedDefinition =>
    ((kids.find? fun k => isDefinition k.1).map fun k => k.2.statement).getD []
  | .ifStatement =>
    (Placed.blockIn kids "consequence" ++ (Placed.elifs kids).flatMap Prod.snd ++
      Placed.otherwise kids).flatten
  | .whileStatement | .forStatement | .withStatement => (Placed.blockIn kids "body").flatten
  | .tryStatement =>
    (Placed.blockIn kids "body" ++ Placed.firstClause kids .elseClause ++
      (Placed.handlers kids).flatten ++ Placed.firstClause kids .finallyClause).flatten
  | _ => []

/-- The functions that a statement defines, at any depth, in the order in which they are finished.
-/
def defined (t : Tree) : List Tree := t.foldStatement definedStep

variable {t : Tree}

theorem defined_simple (h : t.kind.isSimple = true) : t.defined = [] := by
  rw [defined, foldStatement_eq, definedStep]
  split <;> simp_all [Kind.isSimple]

theorem defined_function (h : t.kind = .functionDefinition) :
    t.defined = if t.isFunction then (t.blockIn "body").flatMap defined ++ [t] else [] := by
  rw [defined, foldStatement_eq, definedStep, h]
  simp only [blockIn_placedKids, List.flatMap_def]
  rfl

theorem defined_decorated (h : t.kind = .decoratedDefinition) :
    t.defined = ((t.children.find? isDefinition).map defined).getD [] := by
  rw [defined, foldStatement_eq, definedStep, h]
  simp only [placedKids, List.find?_map, Option.map_map]
  rfl

theorem defined_branch (h : t.kind = .ifStatement) :
    t.defined = (t :: t.elifs).flatMap (fun c => (c.blockIn "consequence").flatMap defined) ++
      t.otherwise.flatMap defined := by
  rw [defined, foldStatement_eq, definedStep, h]
  simp only [blockIn_placedKids, elifs_placedKids, otherwise_placedKids, List.flatMap_def,
    List.flatten_append, List.map_map, Function.comp_def, List.map_cons, List.flatten_cons,
    List.append_assoc]
  rw [List.flatten_flatten, List.map_map]
  rfl

theorem defined_body (h : t.kind = .whileStatement ∨ t.kind = .forStatement ∨
    t.kind = .withStatement) : t.defined = (t.blockIn "body").flatMap defined := by
  rw [defined, foldStatement_eq, definedStep, List.flatMap_def]
  rcases h with h | h | h <;> simp only [h, blockIn_placedKids] <;> rfl

theorem defined_try (h : t.kind = .tryStatement) :
    t.defined = (t.blockIn "body").flatMap defined ++
      (t.firstClause .elseClause).flatMap defined ++
      t.handlers.flatMap (fun ts => ts.flatMap defined) ++
      (t.firstClause .finallyClause).flatMap defined := by
  rw [defined, foldStatement_eq, definedStep, h]
  simp only [blockIn_placedKids, firstClause_placedKids, handlers_placedKids, List.flatMap_def,
    List.flatten_append]
  rw [List.flatten_flatten, List.map_map]
  rfl

theorem defined_other (h : t.kind = .returnStatement ∨ t.kind = .raiseStatement ∨
    t.kind = .breakStatement ∨ t.kind = .continueStatement) : t.defined = [] := by
  rw [defined, foldStatement_eq, definedStep]
  rcases h with h | h | h | h <;> simp only [h]

end Syntax.Tree

namespace Surface
variable (src : Source) (t : Tree)

theorem isSimple_simpleAssignment (left : Tree) :
    ∀ stmt ∈ simpleAssignment src t left, isSimple stmt = true := by
  simp only [simpleAssignment]
  split
  · simp [isSimple]
  · split
    · simp
    · split <;> simp [isSimple]

theorem isSimple_assignmentStatements :
    ∀ stmt ∈ assignmentStatements src t, isSimple stmt = true := by
  induction t using Tree.induct with
  | h t ih =>
    rw [assignmentStatements, Tree.fold_eq]
    split
    · rename_i left right inner _ _ hfind
      obtain ⟨c, hc, heq⟩ := List.mem_map.mp (List.mem_of_find?_eq_some hfind)
      cases heq
      split
      · rw [List.forall_mem_append, List.forall_mem_singleton]
        exact ⟨ih right hc, rfl⟩
      · exact isSimple_simpleAssignment src t left
    · exact isSimple_simpleAssignment src t _
    · simp

theorem isSimple_augmentedAssignment :
    ∀ stmt ∈ augmentedAssignment src t, isSimple stmt = true := by
  unfold augmentedAssignment
  split <;> simp [isSimple]

theorem isSimple_expressionPart : ∀ stmt ∈ expressionPart src t, isSimple stmt = true := by
  simp only [expressionPart]
  split
  · unfold callStatement
    split <;> simp [isSimple]
  · exact isSimple_assignmentStatements src _
  · exact isSimple_augmentedAssignment src _
  · simp

theorem isSimple_simpleStatements : ∀ stmt ∈ simpleStatements src t, isSimple stmt = true := by
  unfold simpleStatements
  split
  · rw [List.forall_mem_flatMap]
    exact fun c _ => isSimple_expressionPart src c
  · exact isSimple_assignmentStatements src t
  · exact isSimple_augmentedAssignment src t
  · simp

end Surface

/-! ### Nodes of functions -/

/-- A function definition, with the class that it is a method of. -/
structure FunctionNode where
  owner : Option String
  node : Tree
  isStatic : Bool

namespace FunctionNode
variable (src : Source)

def name (f : FunctionNode) : String := qualifiedName f.owner (src.textOr "" (f.node.child? "name"))

def body (f : FunctionNode) : List Tree := f.node.blockIn "body"

/-- What the node is read as, with its owner. -/
def function (f : FunctionNode) : Option String × Function :=
  (f.owner, functionAt src f.node f.isStatic)

/-- A function that is defined among statements. -/
def inner (d : Tree) : FunctionNode := ⟨none, d, false⟩

/-- The function, after those that are defined in its body. -/
def finished (f : FunctionNode) : List FunctionNode := (f.body.flatMap Tree.defined).map inner ++ [f]

end FunctionNode

section Nodes
variable (src : Source)

def isStaticMember (t : Tree) : Bool :=
  t.kind = .decoratedDefinition && t.children.any (isStaticDecorator src)

/-- The functions of a member of a class. -/
def memberNodes (owner : String) (t : Tree) : List FunctionNode :=
  t.functionNode?.toList.flatMap fun d =>
    FunctionNode.finished ⟨some owner, d, isStaticMember src t⟩

/-- The functions of a definition in a module. -/
def definitionNodes (d : Tree) : List FunctionNode :=
  if d.kind = .classDefinition then
    (d.blockIn "body").flatMap (memberNodes src (src.textOr "UnknownClass" (d.child? "name")))
  else ((some d).filter Tree.isFunction).toList.flatMap fun d => FunctionNode.finished ⟨none, d, false⟩

/-- The functions of a module, in the order in which they are finished. -/
def moduleNodes (root : Tree) : List FunctionNode :=
  root.children.flatMap fun t =>
    if t.kind = .decoratedDefinition then
      ((t.children.find? isDefinition).map (definitionNodes src)).getD []
    else definitionNodes src t

/-- The node is the last of its name among the functions of the module. -/
def InForce (root : Tree) (f : FunctionNode) : Prop :=
  ∃ before after, moduleNodes src root = before ++ f :: after ∧
    ∀ g ∈ after, g.name src ≠ f.name src

end Nodes

/-! ### From nodes to functions -/

section Functions
variable (src : Source)

theorem blockFunctions_append (stmts stmts' : List Stmt) :
    blockFunctions (stmts ++ stmts') = blockFunctions stmts ++ blockFunctions stmts' := by
  induction stmts with
  | nil => simp only [List.nil_append, blockFunctions]
  | cons stmt stmts ih => simp only [List.cons_append, blockFunctions, ih, List.append_assoc]

theorem blockFunctions_simple {stmts : List Stmt} (h : ∀ stmt ∈ stmts, isSimple stmt = true) :
    blockFunctions stmts = [] := by
  induction stmts with
  | nil => rw [blockFunctions]
  | cons stmt stmts ih =>
    rw [List.forall_mem_cons] at h
    have hstmt : stmtFunctions stmt = [] := by
      cases stmt with
      | call | declare | assign | assignEach | augment => simp only [stmtFunctions]
      | _ => cases h.1
    rw [blockFunctions, hstmt, ih h.2, List.append_nil]

/-- The node defines the functions that its reading does. -/
def Defines (t : Tree) : Prop :=
  blockFunctions (statementsOf src t) = t.defined.map fun d => (FunctionNode.inner d).function src

variable {src}

theorem Defines.block {ts : List Tree} (h : ∀ t ∈ ts, Defines src t) :
    blockFunctions (blockStatements src ts) =
      (ts.flatMap Tree.defined).map fun d => (FunctionNode.inner d).function src := by
  induction ts with
  | nil => simp only [blockStatements, List.flatMap_nil, blockFunctions, List.map_nil]
  | cons t ts ih =>
    rw [List.forall_mem_cons] at h
    rw [blockStatements, List.flatMap_cons, blockFunctions_append, h.1, ← blockStatements, ih h.2,
      List.flatMap_cons, List.map_append]

theorem Defines.clauses {cs : List Tree}
    (h : ∀ c ∈ cs, ∀ t ∈ c.blockIn "consequence", Defines src t) :
    clausesFunctions (cs.map (clauseAt src)) =
      (cs.flatMap fun c => (c.blockIn "consequence").flatMap Tree.defined).map
        fun d => (FunctionNode.inner d).function src := by
  induction cs with
  | nil => simp only [List.map_nil, clausesFunctions, List.flatMap_nil]
  | cons c cs ih =>
    rw [List.forall_mem_cons] at h
    rw [List.map_cons, clauseAt, clausesFunctions, Defines.block h.1, ih h.2, List.flatMap_cons,
      List.map_append]

theorem Defines.handlers {tss : List (List Tree)} (h : ∀ ts ∈ tss, ∀ t ∈ ts, Defines src t) :
    handlersFunctions (tss.map (blockStatements src)) =
      (tss.flatMap fun ts => ts.flatMap Tree.defined).map
        fun d => (FunctionNode.inner d).function src := by
  induction tss with
  | nil => simp only [List.map_nil, handlersFunctions, List.flatMap_nil]
  | cons ts tss ih =>
    rw [List.forall_mem_cons] at h
    rw [List.map_cons, handlersFunctions, Defines.block h.1, ih h.2, List.flatMap_cons,
      List.map_append]

theorem functionsOf_functionAt {d : Tree} (h : ∀ t ∈ d.blockIn "body", Defines src t)
    (owner : Option String) (isStatic : Bool) :
    functionsOf owner (functionAt src d isStatic) =
      (FunctionNode.finished ⟨owner, d, isStatic⟩).map (FunctionNode.function src) := by
  rw [functionAt, functionsOf, Defines.block h, FunctionNode.finished, List.map_append, List.map_map]
  rfl

variable (src)

theorem defines (t : Tree) : Defines src t := by
  induction t using Tree.induct_descendants with
  | h t ih =>
    have hbody : ∀ d ∈ t.blockIn "body", Defines src d :=
      fun d hd => ih d (Tree.descendant_of_blockIn hd)
    have hread := readAs_statementsOf src t
    unfold Defines
    generalize statementsOf src t = stmts at hread ⊢
    cases hread with
    | simple h =>
      rw [Tree.defined_simple h, blockFunctions_simple (isSimple_simpleStatements src t)]
      rfl
    | return_ h | raise h | break_ h | continue_ h =>
      rw [Tree.defined_other (by simp [h])]
      simp only [returnStatement, blockFunctions, stmtFunctions, List.append_nil, List.map_nil]
    | branch h =>
      have hclauses : ∀ c ∈ t :: t.elifs, ∀ d ∈ c.blockIn "consequence", Defines src d := by
        rw [List.forall_mem_cons]
        exact ⟨fun d hd => ih d (Tree.descendant_of_blockIn hd),
          fun c hc d hd => ih d (Tree.descendant_of_elif hc hd)⟩
      have helse : ∀ d ∈ t.otherwise, Defines src d :=
        fun d hd => ih d (Tree.descendant_of_otherwise hd)
      rw [Tree.defined_branch h, List.map_append, ← Defines.clauses hclauses, ← Defines.block helse]
      simp only [blockFunctions, stmtFunctions, List.append_nil]
    | while_ h =>
      rw [Tree.defined_body (Or.inl h), ← Defines.block hbody]
      simp only [blockFunctions, stmtFunctions, List.append_nil]
    | for_ h =>
      rw [Tree.defined_body (Or.inr (Or.inl h)), ← Defines.block hbody]
      simp only [blockFunctions, stmtFunctions, List.append_nil]
    | with_ h =>
      rw [Tree.defined_body (Or.inr (Or.inr h)), ← Defines.block hbody]
      simp only [blockFunctions, stmtFunctions, List.append_nil]
    | try_ h =>
      have hfirst : ∀ kind, ∀ d ∈ t.firstClause kind, Defines src d :=
        fun kind d hd => ih d (Tree.descendant_of_firstClause hd)
      have hhandlers : ∀ ts ∈ t.handlers, ∀ d ∈ ts, Defines src d :=
        fun ts hts d hd => ih d (Tree.descendant_of_handler hts hd)
      rw [Tree.defined_try h, List.map_append, List.map_append, List.map_append,
        ← Defines.block hbody, ← Defines.block (hfirst _), ← Defines.handlers hhandlers,
        ← Defines.block (hfirst _)]
      simp only [blockFunctions, stmtFunctions, List.append_nil]
    | function h =>
      rw [Tree.defined_function h]
      cases t.isFunction with
      | false => simp only [Bool.false_eq_true, if_false, blockFunctions, List.map_nil]
      | true =>
        simp only [if_true, blockFunctions, stmtFunctions, List.append_nil]
        rw [functionsOf_functionAt hbody, FunctionNode.finished, List.map_append, List.map_append,
          List.map_map]
        rfl
    | decorated h =>
      rw [Tree.defined_decorated h]
      cases hfind : t.children.find? isDefinition with
      | none => simp only [Option.map_none, Option.getD_none, blockFunctions, List.map_nil]
      | some d => exact ih d (Tree.child_mem_descendants (List.mem_of_find?_eq_some hfind))

theorem functionsOf_node (f : FunctionNode) :
    functionsOf f.owner (functionAt src f.node f.isStatic) =
      f.finished.map (FunctionNode.function src) :=
  functionsOf_functionAt (fun t _ => defines src t) f.owner f.isStatic

theorem member_outlineOf (t : Tree) : (outlineOf src t).member =
    t.functionNode?.toList.map fun d => functionAt src d (isStaticMember src t) := by
  have hmember : (outlineOf src t).member = Outline.memberOf src t
      (Outline.definitionOf t (outlinesOf src t) (outlineOf src t).function) := by
    rw [outlineOf_eq]
    rfl
  rw [hmember, definitionOf_outlinesOf]
  unfold Outline.memberOf
  cases t.functionNode? with
  | none => rfl
  | some d =>
    simp only [Option.map_some, Option.toList_some, List.map_cons, List.map_nil, isStaticMember]
    split
    · rename_i hstatic
      rw [hstatic]
      rfl
    · rename_i hstatic
      rw [Bool.not_eq_true] at hstatic
      rw [hstatic]

theorem members_outlineOf (t : Tree) : (outlineOf src t).members =
    t.children.flatMap fun c => (outlineOf src c).member := by
  rw [outlineOf_eq, outlinesOf]
  exact List.flatMap_map ..

theorem flatMap_functionsOf_member (owner : String) (t : Tree) :
    (outlineOf src t).member.flatMap (functionsOf (some owner)) =
      (memberNodes src owner t).map (FunctionNode.function src) := by
  rw [member_outlineOf, memberNodes]
  cases t.functionNode? with
  | none => rfl
  | some d =>
    simp only [Option.toList_some, List.map_cons, List.map_nil, List.flatMap_cons, List.flatMap_nil,
      List.append_nil]
    exact functionsOf_node src ⟨some owner, d, isStaticMember src t⟩

/-- The functions of a class or a function of the module. -/
theorem flatMap_topLevelFunctions_definition {d : Tree} (h : d.kind ≠ .decoratedDefinition) :
    (outlineOf src d).topLevel.flatMap topLevelFunctions =
      (definitionNodes src d).map (FunctionNode.function src) := by
  have htop : (outlineOf src d).topLevel = Outline.topLevelOf src d (outlinesOf src d)
      (outlineOf src d).function := by
    rw [outlineOf_eq]
    rfl
  rw [htop, function_outlineOf, Outline.topLevelOf, definitionNodes]
  split
  · rename_i hkind
    have hclass : d.kind ≠ .classDefinition := by
      rw [hkind]
      decide
    rw [if_neg hclass, Option.filter_some]
    split
    · simp only [Option.toList_some, List.map_cons, List.map_nil, List.flatMap_cons,
        List.flatMap_nil, List.append_nil, topLevelFunctions]
      exact functionsOf_node src ⟨none, d, false⟩
    · rfl
  · rename_i hkind
    have hbody : ((Folded.child? (outlinesOf src d) "body").map Outline.members).getD [] =
        (d.blockIn "body").flatMap fun c => (outlineOf src c).member := by
      rw [Folded.child?, outlinesOf, List.find?_map, Tree.blockIn, Tree.child?]
      simp only [Function.comp_def, Option.map_map]
      cases d.children.find? fun c => c.field == some "body" with
      | none => rfl
      | some c => exact members_outlineOf src c
    rw [if_pos hkind, hbody, List.map_flatMap]
    simp only [List.flatMap_cons, List.flatMap_nil, List.append_nil, topLevelFunctions,
      List.flatMap_assoc, flatMap_functionsOf_member]
  · contradiction
  · rename_i hfunction hclass _
    rw [if_neg hclass, Option.filter_some, Tree.isFunction]
    simp [show d.kind ≠ .functionDefinition from hfunction]

/-- The functions of a module are those of its nodes. -/
theorem moduleFunctions_moduleOfTree (root : Tree) :
    moduleFunctions (moduleOfTree src root) =
      (moduleNodes src root).map (FunctionNode.function src) := by
  rw [moduleFunctions, moduleOfTree, List.flatMap_assoc, moduleNodes, List.map_flatMap]
  refine List.flatMap_congr fun t _ => ?_
  split
  · rename_i hkind
    have htop : (outlineOf src t).topLevel =
        ((t.children.find? isDefinition).map fun d => (outlineOf src d).topLevel).getD [] := by
      rw [outlineOf_eq, Outline.step, Outline.topLevelOf, hkind, outlinesOf, List.find?_map,
        Option.map_map]
      rfl
    rw [htop]
    cases hfind : t.children.find? isDefinition with
    | none => rfl
    | some d =>
      have hd := List.find?_some hfind
      refine flatMap_topLevelFunctions_definition src ?_
      intro hdecorated
      rw [isDefinition, hdecorated] at hd
      cases hd
  · rename_i hkind
    exact flatMap_topLevelFunctions_definition src hkind

end Functions

/-- The function in force is what its name stands for in the program. -/
theorem find?_ofTree (catalog : Catalog) (library : Library) (file text : String) {root : Tree}
    {f : FunctionNode} (h : InForce (.ofText file text) root f) :
    ∃ s, (Program.ofTree catalog library file text root).find? (f.name (.ofText file text)) =
      some (lowered catalog f.owner (functionAt (.ofText file text) f.node f.isStatic) s) := by
  obtain ⟨before, after, hnodes, hlast⟩ := h
  have hfunctions : moduleFunctions (moduleOfTree (.ofText file text) root) =
      before.map (FunctionNode.function (.ofText file text)) ++
        f.function (.ofText file text) :: after.map (FunctionNode.function (.ofText file text)) := by
    rw [moduleFunctions_moduleOfTree, hnodes, List.map_append, List.map_cons]
  refine find?_lowerModule catalog library file hfunctions ?_
  intro y hy
  obtain ⟨g, hg, rfl⟩ := List.mem_map.mp hy
  exact hlast g hg

end ActorOwnership
