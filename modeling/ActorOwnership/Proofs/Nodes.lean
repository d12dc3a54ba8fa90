import ActorOwnership.Proofs.Reading

/-! Statements of a syntax tree, node by node. The blocks of a statement are lists of nodes below
it; a statement is read as what its kind says, with its blocks read in the same way. -/

namespace ActorOwnership
open Syntax Surface
set_option autoImplicit false

/-! ### The blocks of a node -/

namespace Syntax.Tree
variable {c d t : Tree} {f : String}

/-- All nodes below a node. -/
def descendants (t : Tree) : List Tree := t.children.flatMap subtrees

/-- The statements of the block in the role `f`. -/
def blockIn (t : Tree) (f : String) : List Tree := ((t.child? f).map children).getD []

/-- The statements of a clause: those of its body, or else of its first block. -/
def clauseBlock (t : Tree) : List Tree :=
  (((t.child? "body").or (t.children.find? (·.kind = .block))).map children).getD []

def alternatives (t : Tree) (kind : Kind) : List Tree :=
  t.children.filter fun c => c.field == some "alternative" && c.kind = kind

def elifs (t : Tree) : List Tree := t.alternatives .elifClause

/-- The statements for the case that no condition holds. -/
def otherwise (t : Tree) : List Tree :=
  ((t.alternatives .elseClause).getLast?.map clauseBlock).getD []

def handlers (t : Tree) : List (List Tree) :=
  (t.children.filter fun c => c.kind = .exceptClause || c.kind = .exceptGroupClause).map clauseBlock

def firstClause (t : Tree) (kind : Kind) : List Tree :=
  ((t.children.find? (·.kind = kind)).map clauseBlock).getD []

/-- A function definition with a name. -/
def isFunction (t : Tree) : Bool := t.kind = .functionDefinition && (t.child? "name").isSome

/-- The function that a node defines, perhaps under decorators. -/
def functionNode? (t : Tree) : Option Tree :=
  (if t.kind = .decoratedDefinition then t.children.find? isDefinition else some t).filter isFunction

theorem mem_subtrees_iff : d ∈ t.subtrees ↔ d = t ∨ d ∈ t.descendants := by
  rw [mem_subtrees, descendants, List.mem_flatMap]

theorem mem_descendants_of_child (hc : c ∈ t.children) (hd : d ∈ c.subtrees) : d ∈ t.descendants :=
  List.mem_flatMap.mpr ⟨c, hc, hd⟩

theorem child_mem_descendants (hc : c ∈ t.children) : c ∈ t.descendants :=
  mem_descendants_of_child hc c.self_mem_subtrees

theorem mem_descendants_trans (hc : c ∈ t.children) (hd : d ∈ c.descendants) : d ∈ t.descendants :=
  mem_descendants_of_child hc (mem_subtrees_iff.mpr (Or.inr hd))

theorem mem_descendants_of_subtree (hc : c ∈ t.subtrees) (hd : d ∈ c.descendants) :
    d ∈ t.descendants := by
  rcases mem_subtrees_iff.mp hc with rfl | hc
  · exact hd
  · obtain ⟨c', hc', hc⟩ := List.mem_flatMap.mp hc
    exact mem_descendants_of_child hc' (subtrees_trans (mem_subtrees_iff.mpr (Or.inr hd)) hc)

/-- Induction on a tree with the hypothesis for all nodes below. -/
theorem induct_descendants {P : Tree → Prop} (h : ∀ t, (∀ d ∈ t.descendants, P d) → P t)
    (t : Tree) : P t := by
  have hall : ∀ t : Tree, ∀ d ∈ t.subtrees, P d := by
    intro t
    induction t using induct with
    | h t ih =>
      have hdescendants : ∀ d ∈ t.descendants, P d := by
        intro d hd
        obtain ⟨c, hc, hd⟩ := List.mem_flatMap.mp hd
        exact ih c hc d hd
      intro d hd
      rcases mem_subtrees_iff.mp hd with rfl | hd
      · exact h d hdescendants
      · exact hdescendants d hd
  exact hall t t t.self_mem_subtrees

theorem mem_of_getD_map {g : Tree → List Tree} {o : Option Tree} (h : d ∈ (o.map g).getD []) :
    ∃ c, o = some c ∧ d ∈ g c := by
  cases o with
  | none => cases h
  | some c => exact ⟨c, rfl, h⟩

theorem descendant_of_blockIn (h : d ∈ t.blockIn f) : d ∈ t.descendants := by
  obtain ⟨c, hc, hd⟩ := mem_of_getD_map h
  exact mem_descendants_trans (mem_children_of_child? hc) (child_mem_descendants hd)

theorem descendant_of_clauseBlock (h : d ∈ t.clauseBlock) : d ∈ t.descendants := by
  obtain ⟨c, hc, hd⟩ := mem_of_getD_map h
  have hchild : c ∈ t.children := by
    rcases Option.or_eq_some_iff.mp hc with hc | ⟨_, hc⟩
    · exact mem_children_of_child? hc
    · exact List.mem_of_find?_eq_some hc
  exact mem_descendants_trans hchild (child_mem_descendants hd)

theorem descendant_of_elif (hc : c ∈ t.elifs) (h : d ∈ c.blockIn f) : d ∈ t.descendants :=
  mem_descendants_trans (List.mem_filter.mp hc).1 (descendant_of_blockIn h)

theorem descendant_of_otherwise (h : d ∈ t.otherwise) : d ∈ t.descendants := by
  obtain ⟨c, hc, hd⟩ := mem_of_getD_map h
  exact mem_descendants_trans (List.mem_filter.mp (List.mem_of_getLast? hc)).1
    (descendant_of_clauseBlock hd)

theorem descendant_of_handler {ts : List Tree} (hts : ts ∈ t.handlers) (h : d ∈ ts) :
    d ∈ t.descendants := by
  obtain ⟨c, hc, rfl⟩ := List.mem_map.mp hts
  exact mem_descendants_trans (List.mem_filter.mp hc).1 (descendant_of_clauseBlock h)

theorem descendant_of_firstClause {kind : Kind} (h : d ∈ t.firstClause kind) : d ∈ t.descendants := by
  obtain ⟨c, hc, hd⟩ := mem_of_getD_map h
  exact mem_descendants_trans (List.mem_of_find?_eq_some hc) (descendant_of_clauseBlock hd)

end Syntax.Tree

/-! ### Values of statements -/

/-- The value of a node in the place of a statement, and the values of the statements of its blocks.
-/
structure Placed (α : Type) where
  statement : α
  /-- The children, as the statements of a block. -/
  block : List α
  /-- The statements of a clause with a condition. -/
  consequence : List α
  /-- The statements of any other clause. -/
  body : List α

namespace Placed

abbrev Kids (α : Type) := List (Tree × Placed α)

variable {α : Type}

def blockIn (kids : Kids α) (f : String) : List α := ((Folded.child? kids f).map block).getD []

def clauseBlock (kids : Kids α) : List α :=
  (((Folded.child? kids "body").or
    ((kids.find? fun k => k.1.kind = .block).map Prod.snd)).map block).getD []

def alternatives (kids : Kids α) (kind : Kind) : Kids α :=
  kids.filter fun k => k.1.field == some "alternative" && k.1.kind = kind

/-- The clauses with another condition. -/
def elifs (kids : Kids α) : List (Tree × List α) :=
  (alternatives kids .elifClause).map fun k => (k.1, k.2.consequence)

def otherwise (kids : Kids α) : List α :=
  ((alternatives kids .elseClause).getLast?.map fun k => k.2.body).getD []

def handlers (kids : Kids α) : List (List α) :=
  (kids.filter fun k => k.1.kind = .exceptClause || k.1.kind = .exceptGroupClause).map
    fun k => k.2.body

def firstClause (kids : Kids α) (kind : Kind) : List α :=
  ((kids.find? fun k => k.1.kind = kind).map fun k => k.2.body).getD []

end Placed

namespace Syntax.Tree
variable {α : Type}

def place (f : Tree → Placed.Kids α → α) (t : Tree) : Placed α :=
  t.fold fun t kids =>
    { statement := f t kids
      block := kids.map fun k => k.2.statement
      consequence := Placed.blockIn kids "consequence"
      body := Placed.clauseBlock kids }

/-- Computes a value for each statement from its node and the values of the statements in it. -/
def foldStatement (f : Tree → Placed.Kids α → α) (t : Tree) : α := (t.place f).statement

def placedKids (f : Tree → Placed.Kids α → α) (t : Tree) : Placed.Kids α :=
  t.children.map fun c => (c, c.place f)

variable (f : Tree → Placed.Kids α → α) (t : Tree)

theorem foldStatement_eq : t.foldStatement f = f t (t.placedKids f) := by
  rw [foldStatement, place, fold_eq]
  rfl

theorem block_place : (t.place f).block = t.children.map (foldStatement f) := by
  rw [place, fold_eq, List.map_map]
  rfl

theorem blockIn_placedKids (r : String) :
    Placed.blockIn (t.placedKids f) r = (t.blockIn r).map (foldStatement f) := by
  rw [Placed.blockIn, Folded.child?, placedKids, List.find?_map, blockIn, child?]
  simp only [Function.comp_def, Option.map_map]
  cases t.children.find? fun c => c.field == some r with
  | none => rfl
  | some c => exact block_place f c

theorem clauseBlock_placedKids :
    Placed.clauseBlock (t.placedKids f) = t.clauseBlock.map (foldStatement f) := by
  rw [Placed.clauseBlock, Folded.child?, placedKids, List.find?_map, List.find?_map, clauseBlock,
    child?]
  simp only [Function.comp_def, Option.map_map]
  cases t.children.find? fun c => c.field == some "body" with
  | some c => exact block_place f c
  | none =>
    cases t.children.find? fun c => decide (c.kind = .block) with
    | none => rfl
    | some c => exact block_place f c

theorem consequence_place :
    (t.place f).consequence = (t.blockIn "consequence").map (foldStatement f) := by
  rw [← blockIn_placedKids, place, fold_eq]
  rfl

theorem body_place : (t.place f).body = t.clauseBlock.map (foldStatement f) := by
  rw [← clauseBlock_placedKids, place, fold_eq]
  rfl

theorem elifs_placedKids : Placed.elifs (t.placedKids f) =
    t.elifs.map fun c => (c, (c.blockIn "consequence").map (foldStatement f)) := by
  rw [Placed.elifs, Placed.alternatives, placedKids, List.filter_map, List.map_map]
  exact List.map_congr_left fun c _ => congrArg (Prod.mk c) (consequence_place f c)

theorem otherwise_placedKids :
    Placed.otherwise (t.placedKids f) = t.otherwise.map (foldStatement f) := by
  rw [Placed.otherwise, Placed.alternatives, placedKids, List.filter_map, List.getLast?_map,
    otherwise, alternatives]
  simp only [Function.comp_def, Option.map_map]
  cases (t.children.filter fun c => c.field == some "alternative" && c.kind = .elseClause).getLast?
    with
  | none => rfl
  | some c => exact body_place f c

theorem handlers_placedKids :
    Placed.handlers (t.placedKids f) = t.handlers.map (List.map (foldStatement f)) := by
  rw [Placed.handlers, placedKids, List.filter_map, List.map_map, handlers, List.map_map]
  exact List.map_congr_left fun c _ => body_place f c

theorem firstClause_placedKids (kind : Kind) :
    Placed.firstClause (t.placedKids f) kind = (t.firstClause kind).map (foldStatement f) := by
  rw [Placed.firstClause, placedKids, List.find?_map, firstClause]
  simp only [Function.comp_def, Option.map_map]
  cases t.children.find? fun c => decide (c.kind = kind) with
  | none => rfl
  | some c => exact body_place f c

end Syntax.Tree

/-! ### Readings of statements -/

/-- Statements without blocks that go on to what comes next. -/
def Syntax.Kind.isSimple : Kind → Bool
  | .functionDefinition | .decoratedDefinition | .returnStatement | .raiseStatement
  | .breakStatement | .continueStatement | .ifStatement | .whileStatement | .forStatement
  | .tryStatement | .withStatement => false
  | _ => true

namespace Surface
variable (src : Source) (t : Tree)

def statementsOf : List Stmt := (outlineOf src t).statement

def blockStatements (ts : List Tree) : List Stmt := ts.flatMap (statementsOf src)

/-- The assignments and calls that a statement without blocks stands for. -/
def simpleStatements : List Stmt :=
  match t.kind with
  | .expressionStatement => t.children.flatMap (expressionPart src)
  | .assignment => assignmentStatements src t
  | .augmentedAssignment => augmentedAssignment src t
  | _ => []

def clauseAt : Clause :=
  .mk (Outline.conditionOf src t) (locationOf src t) (blockStatements src (t.blockIn "consequence"))

def functionAt (isStatic : Bool) : Function :=
  .mk (src.textOr "" (t.child? "name")) (parametersOf src t) (locationOf src t) isStatic
    (blockStatements src (t.blockIn "body"))

def outlinesOf : Outline.Kids := t.children.map fun c => (c, outlineOf src c)

theorem outlineOf_eq : outlineOf src t = Outline.step src t (outlinesOf src t) := Tree.fold_eq _ t

theorem block_outlineOf : (outlineOf src t).block = blockStatements src t.children := by
  rw [outlineOf_eq, blockStatements]
  exact List.flatMap_map ..

theorem blockOf_outlinesOf (f : String) :
    Outline.blockOf (outlinesOf src t) f = blockStatements src (t.blockIn f) := by
  rw [Outline.blockOf, Folded.child?, outlinesOf, List.find?_map, Tree.blockIn, Tree.child?]
  simp only [Function.comp_def, Option.map_map]
  cases t.children.find? fun c => c.field == some f with
  | none => rfl
  | some c => exact block_outlineOf src c

theorem body_outlineOf : (outlineOf src t).body = blockStatements src t.clauseBlock := by
  have hbody : (outlineOf src t).body = Outline.bodyOf (outlinesOf src t) := by
    rw [outlineOf_eq]
    rfl
  rw [hbody, Outline.bodyOf, Folded.child?, outlinesOf, List.find?_map, List.find?_map,
    Tree.clauseBlock, Tree.child?]
  simp only [Function.comp_def, Option.map_map]
  cases t.children.find? fun c => c.field == some "body" with
  | some c => exact block_outlineOf src c
  | none =>
    cases t.children.find? fun c => decide (c.kind = .block) with
    | none => rfl
    | some c => exact block_outlineOf src c

theorem clauseOf_outlinesOf : Outline.clauseOf src t (outlinesOf src t) = clauseAt src t := by
  rw [Outline.clauseOf, blockOf_outlinesOf]
  rfl

theorem clause_outlineOf : (outlineOf src t).clause = clauseAt src t := by
  rw [← clauseOf_outlinesOf, outlineOf_eq]
  rfl

theorem lastElse_outlinesOf :
    Outline.lastElse (outlinesOf src t) = blockStatements src t.otherwise := by
  rw [Outline.lastElse, outlinesOf, List.filter_map, List.getLast?_map, Tree.otherwise,
    Tree.alternatives]
  simp only [Function.comp_def, Option.map_map]
  cases (t.children.filter fun c => c.field == some "alternative" && c.kind = .elseClause).getLast?
    with
  | none => rfl
  | some c => exact body_outlineOf src c

theorem branchOf_outlinesOf : Outline.branchOf (outlinesOf src t) (clauseAt src t) =
    .branch ((t :: t.elifs).map (clauseAt src)) (blockStatements src t.otherwise) := by
  rw [Outline.branchOf, lastElse_outlinesOf, outlinesOf, List.filter_map, List.map_map,
    List.map_cons]
  simp only [Function.comp_def, clause_outlineOf]
  rfl

theorem firstBody_outlinesOf (kind : Kind) :
    Outline.firstBody (outlinesOf src t) kind = blockStatements src (t.firstClause kind) := by
  rw [Outline.firstBody, outlinesOf, List.find?_map, Tree.firstClause]
  simp only [Function.comp_def, Option.map_map]
  cases t.children.find? fun c => decide (c.kind = kind) with
  | none => rfl
  | some c => exact body_outlineOf src c

theorem tryOf_outlinesOf : Outline.tryOf (outlinesOf src t) =
    .try_ (blockStatements src (t.blockIn "body")) (blockStatements src (t.firstClause .elseClause))
      (t.handlers.map (blockStatements src)) (blockStatements src (t.firstClause .finallyClause)) := by
  rw [Outline.tryOf, blockOf_outlinesOf, firstBody_outlinesOf, firstBody_outlinesOf, Tree.handlers,
    List.map_map, outlinesOf, List.filter_map, List.map_map]
  have hbodies : ∀ c : Tree, (outlineOf src c).body = blockStatements src c.clauseBlock :=
    body_outlineOf src
  simp only [Function.comp_def, hbodies]

theorem function_outlineOf : (outlineOf src t).function =
    if t.isFunction then some (functionAt src t false) else none := by
  have hfunction : (outlineOf src t).function = Outline.functionOf src t (outlinesOf src t) := by
    rw [outlineOf_eq]
    rfl
  rw [hfunction, Outline.functionOf, blockOf_outlinesOf, Tree.isFunction, functionAt]
  by_cases hkind : t.kind = .functionDefinition
  · cases hname : t.child? "name" <;> simp [hkind, Source.textOr]
  · simp [hkind]

theorem definitionOf_outlinesOf :
    Outline.definitionOf t (outlinesOf src t) (outlineOf src t).function =
      t.functionNode?.map fun d => functionAt src d false := by
  have hown : ∀ d : Tree, (outlineOf src d).function =
      ((some d).filter Tree.isFunction).map fun d => functionAt src d false := by
    intro d
    rw [function_outlineOf, Option.filter_some]
    split <;> rfl
  rw [Outline.definitionOf, Tree.functionNode?]
  split
  · rename_i hkind
    rw [hown, if_neg (by simp [hkind])]
  · rename_i hkind
    rw [if_pos hkind, outlinesOf, List.find?_map]
    cases hfind : t.children.find? isDefinition with
    | none => simp [Function.comp_def, hfind]
    | some d =>
      simp only [Function.comp_def, hfind, Option.map_some]
      rw [hown]
      split
      · rfl
      · rename_i hd
        simp [Option.filter_some, Tree.isFunction, hd]
  · rename_i hfunction hdecorated
    rw [if_neg hdecorated, Option.filter_some, Tree.isFunction]
    simp [show t.kind ≠ .functionDefinition from hfunction]

theorem statementsOf_eq : statementsOf src t = Outline.statementOf src t (outlinesOf src t)
    (t.functionNode?.map fun d => functionAt src d false) := by
  rw [← definitionOf_outlinesOf, statementsOf, outlineOf_eq]
  rfl

/-- A definition that has no decorators is a function with a name, or it is left out. -/
theorem statementsOf_definition (h : isDefinition t = true) :
    statementsOf src t = if t.isFunction then [.define (functionAt src t false)] else [] := by
  rw [isDefinition, Bool.or_eq_true, decide_eq_true_iff, decide_eq_true_iff] at h
  have hplain : t.kind ≠ .decoratedDefinition := by rcases h with h | h <;> simp [h]
  rw [statementsOf_eq, Outline.statementOf, Tree.functionNode?, if_neg hplain, Option.filter_some]
  rcases h with h | h
  · rw [h]
    cases t.isFunction <;> rfl
  · have hclass : t.isFunction = false := by simp [Tree.isFunction, h]
    rw [h, hclass]
    rfl

theorem statementsOf_branch (h : t.kind = .ifStatement) : statementsOf src t =
    [.branch ((t :: t.elifs).map (clauseAt src)) (blockStatements src t.otherwise)] := by
  rw [statementsOf_eq, Outline.statementOf, h, clauseOf_outlinesOf, branchOf_outlinesOf]

theorem statementsOf_while (h : t.kind = .whileStatement) : statementsOf src t =
    [.while_ (locationOf src t) (Outline.conditionOf src t)
      (blockStatements src (t.blockIn "body"))] := by
  rw [statementsOf_eq, Outline.statementOf, h, blockOf_outlinesOf]

theorem statementsOf_for (h : t.kind = .forStatement) : statementsOf src t =
    [.for_ (locationOf src t) (((t.child? "left").map (targetsOf src)).getD [])
      (expOfTree? src (t.child? "right")) (blockStatements src (t.blockIn "body"))] := by
  rw [statementsOf_eq, Outline.statementOf, h, blockOf_outlinesOf]

theorem statementsOf_with (h : t.kind = .withStatement) : statementsOf src t =
    [.with_ (locationOf src t) (withItems src t) (blockStatements src (t.blockIn "body"))] := by
  rw [statementsOf_eq, Outline.statementOf, h, blockOf_outlinesOf]

theorem statementsOf_try (h : t.kind = .tryStatement) : statementsOf src t =
    [.try_ (blockStatements src (t.blockIn "body")) (blockStatements src (t.firstClause .elseClause))
      (t.handlers.map (blockStatements src)) (blockStatements src (t.firstClause .finallyClause))] := by
  rw [statementsOf_eq, Outline.statementOf, h, tryOf_outlinesOf]

/-- How a statement is read. -/
inductive ReadAs : List Stmt → Prop where
  | simple : t.kind.isSimple = true → ReadAs (simpleStatements src t)
  | return_ : t.kind = .returnStatement → ReadAs [returnStatement src t]
  | raise : t.kind = .raiseStatement → ReadAs [.raise]
  | break_ : t.kind = .breakStatement → ReadAs [.break_]
  | continue_ : t.kind = .continueStatement → ReadAs [.continue_]
  | branch : t.kind = .ifStatement →
      ReadAs [.branch ((t :: t.elifs).map (clauseAt src)) (blockStatements src t.otherwise)]
  | while_ : t.kind = .whileStatement →
      ReadAs [.while_ (locationOf src t) (Outline.conditionOf src t)
        (blockStatements src (t.blockIn "body"))]
  | for_ : t.kind = .forStatement →
      ReadAs [.for_ (locationOf src t) (((t.child? "left").map (targetsOf src)).getD [])
        (expOfTree? src (t.child? "right")) (blockStatements src (t.blockIn "body"))]
  | with_ : t.kind = .withStatement →
      ReadAs [.with_ (locationOf src t) (withItems src t) (blockStatements src (t.blockIn "body"))]
  | try_ : t.kind = .tryStatement →
      ReadAs [.try_ (blockStatements src (t.blockIn "body"))
        (blockStatements src (t.firstClause .elseClause)) (t.handlers.map (blockStatements src))
        (blockStatements src (t.firstClause .finallyClause))]
  | function : t.kind = .functionDefinition →
      ReadAs (if t.isFunction then [.define (functionAt src t false)] else [])
  | decorated : t.kind = .decoratedDefinition →
      ReadAs (((t.children.find? isDefinition).map (statementsOf src)).getD [])

/-- A decorated definition is at most one statement, the one of the definition below. -/
theorem definition_statements :
    ((t.children.find? isDefinition).map (statementsOf src)).getD [] = [] ∨
      ∃ f, ((t.children.find? isDefinition).map (statementsOf src)).getD [] = [.define f] := by
  cases hfind : t.children.find? isDefinition with
  | none => exact Or.inl rfl
  | some d =>
    rw [Option.map_some, Option.getD_some, statementsOf_definition src d (List.find?_some hfind)]
    split
    · exact Or.inr ⟨_, rfl⟩
    · exact Or.inl rfl

theorem readAs_statementsOf : ReadAs src t (statementsOf src t) := by
  have hsimple {stmts : List Stmt} (hkind : t.kind.isSimple = true)
      (hstmts : simpleStatements src t = stmts) : ReadAs src t stmts := hstmts ▸ .simple hkind
  by_cases hfunction : t.kind = .functionDefinition
  · rw [statementsOf_definition src t (by rw [isDefinition, hfunction]; rfl)]
    exact .function hfunction
  by_cases hdecorated : t.kind = .decoratedDefinition
  · have hread : statementsOf src t =
        ((t.children.find? isDefinition).map (statementsOf src)).getD [] := by
      rw [statementsOf_eq, Outline.statementOf, hdecorated, Tree.functionNode?, if_pos hdecorated]
      cases hfind : t.children.find? isDefinition with
      | none => rfl
      | some d =>
        rw [Option.filter_some, Option.map_some, Option.getD_some,
          statementsOf_definition src d (List.find?_some hfind)]
        cases d.isFunction <;> rfl
    rw [hread]
    exact .decorated hdecorated
  by_cases hbranch : t.kind = .ifStatement
  · exact statementsOf_branch src t hbranch ▸ .branch hbranch
  by_cases hwhile : t.kind = .whileStatement
  · exact statementsOf_while src t hwhile ▸ .while_ hwhile
  by_cases hfor : t.kind = .forStatement
  · exact statementsOf_for src t hfor ▸ .for_ hfor
  by_cases hwith : t.kind = .withStatement
  · exact statementsOf_with src t hwith ▸ .with_ hwith
  by_cases htry : t.kind = .tryStatement
  · exact statementsOf_try src t htry ▸ .try_ htry
  rw [statementsOf_eq]
  unfold Outline.statementOf
  split
  case h_3 h => exact hsimple (by rw [h]; rfl) (by simp only [simpleStatements, h])
  case h_4 h => exact hsimple (by rw [h]; rfl) (by simp only [simpleStatements, h])
  case h_5 h => exact hsimple (by rw [h]; rfl) (by simp only [simpleStatements, h])
  case h_6 h => exact .return_ h
  case h_12 h => exact .raise h
  case h_13 h => exact .break_ h
  case h_14 h => exact .continue_ h
  case h_15 =>
    refine hsimple ?_ ?_
    · unfold Kind.isSimple
      split <;> first | rfl | contradiction
    · unfold simpleStatements
      split <;> first | rfl | contradiction
  all_goals contradiction

theorem statementsOf_simple (h : t.kind.isSimple = true) :
    statementsOf src t = simpleStatements src t := by
  have hread := readAs_statementsOf src t
  generalize statementsOf src t = stmts at hread ⊢
  cases hread with
  | simple => rfl
  | return_ hkind | raise hkind | break_ hkind | continue_ hkind | branch hkind | while_ hkind
  | for_ hkind | with_ hkind | try_ hkind | function hkind | decorated hkind =>
    rw [hkind] at h
    cases h

end Surface

end ActorOwnership
