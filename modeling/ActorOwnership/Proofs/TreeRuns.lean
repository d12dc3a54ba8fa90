import ActorOwnership.Proofs.FunctionNodes

/-! Complete runs of a function, read off its syntax tree. The graph of a function that is built
from simple statements, branches, loops and contexts has the paths of these runs, and no others. -/

namespace ActorOwnership
open Syntax Surface
set_option autoImplicit false

/-- Statements that are more than a choice or a repetition of others. -/
def Syntax.Kind.isUnstructured : Kind → Bool
  | .tryStatement | .functionDefinition | .classDefinition | .decoratedDefinition => true
  | .other name => name == "match_statement"
  | _ => false

namespace Syntax.Tree

def hasLoopElse (t : Tree) : Bool :=
  (t.kind = .whileStatement || t.kind = .forStatement) && !(t.alternatives .elseClause).isEmpty

/-- No guarded block, no definition, no `match` and no loop with an `else`, at any depth. -/
def isStructured (t : Tree) : Bool :=
  t.subtrees.all fun d => !(d.kind.isUnstructured || d.hasLoopElse)

theorem isStructured_of_descendant {d t : Tree} (h : t.isStructured = true) (hd : d ∈ t.descendants) :
    d.isStructured = true := by
  have hsub : d ∈ t.subtrees := mem_subtrees_iff.mpr (Or.inr hd)
  rw [isStructured, List.all_eq_true] at h ⊢
  exact fun c hc => h c (subtrees_trans hc hsub)

theorem not_isUnstructured {t : Tree} (h : t.isStructured = true) :
    t.kind.isUnstructured = false := by
  rw [isStructured, List.all_eq_true] at h
  have hself := h t t.self_mem_subtrees
  rw [Bool.not_eq_true', Bool.or_eq_false_iff] at hself
  exact hself.1

end Syntax.Tree

namespace Lowering
open State Behaviour

/-! ### Runs of a tree -/

/-- The runs of a piece of code after `n` temporaries, and how many temporaries there are after it.
The temporaries are counted along the text and not along a run. -/
structure Code where
  runs : Nat → Behaviour
  after : Nat → Nat

namespace Code

/-- Nothing is emitted. -/
def ends (e : Ending) : Code := ⟨fun _ => just [] e, fun n => n⟩

/-- What a step emits. -/
def emits (f : State → State) (e : Ending) : Code := ⟨fun n => just (emitted f n) e, counted f⟩

def andThen (c d : Code) : Code :=
  ⟨fun n => (c.runs n).andThen (d.runs (c.after n)), fun n => d.after (c.after n)⟩

def block (cs : List Code) : Code := cs.foldr andThen (ends .next)

/-- Both assumptions of a condition, and then one of two pieces. -/
def choice (head : List Instr) (c d : Code) : Code :=
  ⟨fun n => (just head .next).andThen (either (c.runs n) (d.runs (c.after n))),
    fun n => d.after (c.after n)⟩

def loop (head : List Instr) (c : Code) : Code := ⟨fun n => Repeat head (c.runs n), c.after⟩

def none : Code := ⟨fun _ => never, fun n => n⟩

end Code

section Trees
variable (catalog : Catalog) (src : Source)

/-- A clause with a condition, and what comes where the condition does not hold. -/
def clauseCode (c : Tree) (body rest : Code) : Code :=
  .choice (assumptions (locationOf src c) (Outline.conditionOf src c) (.ifTrue, .ifFalse)) body rest

def codeStep (t : Tree) (kids : Placed.Kids Code) : Code :=
  let loc := locationOf src t
  let body := Code.block (Placed.blockIn kids "body")
  match t.kind with
  | .returnStatement =>
    .emits (giveBack catalog loc (t.namedChildren.head?.map (operandOfTree src))) .left
  | .raiseStatement => .ends .left
  | .breakStatement => .ends .broken
  | .continueStatement => .ends .continued
  | .ifStatement =>
    ((t, Placed.blockIn kids "consequence") :: Placed.elifs kids).foldr
      (fun c => clauseCode src c.1 (.block c.2)) (.block (Placed.otherwise kids))
  | .whileStatement =>
    .loop (assumptions loc (Outline.conditionOf src t) (.whileTrue, .whileFalse)) body
  | .forStatement =>
    let targets := ((t.child? "left").map (targetsOf src)).getD []
    .loop (assumptions loc (.const (.bool true)) (.forEnter, .forExit))
      ((Code.emits (takeNext loc targets (expOfTree? src (t.child? "right"))) .next).andThen body)
  | .withStatement => (Code.emits (enterAll catalog loc (withItems src t)) .next).andThen body
  | .tryStatement | .functionDefinition | .decoratedDefinition => .none
  | _ => .emits (lowerBlock catalog Option.none (simpleStatements src t)) .next

/-- The runs of a statement. -/
def codeOf (t : Tree) : Code := t.foldStatement (codeStep catalog src)

/-- The instructions of a run of a whole body, which comes to the end or leaves the function before.
-/
def TreeRun (body : List Tree) (n : Nat) (xs : List Instr) : Prop :=
  (Code.block (body.map (codeOf catalog src))).runs n xs .next ∨
    (Code.block (body.map (codeOf catalog src))).runs n xs .left

end Trees

/-! ### Laws of runs -/

namespace Behaviour
variable (B C D : Behaviour)

theorem andThen_assoc : (B.andThen C).andThen D = B.andThen (C.andThen D) := by
  funext xs e
  apply propext
  constructor
  · rintro (⟨⟨hB, hne⟩ | ⟨ys, zs, rfl, hB, hC⟩, hne'⟩ |
      ⟨_, zs, rfl, ⟨_, hnext⟩ | ⟨us, vs, rfl, hB, hC⟩, hD⟩)
    · exact Or.inl ⟨hB, hne⟩
    · exact Or.inr ⟨ys, zs, rfl, hB, Or.inl ⟨hC, hne'⟩⟩
    · exact absurd rfl hnext
    · exact Or.inr ⟨us, vs ++ zs, List.append_assoc us vs zs, hB, Or.inr ⟨vs, zs, rfl, hC, hD⟩⟩
  · rintro (⟨hB, hne⟩ | ⟨ys, _, rfl, hB, ⟨hC, hne⟩ | ⟨us, vs, rfl, hC, hD⟩⟩)
    · exact Or.inl ⟨Or.inl ⟨hB, hne⟩, hne⟩
    · exact Or.inl ⟨Or.inr ⟨ys, _, rfl, hB, hC⟩, hne⟩
    · exact Or.inr ⟨ys ++ us, vs, (List.append_assoc ys us vs).symm,
        Or.inr ⟨ys, us, rfl, hB, hC⟩, hD⟩

theorem andThen_nothing : B.andThen (just [] .next) = B := by
  funext xs e
  apply propext
  constructor
  · rintro (⟨hB, _⟩ | ⟨ys, _, rfl, hB, rfl, rfl⟩)
    · exact hB
    · rwa [List.append_nil]
  · intro hB
    by_cases he : e = .next
    · exact Or.inr ⟨xs, [], (List.append_nil xs).symm, he ▸ hB, rfl, he⟩
    · exact Or.inl ⟨hB, he⟩

theorem nothing_andThen : (just [] .next).andThen B = B := by
  funext xs e
  apply propext
  constructor
  · rintro (⟨⟨_, hnext⟩, hne⟩ | ⟨_, zs, rfl, ⟨rfl, _⟩, hB⟩)
    · exact absurd hnext hne
    · exact hB
  · exact fun hB => Or.inr ⟨[], xs, rfl, ⟨rfl, rfl⟩, hB⟩

theorem just_andThen_just (is js : List Instr) (e : Ending) :
    (just is .next).andThen (just js e) = just (is ++ js) e := by
  funext xs e'
  apply propext
  constructor
  · rintro (⟨⟨_, hnext⟩, hne⟩ | ⟨_, _, rfl, ⟨rfl, _⟩, rfl, rfl⟩)
    · exact absurd hnext hne
    · exact ⟨rfl, rfl⟩
  · rintro ⟨rfl, rfl⟩
    exact Or.inr ⟨is, js, rfl, ⟨rfl, rfl⟩, rfl, rfl⟩

end Behaviour

/-! ### Trees and their readings -/

section Reading
variable (catalog : Catalog)

/-- The statements have the runs of the code. -/
structure HasCode (stmts : List Stmt) (c : Code) : Prop where
  structured : blockStructured stmts = true
  runs : ∀ n, blockRuns catalog stmts n = c.runs n
  after : ∀ n, counted (lowerBlock catalog none stmts) n = c.after n

/-- The same for the clauses of a branch from some place on, together with the statements for the
case that no condition holds. -/
structure HasBranchCode (clauses : List Clause) (stmts : List Stmt) (c : Code) : Prop where
  structured : clausesStructured clauses = true
  otherwise : blockStructured stmts = true
  runs : ∀ n, clauseRuns catalog clauses (blockRuns catalog stmts) n = c.runs n
  after : ∀ join s, (lowerBlock catalog none stmts (lowerClauses catalog none join clauses s)).temps =
    c.after s.temps

variable {catalog} {stmts stmts' : List Stmt} {c d : Code}

theorem blockStructured_append :
    blockStructured (stmts ++ stmts') = (blockStructured stmts && blockStructured stmts') := by
  induction stmts with
  | nil => simp only [List.nil_append, blockStructured, Bool.true_and]
  | cons stmt stmts ih => simp only [List.cons_append, blockStructured, ih, Bool.and_assoc]

theorem temps_block (h : blockStructured stmts = true) (loop : Option Loop) (s : State) :
    (lowerBlock catalog loop stmts s).temps = counted (lowerBlock catalog none stmts) s.temps :=
  temps_lowerBlock catalog stmts loop none h rfl

theorem counted_append (h : blockStructured stmts' = true) (n : Nat) :
    counted (lowerBlock catalog none (stmts ++ stmts')) n =
      counted (lowerBlock catalog none stmts') (counted (lowerBlock catalog none stmts) n) := by
  rw [counted, lowerBlock_append, temps_block h]
  rfl

theorem blockRuns_append (h : blockStructured stmts = true) (n : Nat) :
    blockRuns catalog (stmts ++ stmts') n = (blockRuns catalog stmts n).andThen
      (blockRuns catalog stmts' (counted (lowerBlock catalog none stmts) n)) := by
  induction stmts generalizing n with
  | nil =>
    rw [List.nil_append, blockRuns, nothing_andThen, counted, lowerBlock]
    rfl
  | cons stmt stmts ih =>
    rw [blockStructured, Bool.and_eq_true] at h
    rw [List.cons_append, blockRuns, blockRuns, ih h.2, andThen_assoc]
    have hcount : counted (lowerBlock catalog none ([stmt] ++ stmts)) n =
        counted (lowerBlock catalog none stmts) (counted (lowerBlock catalog none [stmt]) n) :=
      counted_append h.2 n
    rw [← List.singleton_append, hcount]
    simp only [counted, lowerBlock]

theorem HasCode.nil : HasCode catalog [] (.ends .next) where
  structured := by rw [blockStructured]
  runs := fun n => by
    rw [blockRuns]
    rfl
  after := fun n => by
    rw [counted, lowerBlock]
    rfl

theorem HasCode.append (h : HasCode catalog stmts c) (h' : HasCode catalog stmts' d) :
    HasCode catalog (stmts ++ stmts') (c.andThen d) where
  structured := by rw [blockStructured_append, h.structured, h'.structured, Bool.and_self]
  runs := fun n => by
    rw [blockRuns_append h.structured, h.runs, h'.runs, h.after]
    rfl
  after := fun n => by
    rw [counted_append h'.structured, h.after, h'.after]
    rfl

/-- A single statement. -/
theorem HasCode.single {stmt : Stmt} (hstructured : isStructured stmt = true)
    (hruns : ∀ n, stmtRuns catalog stmt n = c.runs n)
    (hafter : ∀ n, counted (lowerStmt catalog none stmt) n = c.after n) :
    HasCode catalog [stmt] c where
  structured := by rw [blockStructured, hstructured, blockStructured, Bool.and_self]
  runs := fun n => by
    rw [blockRuns, blockRuns, andThen_nothing]
    exact hruns n
  after := fun n => by
    rw [← hafter, counted, lowerBlock, lowerBlock]
    rfl

theorem HasCode.block {ts : List Tree} {src : Source} {code : Tree → Code}
    (h : ∀ t ∈ ts, HasCode catalog (statementsOf src t) (code t)) :
    HasCode catalog (blockStatements src ts) (.block (ts.map code)) := by
  induction ts with
  | nil => exact .nil
  | cons t ts ih =>
    rw [List.forall_mem_cons] at h
    exact h.1.append (ih h.2)

theorem HasCode.simple (h : ∀ stmt ∈ stmts, isSimple stmt = true) :
    HasCode catalog stmts (.emits (lowerBlock catalog none stmts) .next) := by
  refine ⟨?_, ?_, fun _ => rfl⟩
  · induction stmts with
    | nil => rw [blockStructured]
    | cons stmt stmts ih =>
      rw [List.forall_mem_cons] at h
      rw [blockStructured, ih h.2, Bool.and_true]
      cases stmt with
      | call | declare | assign | assignEach | augment => simp only [isStructured]
      | _ => cases h.1
  · induction stmts with
    | nil =>
      intro n
      rw [blockRuns]
      simp only [Code.emits, emitted, lowerBlock]
      rfl
    | cons stmt stmts ih =>
      rw [List.forall_mem_cons] at h
      intro n
      have hemitted : emitted (lowerBlock catalog none (stmt :: stmts)) n =
          emitted (lowerStmt catalog none stmt) n ++
            emitted (lowerBlock catalog none stmts) (counted (lowerStmt catalog none stmt) n) := by
        rw [← (emits_lowerBlock catalog stmts none h.2).emitted_comp (emits_simple catalog h.1)]
        simp only [emitted, lowerBlock]
      rw [blockRuns, stmtRuns_simple catalog h.1, ih h.2]
      exact (just_andThen_just _ _ _).trans (congrArg (just · .next) hemitted.symm)

theorem HasCode.while_ (h : HasCode catalog stmts c) (loc : Location) (condition : Exp) :
    HasCode catalog [.while_ loc condition stmts]
      (.loop (assumptions loc condition (.whileTrue, .whileFalse)) c) := by
  refine .single ?_ ?_ ?_
  · rw [isStructured]
    exact h.structured
  · intro n
    rw [stmtRuns, h.runs]
    rfl
  · intro n
    rw [counted, lowerStmt_while, temps_jump, temps_block h.structured, temps_openBody, h.after]
    rfl

theorem HasCode.for_ (h : HasCode catalog stmts c) (loc : Location) (targets : List Target)
    (iterable : Exp) :
    HasCode catalog [.for_ loc targets iterable stmts]
      (.loop (assumptions loc (.const (.bool true)) (.forEnter, .forExit))
        ((Code.emits (takeNext loc targets iterable) .next).andThen c)) := by
  refine .single ?_ ?_ ?_
  · rw [isStructured]
    exact h.structured
  · intro n
    rw [stmtRuns, h.runs]
    rfl
  · intro n
    rw [counted, lowerStmt_for, temps_jump, temps_block h.structured,
      (emits_takeNext loc targets iterable).temps_eq, temps_openBody, h.after]
    rfl

theorem HasCode.with_ (h : HasCode catalog stmts c) (loc : Location) (items : List WithItem) :
    HasCode catalog [.with_ loc items stmts]
      ((Code.emits (enterAll catalog loc items) .next).andThen c) := by
  refine .single ?_ ?_ ?_
  · rw [isStructured]
    exact h.structured
  · intro n
    rw [stmtRuns, h.runs]
    rfl
  · intro n
    rw [counted, lowerStmt_with, temps_block h.structured, (emits_enterAll catalog loc items).temps_eq,
      h.after]
    rfl

theorem HasCode.return_ (loc : Location) (v : Option Operand) :
    HasCode catalog [.return_ loc v] (.emits (giveBack catalog loc v) .left) := by
  refine .single ?_ ?_ ?_
  · simp only [isStructured]
  · intro n
    simp only [stmtRuns, emitted, lowerStmt_return]
    rfl
  · intro n
    rw [counted, lowerStmt_return]
    rfl

theorem HasCode.ends {stmt : Stmt} {e : Ending}
    (h : stmt = .raise ∧ e = .left ∨ stmt = .break_ ∧ e = .broken ∨
      stmt = .continue_ ∧ e = .continued) :
    HasCode catalog [stmt] (.ends e) := by
  rcases h with ⟨rfl, rfl⟩ | ⟨rfl, rfl⟩ | ⟨rfl, rfl⟩ <;> refine .single ?_ ?_ ?_
  all_goals simp only [isStructured, stmtRuns, counted, lowerStmt]
  all_goals exact fun _ => rfl

theorem HasBranchCode.nil (h : HasCode catalog stmts c) : HasBranchCode catalog [] stmts c where
  structured := by rw [clausesStructured]
  otherwise := h.structured
  runs := fun n => by
    rw [clauseRuns]
    exact h.runs n
  after := fun join s => by
    rw [lowerClauses, temps_block h.structured]
    exact h.after s.temps

theorem HasBranchCode.cons {clauses : List Clause} (h : HasCode catalog stmts c)
    (h' : HasBranchCode catalog clauses stmts' d) (condition : Exp) (loc : Location) :
    HasBranchCode catalog (.mk condition loc stmts :: clauses) stmts'
      (.choice (assumptions loc condition (.ifTrue, .ifFalse)) c d) where
  structured := by rw [clausesStructured, h.structured, h'.structured, Bool.and_self]
  otherwise := h'.otherwise
  runs := fun n => by
    rw [clauseRuns, h.runs, h.after, h'.runs]
    rfl
  after := fun join s => by
    rw [lowerClauses_cons, h'.after, temps_jump, temps_block h.structured, temps_openClause, h.after]
    rfl

theorem HasBranchCode.branch {clauses : List Clause}
    (h : HasBranchCode catalog clauses stmts c) :
    HasCode catalog [.branch clauses stmts] c := by
  refine .single ?_ ?_ ?_
  · rw [isStructured, h.structured, h.otherwise, Bool.and_self]
  · intro n
    rw [stmtRuns]
    exact h.runs n
  · intro n
    rw [counted, lowerStmt_branch, temps_jump, h.after]
    rfl

end Reading

section Trees
variable {catalog : Catalog} {src : Source} {t : Tree}

theorem hasBranchCode_clauses {cs : List Tree} {stmts : List Stmt} {c : Code}
    {code : Tree → Code}
    (h : ∀ c ∈ cs, ∀ d ∈ c.blockIn "consequence", HasCode catalog (statementsOf src d) (code d))
    (helse : HasCode catalog stmts c) :
    HasBranchCode catalog (cs.map (clauseAt src)) stmts
      ((cs.map fun c => (c, (c.blockIn "consequence").map code)).foldr
        (fun c => clauseCode src c.1 (.block c.2)) c) := by
  induction cs with
  | nil => exact .nil helse
  | cons c cs ih =>
    rw [List.forall_mem_cons] at h
    exact .cons (.block h.1) (ih h.2) _ _

theorem codeOf_eq (catalog : Catalog) (src : Source) (t : Tree) :
    codeOf catalog src t = codeStep catalog src t (t.placedKids (codeStep catalog src)) :=
  Tree.foldStatement_eq _ t

theorem codeOf_simple (h : t.kind.isSimple = true) :
    codeOf catalog src t = .emits (lowerBlock catalog none (simpleStatements src t)) .next := by
  rw [codeOf_eq, codeStep]
  split <;> simp_all [Kind.isSimple]

/-- A statement is read as statements that have its runs. -/
theorem hasCode_codeOf (h : t.isStructured = true) :
    HasCode catalog (statementsOf src t) (codeOf catalog src t) := by
  induction t using Tree.induct_descendants with
  | h t ih =>
    have hinner : ∀ d ∈ t.descendants, HasCode catalog (statementsOf src d) (codeOf catalog src d) :=
      fun d hd => ih d hd (Tree.isStructured_of_descendant h hd)
    have hbody : HasCode catalog (blockStatements src (t.blockIn "body"))
        (.block ((t.blockIn "body").map (codeOf catalog src))) :=
      .block fun d hd => hinner d (Tree.descendant_of_blockIn hd)
    have hkind := Tree.not_isUnstructured h
    have hread := readAs_statementsOf src t
    generalize statementsOf src t = stmts at hread ⊢
    cases hread with
    | simple h =>
      rw [codeOf_simple h]
      exact .simple (isSimple_simpleStatements src t)
    | return_ h =>
      rw [codeOf_eq, codeStep, h]
      exact .return_ _ _
    | raise h =>
      rw [codeOf_eq, codeStep, h]
      exact .ends (Or.inl ⟨rfl, rfl⟩)
    | break_ h =>
      rw [codeOf_eq, codeStep, h]
      exact .ends (Or.inr (Or.inl ⟨rfl, rfl⟩))
    | continue_ h =>
      rw [codeOf_eq, codeStep, h]
      exact .ends (Or.inr (Or.inr ⟨rfl, rfl⟩))
    | branch h =>
      rw [codeOf_eq, codeStep, h]
      simp only [Tree.blockIn_placedKids, Tree.elifs_placedKids, Tree.otherwise_placedKids]
      have hclauses : ∀ c ∈ t :: t.elifs, ∀ d ∈ c.blockIn "consequence",
          HasCode catalog (statementsOf src d) (codeOf catalog src d) := by
        rw [List.forall_mem_cons]
        exact ⟨fun d hd => hinner d (Tree.descendant_of_blockIn hd),
          fun c hc d hd => hinner d (Tree.descendant_of_elif hc hd)⟩
      exact (hasBranchCode_clauses hclauses
        (.block fun d hd => hinner d (Tree.descendant_of_otherwise hd))).branch
    | while_ h =>
      rw [codeOf_eq, codeStep, h]
      simp only [Tree.blockIn_placedKids]
      exact hbody.while_ _ _
    | for_ h =>
      rw [codeOf_eq, codeStep, h]
      simp only [Tree.blockIn_placedKids]
      exact hbody.for_ _ _ _
    | with_ h =>
      rw [codeOf_eq, codeStep, h]
      simp only [Tree.blockIn_placedKids]
      exact hbody.with_ _ _
    | try_ h =>
      rw [h] at hkind
      cases hkind
    | function h =>
      rw [h] at hkind
      cases hkind
    | decorated h =>
      rw [h] at hkind
      cases hkind

end Trees

/-- The instructions along the walks from the entry to the exit of a procedure are those of the
complete runs of the definition in force, read off its syntax tree. -/
theorem reads_ofTree_iff (catalog : Catalog) (library : Library) (file text : String) {root : Tree}
    {f : FunctionNode} (hforce : InForce (.ofText file text) root f)
    (hbody : ∀ t ∈ f.body, t.isStructured = true) :
    ∃ p n, (Program.ofTree catalog library file text root).find? (f.name (.ofText file text)) =
        some p ∧
      ∀ xs, p.Reads ⟨p.entry, 0⟩ xs ↔ TreeRun catalog (.ofText file text) f.body n xs := by
  obtain ⟨s, hs⟩ := find?_ofTree catalog library file text hforce
  have hcode : HasCode catalog (blockStatements (.ofText file text) f.body)
      (.block (f.body.map (codeOf catalog (.ofText file text)))) :=
    .block fun t ht => hasCode_codeOf (hbody t ht)
  refine ⟨_, s.temps, hs, ?_⟩
  intro xs
  have hentry : (lowered catalog f.owner (functionAt (.ofText file text) f.node f.isStatic) s).entry =
      0 := congrArg Prod.snd (header_lowered catalog f.owner _ s)
  rw [hentry, TreeRun, ← hcode.runs]
  exact reads_closed catalog _ hcode.structured (good_entered f.owner _ s) rfl rfl xs

/-! ### A search -/

def searchText : String :=
  "def search(items): for x in items: if skip: continue elif found: while busy: break return x raise"

def searchSource : Source := .ofText "" searchText

def searchWait : Tree :=
  .inLine .whileStatement none 65 82 [.word (some "condition") 71 75,
    .inLine .block (some "body") 77 82 [.inLine .breakStatement none 77 82 []]]

def searchTest : Tree :=
  .inLine .ifStatement none 35 91 [.word (some "condition") 38 42,
    .inLine .block (some "consequence") 44 52 [.inLine .continueStatement none 44 52 []],
    .inLine .elifClause (some "alternative") 53 91 [.word (some "condition") 58 63,
      .inLine .block (some "consequence") 65 91
        [searchWait, .inLine .returnStatement none 83 91 [.word none 90 91]]]]

def searchLoop : Tree :=
  .inLine .forStatement none 19 91 [.word (some "left") 23 24, .word (some "right") 28 33,
    .inLine .block (some "body") 35 91 [searchTest]]

def searchFunction : FunctionNode where
  owner := none
  node := .inLine .functionDefinition none 0 97 [.word (some "name") 4 10,
    .inLine .block (some "body") 19 97 [searchLoop, .inLine .raiseStatement none 92 97 []]]
  isStatic := false

def search : Tree := .inLine .module none 0 97 [searchFunction.node]

def searchHead : List Instr :=
  assumptions (.onLine 19 91) (.const (.bool true)) (.forEnter, .forExit)

def searchNext (x items skip : String) : List Instr :=
  [⟨.onLine 19 91, .assign x (nextOf (.var items))⟩] ++
    assumptions (.onLine 35 91) (.var skip) (.ifTrue, .ifFalse)

def searchFound (found busy result : String) : List Instr :=
  assumptions (.onLine 53 91) (.var found) (.ifTrue, .ifFalse) ++
    (assumptions (.onLine 65 82) (.var busy) (.whileTrue, .whileFalse) ++
      [⟨.onLine 83 91, .return_ (some (.var result))⟩])

/-- The first element is skipped, and the second one is found. -/
def searchRun (x items skip found busy result : String) : List Instr :=
  searchHead ++ (searchNext x items skip ++
    (searchHead ++ (searchNext x items skip ++ searchFound found busy result)))

theorem treeRun_search (catalog : Catalog) (n : Nat) :
    TreeRun catalog searchSource searchFunction.body n
      (searchRun (searchSource.text (.word (some "left") 23 24))
        (searchSource.text (.word (some "right") 28 33))
        (searchSource.text (.word (some "condition") 38 42))
        (searchSource.text (.word (some "condition") 58 63))
        (searchSource.text (.word (some "condition") 71 75))
        (searchSource.text (.word none 90 91))) := by
  refine Or.inr (Or.inl ⟨.again (e := .continued) (Or.inr ?_) (Or.inr rfl) (.left (Or.inr ?_)),
    by decide⟩)
  · refine ⟨[_], _, rfl, ⟨rfl, rfl⟩, Or.inl ⟨Or.inr ?_, by decide⟩⟩
    exact ⟨_, [], rfl, ⟨rfl, rfl⟩, Or.inl (Or.inl ⟨⟨rfl, rfl⟩, by decide⟩)⟩
  · refine ⟨[_], _, rfl, ⟨rfl, rfl⟩, Or.inl ⟨Or.inr ?_, by decide⟩⟩
    refine ⟨_, searchFound _ _ _, rfl, ⟨rfl, rfl⟩, Or.inr (Or.inr ?_)⟩
    refine ⟨_, _, rfl, ⟨rfl, rfl⟩, Or.inl (Or.inr ?_)⟩
    exact ⟨assumptions _ _ _ ++ [], _, rfl, .broken (Or.inl ⟨⟨rfl, rfl⟩, by decide⟩),
      Or.inl ⟨⟨rfl, rfl⟩, by decide⟩⟩

theorem reads_ofTree_iff_search :
    InForce searchSource search searchFunction ∧
      (∀ t ∈ searchFunction.body, t.isStructured = true) ∧
      ∃ p, (Program.ofTree .standard [] "" searchText search).find? "search" = some p ∧
        p.Reads ⟨p.entry, 0⟩ (searchRun "x" "items" "skip" "found" "busy" "x") := by
  have hforce : InForce searchSource search searchFunction := ⟨[], [], rfl, by simp⟩
  have hbody : ∀ t ∈ searchFunction.body, t.isStructured = true := by decide
  obtain ⟨p, n, hp, hreads⟩ := reads_ofTree_iff .standard [] "" searchText hforce hbody
  have hname : searchFunction.name searchSource = "search" := by decide +kernel
  have hrun := treeRun_search .standard n
  have hleft : searchSource.text (.word (some "left") 23 24) = "x" := by decide +kernel
  have hright : searchSource.text (.word (some "right") 28 33) = "items" := by decide +kernel
  have hskip : searchSource.text (.word (some "condition") 38 42) = "skip" := by decide +kernel
  have hfound : searchSource.text (.word (some "condition") 58 63) = "found" := by decide +kernel
  have hbusy : searchSource.text (.word (some "condition") 71 75) = "busy" := by decide +kernel
  have hresult : searchSource.text (.word none 90 91) = "x" := by decide +kernel
  rw [hleft, hright, hskip, hfound, hbusy, hresult] at hrun
  exact ⟨hforce, hbody, p, hname ▸ hp, (hreads _).mpr hrun⟩

end Lowering

end ActorOwnership
