import ActorOwnership.Program.OfSource
import ActorOwnership.Proofs.HandOff
import ActorOwnership.Proofs.Keywords
import ActorOwnership.Proofs.Reading

/-! Hand-offs follow the keywords of their arguments and not the order in which these are written.
When keyword arguments of hand-offs change places, anywhere in a module, the graphs stay the same up
to the order of arguments, and at each hand-off the same symbols are discovered. -/

namespace ActorOwnership
open Syntax Surface
set_option autoImplicit false

open SummaryTable (Built)

/-! ### Statements -/

namespace Surface

mutual

/-- The same statement with the arguments of hand-offs in another order. -/
inductive Stmt.Reordered (catalog : Catalog) : Stmt → Stmt → Prop where
  | call {loc : Location} {name : String} {receiver : Option Exp} {args args' : List Argument} :
      (Operand.call name receiver args).ReorderedCall catalog (.call name receiver args') →
        Stmt.Reordered catalog (.call loc name receiver args) (.call loc name receiver args')
  | declare (loc : Location) (name type : String) {init init' : Option Operand} :
      Option.Rel (Operand.Reordered catalog) init init' →
        Stmt.Reordered catalog (.declare loc name type init) (.declare loc name type init')
  | assign (loc : Location) {d : Destination} {v v' : Operand} :
      v.ReorderedAs catalog d.isName v' →
        Stmt.Reordered catalog (.assign loc d v) (.assign loc d v')
  | assignEach (loc : Location) {pairs pairs' : List Pair} :
      List.Forall₂ (Pair.Reordered catalog (Lowering.overlaps pairs)) pairs pairs' →
        Stmt.Reordered catalog (.assignEach loc pairs) (.assignEach loc pairs')
  | augment (loc : Location) (target : Option Target) (op : String) (left : Exp) {v v' : Operand} :
      v.Reordered catalog v' →
        Stmt.Reordered catalog (.augment loc target op left v) (.augment loc target op left v')
  | return_ (loc : Location) {v v' : Option Operand} :
      Option.Rel (Operand.Reordered catalog) v v' →
        Stmt.Reordered catalog (.return_ loc v) (.return_ loc v')
  | branch {clauses clauses' : List Clause} {orElse orElse' : List Stmt} :
      Clause.Reordered catalog clauses clauses' → Block.Reordered catalog orElse orElse' →
        Stmt.Reordered catalog (.branch clauses orElse) (.branch clauses' orElse')
  | while_ (loc : Location) (condition : Exp) {body body' : List Stmt} :
      Block.Reordered catalog body body' →
        Stmt.Reordered catalog (.while_ loc condition body) (.while_ loc condition body')
  | for_ (loc : Location) (targets : List Target) (iterable : Exp) {body body' : List Stmt} :
      Block.Reordered catalog body body' →
        Stmt.Reordered catalog (.for_ loc targets iterable body) (.for_ loc targets iterable body')
  | try_ {body body' orElse orElse' : List Stmt} {handlers handlers' : List (List Stmt)}
      {final final' : List Stmt} :
      Block.Reordered catalog body body' → Block.Reordered catalog orElse orElse' →
      Blocks.Reordered catalog handlers handlers' → Block.Reordered catalog final final' →
        Stmt.Reordered catalog (.try_ body orElse handlers final)
          (.try_ body' orElse' handlers' final')
  | with_ (loc : Location) {items items' : List WithItem} {body body' : List Stmt} :
      List.Forall₂ (WithItem.Reordered catalog) items items' → Block.Reordered catalog body body' →
        Stmt.Reordered catalog (.with_ loc items body) (.with_ loc items' body')
  | raise : Stmt.Reordered catalog .raise .raise
  | break_ : Stmt.Reordered catalog .break_ .break_
  | continue_ : Stmt.Reordered catalog .continue_ .continue_
  | define {f f' : Function} : Function.Reordered catalog f f' →
      Stmt.Reordered catalog (.define f) (.define f')

inductive Block.Reordered (catalog : Catalog) : List Stmt → List Stmt → Prop where
  | nil : Block.Reordered catalog [] []
  | cons {stmt stmt' : Stmt} {stmts stmts' : List Stmt} : Stmt.Reordered catalog stmt stmt' →
      Block.Reordered catalog stmts stmts' →
        Block.Reordered catalog (stmt :: stmts) (stmt' :: stmts')

inductive Clause.Reordered (catalog : Catalog) : List Clause → List Clause → Prop where
  | nil : Clause.Reordered catalog [] []
  | cons (condition : Exp) (loc : Location) {body body' : List Stmt}
      {clauses clauses' : List Clause} : Block.Reordered catalog body body' →
      Clause.Reordered catalog clauses clauses' →
        Clause.Reordered catalog (.mk condition loc body :: clauses)
          (.mk condition loc body' :: clauses')

inductive Blocks.Reordered (catalog : Catalog) : List (List Stmt) → List (List Stmt) → Prop where
  | nil : Blocks.Reordered catalog [] []
  | cons {block block' : List Stmt} {blocks blocks' : List (List Stmt)} :
      Block.Reordered catalog block block' → Blocks.Reordered catalog blocks blocks' →
        Blocks.Reordered catalog (block :: blocks) (block' :: blocks')

inductive Function.Reordered (catalog : Catalog) : Function → Function → Prop where
  | mk (name : String) (params : List (String × TypeNote)) (loc : Location) (isStatic : Bool)
      {body body' : List Stmt} : Block.Reordered catalog body body' →
        Function.Reordered catalog (.mk name params loc isStatic body)
          (.mk name params loc isStatic body')

end

theorem Blocks.Reordered.isEmpty_eq {catalog : Catalog} {blocks blocks' : List (List Stmt)}
    (h : Blocks.Reordered catalog blocks blocks') : blocks.isEmpty = blocks'.isEmpty := by
  cases h <;> rfl

inductive TopLevel.Reordered (catalog : Catalog) : TopLevel → TopLevel → Prop where
  | function {f f' : Function} : f.Reordered catalog f' →
      TopLevel.Reordered catalog (.function f) (.function f')
  | class_ (name : String) {methods methods' : List Function} :
      List.Forall₂ (Function.Reordered catalog) methods methods' →
        TopLevel.Reordered catalog (.class_ name methods) (.class_ name methods')

end Surface

namespace Lowering
variable {catalog : Catalog}

mutual

theorem lowerStmt_reordered : ∀ {stmt stmt' : Stmt}, stmt.Reordered catalog stmt' →
    ∀ (loop : Option Loop) {s s' : State}, s.Similar s' →
      (lowerStmt catalog loop stmt s).Similar (lowerStmt catalog loop stmt' s')
  | _, _, .call h, _, _, _, hs => by
    rw [lowerStmt, lowerStmt]
    exact lowerCall_reordered _ none h hs
  | _, _, .declare loc name type h, _, _, _, hs => by
    cases h with
    | none =>
      rw [lowerStmt, lowerStmt]
      exact hs.emit_same loc _
    | some h =>
      obtain ⟨e, t, t', ht, ht', hsim⟩ := lowerOperand_reordered loc h hs
      rw [lowerStmt, lowerStmt, ht, ht']
      exact hsim.emit_same loc _
  | _, _, .assign loc h, _, _, _, hs => by
    rw [lowerStmt, lowerStmt]
    exact assignOperand_reordered loc h hs
  | _, _, .assignEach loc h, _, _, _, hs => by
    rw [lowerStmt, lowerStmt]
    exact assignPairs_reordered loc h hs
  | _, _, .augment loc target op left h, _, _, _, hs => by
    obtain ⟨e, t, t', ht, ht', hsim⟩ := lowerOperand_reordered loc h hs
    rw [lowerStmt, lowerStmt, ht, ht']
    exact writeAll_similar loc _ target.toList hsim
  | _, _, .return_ loc h, _, _, _, hs => by
    cases h with
    | none =>
      rw [lowerStmt, lowerStmt]
      exact (hs.emit_same loc _).leave
    | some h =>
      obtain ⟨e, t, t', ht, ht', hsim⟩ := lowerOperand_reordered loc h hs
      rw [lowerStmt, lowerStmt, ht, ht']
      exact (hsim.emit_same loc _).leave
  | _, _, .branch hclauses horElse, loop, _, _, hs => by
    obtain ⟨join, t, t', ht, ht', hsim⟩ := hs.newNode .join
    rw [lowerStmt, lowerStmt, ht, ht']
    have hbody := lowerBlock_reordered horElse loop (lowerClauses_reordered hclauses loop join hsim)
    exact (hbody.connectCurrent join).moveTo join
  | _, _, .while_ loc condition hbody, _, _, _, hs => by
    obtain ⟨l, t, t', ht, ht', hsim⟩ := hs.openLoop loc condition (.whileTrue, .whileFalse)
    rw [lowerStmt, lowerStmt, ht, ht']
    exact (lowerBlock_reordered hbody (some l) hsim).closeLoop l
  | _, _, .for_ loc targets iterable hbody, _, _, _, hs => by
    obtain ⟨l, t, t', ht, ht', hsim⟩ :=
      hs.openLoop loc (.const (.bool true)) (.forEnter, .forExit)
    rw [lowerStmt, lowerStmt, ht, ht']
    have hwritten := writeTargets_similar loc targets (nextOf iterable) hsim
    exact (lowerBlock_reordered hbody (some l) hwritten).closeLoop l
  | _, _, .try_ hbody horElse hhandlers hfinal, loop, _, _, hs => by
    have hguarded := lowerBlock_reordered horElse loop (lowerBlock_reordered hbody loop hs)
    obtain ⟨join, t, t', ht, ht', hsim⟩ := hguarded.newNode .join
    rw [lowerStmt, lowerStmt]
    simp only [hhandlers.isEmpty_eq, ht, ht', ← hs.current, ← hguarded.current]
    split
    · exact lowerBlock_reordered hfinal loop hguarded
    · apply lowerBlock_reordered hfinal loop
      apply State.Similar.moveTo
      apply lowerHandlers_reordered hhandlers
      exact hsim.connect _ join
  | _, _, .with_ loc hitems hbody, loop, _, _, hs => by
    rw [lowerStmt, lowerStmt]
    apply lowerBlock_reordered hbody loop
    refine List.rel_foldl ?_ hs hitems
    intro t t' ht item item' hitem
    exact lowerWithItem_reordered loc hitem ht
  | _, _, .raise, _, _, _, hs => by
    rw [lowerStmt, lowerStmt]
    exact hs.leave
  | _, _, .break_, none, _, _, hs => by
    rw [lowerStmt, lowerStmt]
    exact hs.stop
  | _, _, .break_, some l, _, _, hs => by
    rw [lowerStmt, lowerStmt]
    exact (hs.connectCurrent l.after).stop
  | _, _, .continue_, none, _, _, hs => by
    rw [lowerStmt, lowerStmt]
    exact hs.stop
  | _, _, .continue_, some l, _, _, hs => by
    rw [lowerStmt, lowerStmt]
    exact (hs.connectCurrent l.head).stop
  | _, _, .define h, _, _, _, hs => by
    rw [lowerStmt, lowerStmt]
    exact lowerFunction_reordered h none hs

theorem lowerBlock_reordered : ∀ {stmts stmts' : List Stmt}, Block.Reordered catalog stmts stmts' →
    ∀ (loop : Option Loop) {s s' : State}, s.Similar s' →
      (lowerBlock catalog loop stmts s).Similar (lowerBlock catalog loop stmts' s')
  | _, _, .nil, _, _, _, hs => by
    rw [lowerBlock, lowerBlock]
    exact hs
  | _, _, .cons h hrest, loop, _, _, hs => by
    rw [lowerBlock, lowerBlock]
    exact lowerBlock_reordered hrest loop (lowerStmt_reordered h loop hs)

theorem lowerClauses_reordered : ∀ {clauses clauses' : List Clause},
    Clause.Reordered catalog clauses clauses' → ∀ (loop : Option Loop) (join : Int) {s s' : State},
      s.Similar s' →
        (lowerClauses catalog loop join clauses s).Similar
          (lowerClauses catalog loop join clauses' s')
  | _, _, .nil, _, _, _, _, hs => by
    rw [lowerClauses, lowerClauses]
    exact hs
  | _, _, .cons condition loc hbody hrest, loop, join, s, _, hs => by
    obtain ⟨yes, s₁, s₁', h₁, h₁', hs₁⟩ := hs.newNode .normal
    obtain ⟨no, s₂, s₂', h₂, h₂', hs₂⟩ := hs₁.newNode .normal
    rw [lowerClauses, lowerClauses]
    simp only [h₁, h₁', h₂, h₂', ← hs.current]
    have hforked := (hs₂.fork s.current loc condition (.ifTrue, .ifFalse) yes no).moveTo yes
    have hdone := lowerBlock_reordered hbody loop hforked
    exact lowerClauses_reordered hrest loop join ((hdone.connectCurrent join).moveTo no)

theorem lowerHandlers_reordered : ∀ {handlers handlers' : List (List Stmt)},
    Blocks.Reordered catalog handlers handlers' → ∀ (loop : Option Loop) (before bodyEnd : Option Int)
      (join : Int) {s s' : State}, s.Similar s' →
        (lowerHandlers catalog loop before bodyEnd join handlers s).Similar
          (lowerHandlers catalog loop before bodyEnd join handlers' s')
  | _, _, .nil, _, _, _, _, _, _, hs => by
    rw [lowerHandlers, lowerHandlers]
    exact hs
  | _, _, .cons h hrest, loop, before, bodyEnd, join, _, _, hs => by
    obtain ⟨start, t, t', ht, ht', hsim⟩ := hs.newNode .exception
    rw [lowerHandlers, lowerHandlers, ht, ht']
    have hentered := ((hsim.connect before start).connect bodyEnd start).moveTo start
    have hdone := lowerBlock_reordered h loop hentered
    exact lowerHandlers_reordered hrest loop before bodyEnd join (hdone.connectCurrent join)

theorem lowerFunction_reordered : ∀ {f f' : Function}, f.Reordered catalog f' →
    ∀ (owner : Option String) {s s' : State}, s.Similar s' →
      (lowerFunction catalog owner f s).Similar (lowerFunction catalog owner f' s')
  | _, _, .mk name params loc isStatic hbody, owner, _, _, hs => by
    have hopened := hs.openFunction name owner params loc isStatic
    have hclosed := (lowerBlock_reordered hbody none hopened).closeFunction
    rw [lowerFunction, lowerFunction]
    exact ⟨hclosed.temps, hs.current, hs.exits, hs.proc, hclosed.program, hclosed.distinct⟩

end

theorem lowerTopLevel_reordered {top top' : TopLevel} (h : top.Reordered catalog top')
    {s s' : State} (hs : s.Similar s') :
    (lowerTopLevel catalog s top).Similar (lowerTopLevel catalog s' top') := by
  cases h with
  | function hf => exact lowerFunction_reordered hf none hs
  | class_ name hmethods =>
    refine List.rel_foldl ?_ hs hmethods
    intro t t' ht f f' hf
    exact lowerFunction_reordered hf (some name) ht

theorem State.similar_start (library : Library) (file : String) : State.Similar
    { program := { library := library, sourceFiles := [file] }, proc := { name := "" } }
    { program := { library := library, sourceFiles := [file] }, proc := { name := "" } } :=
  ⟨rfl, rfl, rfl, ⟨rfl, .nil⟩, ⟨rfl, .nil⟩, List.nodup_nil⟩

theorem lowerModule_reordered {m m' : Module} (h : List.Forall₂ (TopLevel.Reordered catalog) m m')
    (library : Library) (file : String) :
    (lowerModule catalog library file m).Similar (lowerModule catalog library file m') ∧
      (lowerModule catalog library file m).Distinct := by
  have hrun {s s' : State} (hs : s.Similar s') :
      (m.foldl (lowerTopLevel catalog) s).Similar (m'.foldl (lowerTopLevel catalog) s') := by
    refine List.rel_foldl ?_ hs h
    intro t t' ht top top' htop
    exact lowerTopLevel_reordered htop ht
  have hend := hrun (State.similar_start library file)
  exact ⟨hend.program, hend.distinct⟩

end Lowering

open Lowering

/-- When keyword arguments of hand-offs change places, the same symbols are discovered at each
hand-off. A call of a procedure stays as it is, under any keywords: the positions that the procedure
gives up select among the values as they are written. -/
theorem givenUpAt_reordered {catalog : Catalog} {m m' : Module}
    (h : List.Forall₂ (TopLevel.Reordered catalog) m m') (library : Library) (file : String)
    {t t' : SummaryTable} (ht : Built (.ofProgram (lowerModule catalog library file m)) t)
    (ht' : Built (.ofProgram (lowerModule catalog library file m')) t') {p : Procedure}
    (hp : p ∈ (lowerModule catalog library file m).procedures) {id : StatementId} {i : Instr}
    (hi : p.instrAt? id = some i) :
    ∃ p' ∈ (lowerModule catalog library file m').procedures, ∃ i', p'.name = p.name ∧
      p'.instrAt? id = some i' ∧ i'.loc = i.loc ∧
      (∀ ret v givenUp description, i.action = .handOff ret v givenUp description →
        (∃ v' givenUp', i'.action = .handOff ret v' givenUp' description) ∧
        ∀ x, (lowerModule catalog library file m).GivenUpAt t id x ↔
          (lowerModule catalog library file m').GivenUpAt t' id x) ∧
      (∀ ret v q, i.action = .call ret v →
        (lowerModule catalog library file m).resolveCallee v p = some q →
        i'.action = .call ret v ∧
        ∀ x, (lowerModule catalog library file m).GivenUpAt t id x ↔
          ∃ k ∈ ((SummaryTable.request (.ofProgram (lowerModule catalog library file m)) q.name).run
              ((HandOffPoint.discover (.ofProgram (lowerModule catalog library file m))).run
                t).2).1.givenUpParams,
            ∃ arg ∈ v.args[k]?, ∃ part ∈ Summary.handedParts arg,
              x ∈ (⟨p, (lowerModule catalog library file m).library⟩ : Scope).flowing part) := by
  obtain ⟨hsim, hdistinct⟩ := lowerModule_reordered h library file
  obtain ⟨p', hp', hproc⟩ := hsim.exists_procedure hp
  obtain ⟨i', hi', hinstr⟩ := hproc.instrAt? hi
  refine ⟨p', hp', i', hproc.name.symm, hi', hinstr.loc.symm, ?_, ?_⟩
  · intro ret v givenUp description ha
    refine ⟨hinstr.action.handOff_right ha, fun x => ?_⟩
    exact hsim.givenUpAt_iff hdistinct ht ht' hp hp' hproc hi hi' hinstr ha
  · intro ret v q ha hq
    refine ⟨hinstr.action.call_right ha, fun x => ?_⟩
    exact Program.GivenUpAt.iff_call hdistinct ht hp hi ha hq

/-- In two source texts whose syntax trees read the same up to the order of keyword arguments of
hand-offs, the same symbols are discovered at each hand-off. A call of a procedure stays as it is,
under any keywords: the positions that the procedure gives up select among the values as they are
written. -/
theorem givenUpAt_ofTree {catalog : Catalog} {file text text' : String} {root root' : Tree}
    (h : List.Forall₂ (TopLevel.Reordered catalog) (moduleOfTree (.ofText file text) root)
      (moduleOfTree (.ofText file text') root'))
    (library : Library) {g g' : Program} (hg : Program.ofTree catalog library file text root = g)
    (hg' : Program.ofTree catalog library file text' root' = g') {t t' : SummaryTable}
    (ht : Built (.ofProgram g) t) (ht' : Built (.ofProgram g') t') {p : Procedure}
    (hp : p ∈ g.procedures) {id : StatementId} {i : Instr} (hi : p.instrAt? id = some i) :
    ∃ p' ∈ g'.procedures, ∃ i', p'.name = p.name ∧ p'.instrAt? id = some i' ∧ i'.loc = i.loc ∧
      (∀ ret v givenUp description, i.action = .handOff ret v givenUp description →
        (∃ v' givenUp', i'.action = .handOff ret v' givenUp' description) ∧
        ∀ x, g.GivenUpAt t id x ↔ g'.GivenUpAt t' id x) ∧
      (∀ ret v q, i.action = .call ret v → g.resolveCallee v p = some q →
        i'.action = .call ret v ∧
        ∀ x, g.GivenUpAt t id x ↔
          ∃ k ∈ ((SummaryTable.request (.ofProgram g) q.name).run
              ((HandOffPoint.discover (.ofProgram g)).run t).2).1.givenUpParams,
            ∃ arg ∈ v.args[k]?, ∃ part ∈ Summary.handedParts arg,
              x ∈ (⟨p, g.library⟩ : Scope).flowing part) := by
  subst hg hg'
  exact givenUpAt_reordered h library file ht ht' hp hi

/-! ### Calls with keywords -/

def keyword (name : String) (value : Exp) : Argument := .mk (some name) (.value value)

/-- The answer to a message, as an argument. -/
def answer (name : String) (args : List Argument) : Argument :=
  .mk (some name) (.call "ask" (some (.var "queue")) args)

/-- A method that makes one call. -/
def caller (loc loc' : Location) (receiver name : String) (args : List Argument) : Function :=
  .mk "m" [("self", .unknown), ("queue", .unknown)] loc false
    [.call loc' name (some (.var receiver)) args]

def keywordNode (start stop : Nat) (value : Tree) : Tree :=
  .inLine .keywordArgument none start value.stop.offset [.word (some "name") start stop, value]

def callerNode (start stop : Nat) (call : Tree) : Tree :=
  .inLine .functionDefinition none start stop [.word (some "name") (start + 4) (start + 5),
    .inLine .parameters (some "parameters") (start + 5) (start + 18)
      [.word none (start + 6) (start + 10), .word none (start + 12) (start + 17)],
    .inLine .block (some "body") (start + 20) stop
      [.inLine .expressionStatement none (start + 20) stop [call]]]

def flagFirstText : String := "class A: def m(self, queue): queue.put(block=self.b, item=self.a)"

def flagFirst : Tree :=
  .classModule 65 [callerNode 9 65 (.methodCall none 29 34 38 65
    [keywordNode 39 44 (.dotted (some "value") 45 49 51),
      keywordNode 53 57 (.dotted (some "value") 58 62 64)])]

def flagLastText : String := "class A: def m(self, queue): queue.put(item=self.a, block=self.b)"

def flagLast : Tree :=
  .classModule 65 [callerNode 9 65 (.methodCall none 29 34 38 65
    [keywordNode 39 43 (.dotted (some "value") 44 48 50),
      keywordNode 52 57 (.dotted (some "value") 58 62 64)])]

theorem moduleOfTree_flagFirst : moduleOfTree (.ofText "" flagFirstText) flagFirst =
    [.class_ "A" [caller (.onLine 9 65) (.onLine 29 65) "queue" "put"
      [keyword "block" (selfField "b"), keyword "item" (selfField "a")]]] := by
  have hread : moduleOfTree (.ofText "" flagFirstText) flagFirst =
      [.class_ _ [.mk _ [(_, .unknown), (_, .unknown)] (.onLine 9 65) false
        [.call (.onLine 29 65) _ (some (.var _)) [.mk (some _) (.value (.field (.var _) _)),
          .mk (some _) (.value (.field (.var _) _))]]]] := rfl
  rw [hread]
  simp only [caller, keyword, selfField, List.cons.injEq, TopLevel.class_.injEq, Function.mk.injEq,
    Prod.mk.injEq, Stmt.call.injEq, Argument.mk.injEq, Operand.value.injEq, Exp.var.injEq,
    Exp.field.injEq, Option.some.injEq, and_true, true_and]
  decide +kernel

theorem moduleOfTree_flagLast : moduleOfTree (.ofText "" flagLastText) flagLast =
    [.class_ "A" [caller (.onLine 9 65) (.onLine 29 65) "queue" "put"
      [keyword "item" (selfField "a"), keyword "block" (selfField "b")]]] := by
  have hread : moduleOfTree (.ofText "" flagLastText) flagLast =
      [.class_ _ [.mk _ [(_, .unknown), (_, .unknown)] (.onLine 9 65) false
        [.call (.onLine 29 65) _ (some (.var _)) [.mk (some _) (.value (.field (.var _) _)),
          .mk (some _) (.value (.field (.var _) _))]]]] := rfl
  rw [hread]
  simp only [caller, keyword, selfField, List.cons.injEq, TopLevel.class_.injEq, Function.mk.injEq,
    Prod.mk.injEq, Stmt.call.injEq, Argument.mk.injEq, Operand.value.injEq, Exp.var.injEq,
    Exp.field.injEq, Option.some.injEq, and_true, true_and]
  decide +kernel

theorem reordered_flag : List.Forall₂ (TopLevel.Reordered .standard)
    (moduleOfTree (.ofText "" flagFirstText) flagFirst)
    (moduleOfTree (.ofText "" flagLastText) flagLast) := by
  rw [moduleOfTree_flagFirst, moduleOfTree_flagLast]
  refine .cons (.class_ "A" (.cons (.mk _ _ _ _ (.cons (.call (.handOff rfl ?_)) .nil)) .nil)) .nil
  refine .keywords ?_ (.swap _ _ []) rfl (.cons (.value _) (.cons (.value _) .nil))
  simp [keyword, Argument.keyword]

/-- The arguments of a hand-off change places, and the field is given up with the item. -/
theorem givenUpAt_ofTree_put : (Program.ofTree .standard [] "" flagLastText flagLast).GivenUpAt []
    ⟨"A.m", 0, 0⟩ ⟨"a", .field, "A"⟩ := by
  obtain ⟨g, hg⟩ : ∃ g, Program.ofTree .standard [] "" flagFirstText flagFirst = g := ⟨_, rfl⟩
  have hdistinct : g.Distinct := hg ▸ (lowerModule_reordered reordered_flag [] "").2
  obtain ⟨p, hp, hi, hfield⟩ : ∃ p ∈ g.procedures,
      p.instrAt? ⟨"A.m", 0, 0⟩ = some ⟨.onLine 29 65, .handOff none
        ⟨.const (.text "put"), [selfField "b", selfField "a"], some (.var "queue")⟩ [1]
        "Queue hand-off"⟩ ∧
      ⟨"a", .field, "A"⟩ ∈ (⟨p, g.library⟩ : Scope).flowing (selfField "a") := by
    rw [← hg, Program.ofTree, moduleOfTree_flagFirst]
    exact ⟨_, List.mem_cons_self, rfl, List.mem_cons_self⟩
  obtain ⟨_, _, _, _, _, _, hsame, _⟩ := givenUpAt_ofTree reordered_flag [] hg rfl .empty .empty hp hi
  apply ((hsame _ _ _ _ rfl).2 _).mp
  rw [Program.GivenUpAt.iff_handOff hdistinct .empty hp hi rfl]
  exact ⟨_, List.mem_cons_self, _, List.mem_cons_self, hfield⟩

/-- Passes the event on. -/
def forwarder : Function :=
  .mk "forward" [("self", .unknown), ("target", .unknown), ("event", .unknown)] (.onLine 9 62) false
    [.call (.onLine 43 62) "send" none
      [.mk none (.value (.var "target")), .mk none (.value (.var "event"))]]

def forwarderNode : Tree :=
  .inLine .functionDefinition none 9 62 [.word (some "name") 13 20,
    .inLine .parameters (some "parameters") 20 41
      [.word none 21 25, .word none 27 33, .word none 35 40],
    .inLine .block (some "body") 43 62 [.inLine .expressionStatement none 43 62
      [.plainCall none 43 47 62 [.word none 48 54, .word none 56 61]]]]

def forwardNode (args : List Tree) : Tree :=
  .classModule 123 [forwarderNode, callerNode 63 123 (.methodCall none 83 87 95 123 args)]

def eventLastText : String :=
  "class A: def forward(self, target, event): send(target, event) " ++
    "def m(self, queue): self.forward(target=queue, event=self.a)"

def eventLast : Tree :=
  forwardNode [keywordNode 96 102 (.word (some "value") 103 108),
    keywordNode 110 115 (.dotted (some "value") 116 120 122)]

def eventFirstText : String :=
  "class A: def forward(self, target, event): send(target, event) " ++
    "def m(self, queue): self.forward(event=self.a, target=queue)"

def eventFirst : Tree :=
  forwardNode [keywordNode 96 101 (.dotted (some "value") 102 106 108),
    keywordNode 110 116 (.word (some "value") 117 122)]

def forwarding (args : List Argument) : Module :=
  [.class_ "A" [forwarder, caller (.onLine 63 123) (.onLine 83 123) "self" "forward" args]]

theorem moduleOfTree_eventLast : moduleOfTree (.ofText "" eventLastText) eventLast =
    forwarding [keyword "target" (.var "queue"), keyword "event" (selfField "a")] := by
  have hread : moduleOfTree (.ofText "" eventLastText) eventLast =
      [.class_ _ [.mk _ [(_, .unknown), (_, .unknown), (_, .unknown)] (.onLine 9 62) false
          [.call (.onLine 43 62) _ none [.mk none (.value (.var _)), .mk none (.value (.var _))]],
        .mk _ [(_, .unknown), (_, .unknown)] (.onLine 63 123) false
          [.call (.onLine 83 123) _ (some (.var _)) [.mk (some _) (.value (.var _)),
            .mk (some _) (.value (.field (.var _) _))]]]] := rfl
  rw [hread]
  simp only [forwarding, forwarder, caller, keyword, selfField, List.cons.injEq,
    TopLevel.class_.injEq, Function.mk.injEq, Prod.mk.injEq, Stmt.call.injEq, Argument.mk.injEq,
    Operand.value.injEq, Exp.var.injEq, Exp.field.injEq, Option.some.injEq, and_true, true_and]
  decide +kernel

theorem moduleOfTree_eventFirst : moduleOfTree (.ofText "" eventFirstText) eventFirst =
    forwarding [keyword "event" (selfField "a"), keyword "target" (.var "queue")] := by
  have hread : moduleOfTree (.ofText "" eventFirstText) eventFirst =
      [.class_ _ [.mk _ [(_, .unknown), (_, .unknown), (_, .unknown)] (.onLine 9 62) false
          [.call (.onLine 43 62) _ none [.mk none (.value (.var _)), .mk none (.value (.var _))]],
        .mk _ [(_, .unknown), (_, .unknown)] (.onLine 63 123) false
          [.call (.onLine 83 123) _ (some (.var _)) [.mk (some _) (.value (.field (.var _) _)),
            .mk (some _) (.value (.var _))]]]] := rfl
  rw [hread]
  simp only [forwarding, forwarder, caller, keyword, selfField, List.cons.injEq,
    TopLevel.class_.injEq, Function.mk.injEq, Prod.mk.injEq, Stmt.call.injEq, Argument.mk.injEq,
    Operand.value.injEq, Exp.var.injEq, Exp.field.injEq, Option.some.injEq, and_true, true_and]
  decide +kernel

/-- The answer to a message about a field. -/
def askNode (start : Nat) : Tree :=
  .methodCall (some "value") start (start + 5) (start + 9) (start + 25)
    [keywordNode (start + 10) (start + 17)
      (.dotted (some "value") (start + 18) (start + 22) (start + 24))]

def answersNode (args : List Tree) : Tree :=
  .classModule 103 [callerNode 9 103 (.methodCall none 29 34 38 103 args)]

def itemFirstText : String :=
  "class A: def m(self, queue): " ++
    "queue.put(item=queue.ask(message=self.a), block=queue.ask(message=self.b))"

def itemFirst : Tree := answersNode [keywordNode 39 43 (askNode 44), keywordNode 71 76 (askNode 77)]

def itemLastText : String :=
  "class A: def m(self, queue): " ++
    "queue.put(block=queue.ask(message=self.b), item=queue.ask(message=self.a))"

def itemLast : Tree := answersNode [keywordNode 39 44 (askNode 45), keywordNode 72 76 (askNode 77)]

/-- The answer to a message is put, and another one says whether to wait. -/
def answers (args : List Argument) : Module :=
  [.class_ "A" [caller (.onLine 9 103) (.onLine 29 103) "queue" "put" args]]

theorem moduleOfTree_itemFirst : moduleOfTree (.ofText "" itemFirstText) itemFirst =
    answers [answer "item" [keyword "message" (selfField "a")],
      answer "block" [keyword "message" (selfField "b")]] := by
  have hread : moduleOfTree (.ofText "" itemFirstText) itemFirst =
      [.class_ _ [.mk _ [(_, .unknown), (_, .unknown)] (.onLine 9 103) false
        [.call (.onLine 29 103) _ (some (.var _))
          [.mk (some _) (.call _ (some (.var _)) [.mk (some _) (.value (.field (.var _) _))]),
            .mk (some _) (.call _ (some (.var _)) [.mk (some _) (.value (.field (.var _) _))])]]]] :=
    rfl
  rw [hread]
  simp only [answers, caller, answer, keyword, selfField, List.cons.injEq, TopLevel.class_.injEq,
    Function.mk.injEq, Prod.mk.injEq, Stmt.call.injEq, Argument.mk.injEq, Operand.value.injEq,
    Operand.call.injEq, Exp.var.injEq, Exp.field.injEq, Option.some.injEq, and_true, true_and]
  decide +kernel

theorem moduleOfTree_itemLast : moduleOfTree (.ofText "" itemLastText) itemLast =
    answers [answer "block" [keyword "message" (selfField "b")],
      answer "item" [keyword "message" (selfField "a")]] := by
  have hread : moduleOfTree (.ofText "" itemLastText) itemLast =
      [.class_ _ [.mk _ [(_, .unknown), (_, .unknown)] (.onLine 9 103) false
        [.call (.onLine 29 103) _ (some (.var _))
          [.mk (some _) (.call _ (some (.var _)) [.mk (some _) (.value (.field (.var _) _))]),
            .mk (some _) (.call _ (some (.var _)) [.mk (some _) (.value (.field (.var _) _))])]]]] :=
    rfl
  rw [hread]
  simp only [answers, caller, answer, keyword, selfField, List.cons.injEq, TopLevel.class_.injEq,
    Function.mk.injEq, Prod.mk.injEq, Stmt.call.injEq, Argument.mk.injEq, Operand.value.injEq,
    Operand.call.injEq, Exp.var.injEq, Exp.field.injEq, Option.some.injEq, and_true, true_and]
  decide +kernel

theorem givenUpAt_variable {g : Program} (hg : g.Distinct) {id : StatementId} {y : Symbol}
    (h : ∃ p ∈ g.procedures, ∃ i name, p.instrAt? id = some i ∧
      i.action.givenUpArgs = [.var name] ∧ (⟨p, g.library⟩ : Scope).symbolOf name = y)
    (x : Symbol) : g.GivenUpAt [] id x ↔ x = y := by
  obtain ⟨p, hp, i, name, hi, hargs, rfl⟩ := h
  obtain ⟨_, _, _, _, ha⟩ := Action.eq_handOff (hargs ▸ List.mem_cons_self)
  rw [Program.GivenUpAt.iff_handOff hg .empty hp hi ha, hargs]
  simp [Summary.handedParts, Scope.flowing]

/-- The event passed by keyword is given up only in the place that it has among the parameters, and
two answers that change places get each other's temporaries. -/
theorem keyword_order_matters :
    ((HandOffPoint.discover (.ofProgram
        (Program.ofTree .standard [] "" eventLastText eventLast))).run []).1 =
      [⟨⟨"event", .parameter, "A.forward"⟩, ⟨"A.forward", 0, 0⟩, "A.forward"⟩,
        ⟨⟨"a", .field, "A"⟩, ⟨"A.m", 0, 0⟩, "A.m"⟩] ∧
    ((HandOffPoint.discover (.ofProgram
        (Program.ofTree .standard [] "" eventFirstText eventFirst))).run []).1 =
      [⟨⟨"event", .parameter, "A.forward"⟩, ⟨"A.forward", 0, 0⟩, "A.forward"⟩,
        ⟨⟨"queue", .parameter, "A.m"⟩, ⟨"A.m", 0, 0⟩, "A.m"⟩] ∧
    (∀ x, (Program.ofTree .standard [] "" itemFirstText itemFirst).GivenUpAt [] ⟨"A.m", 0, 2⟩ x ↔
      x = ⟨"__tmp_0", .local_, "A.m"⟩) ∧
    (∀ x, (Program.ofTree .standard [] "" itemLastText itemLast).GivenUpAt [] ⟨"A.m", 0, 2⟩ x ↔
      x = ⟨"__tmp_1", .local_, "A.m"⟩) := by
  simp only [Program.ofTree, moduleOfTree_eventLast, moduleOfTree_eventFirst, moduleOfTree_itemFirst,
    moduleOfTree_itemLast]
  refine ⟨by cbv, by cbv, ?_, ?_⟩
  · apply givenUpAt_variable
    · exact List.nodup_singleton "A.m"
    · exact ⟨_, List.mem_cons_self, _, _, rfl, rfl, rfl⟩
  · apply givenUpAt_variable
    · exact List.nodup_singleton "A.m"
    · exact ⟨_, List.mem_cons_self, _, _, rfl, rfl, rfl⟩

end ActorOwnership
