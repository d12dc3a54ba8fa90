import ActorOwnership.Proofs.Emission

/-! Runs of structured code, without a graph. A run is the list of its instructions together with
how it ends; conditions are not evaluated, so every branch and every number of iterations is
possible. -/

namespace ActorOwnership.Lowering
open Surface State
set_option autoImplicit false

/-- How a run ends: it goes on to what comes next, it leaves or restarts the innermost loop, or it
leaves the procedure. -/
inductive Ending where
  | next
  | broken
  | continued
  | left
  deriving DecidableEq, Repr

/-- The instructions of the runs of a piece of code, and how the runs end. -/
def Behaviour := List Instr → Ending → Prop

namespace Behaviour

/-- No run at all. -/
def never : Behaviour := fun _ _ => False

/-- One run. -/
def just (is : List Instr) (ending : Ending) : Behaviour := fun xs e => xs = is ∧ e = ending

/-- The second piece runs where the first one goes on to what comes next. -/
def andThen (B C : Behaviour) : Behaviour := fun xs e =>
  B xs e ∧ e ≠ .next ∨ ∃ ys zs, xs = ys ++ zs ∧ B ys .next ∧ C zs e

def either (B C : Behaviour) : Behaviour := fun xs e => B xs e ∨ C xs e

/-- A loop: its head comes before each iteration and before the loop is left at the head. -/
inductive Repeat (head : List Instr) (body : Behaviour) : Behaviour where
  | leave : Repeat head body head .next
  | again {xs ys : List Instr} {e e' : Ending} : body xs e → e = .next ∨ e = .continued →
      Repeat head body ys e' → Repeat head body (head ++ (xs ++ ys)) e'
  | broken {xs : List Instr} : body xs .broken → Repeat head body (head ++ xs) .next
  | left {xs : List Instr} : body xs .left → Repeat head body (head ++ xs) .left

/-! ### What follows a run -/

/-- A run, followed by what `A` allows after its ending. -/
def Followed (B : Behaviour) (A : Ending → List Instr → Prop) (xs : List Instr) : Prop :=
  ∃ ys e zs, B ys e ∧ A e zs ∧ xs = ys ++ zs

/-- What follows an iteration: the loop, or what comes after it. -/
def afterIteration (A : Ending → List Instr → Prop) (T : List Instr → Prop) :
    Ending → List Instr → Prop
  | .next => T
  | .continued => T
  | .broken => A .next
  | .left => A .left

variable {B C : Behaviour} {A A' : Ending → List Instr → Prop} {xs head : List Instr}

theorem followed_congr (h : ∀ ys e zs, B ys e → xs = ys ++ zs → (A e zs ↔ A' e zs)) :
    B.Followed A xs ↔ B.Followed A' xs := by
  constructor
  · rintro ⟨ys, e, zs, hB, hA, hxs⟩
    exact ⟨ys, e, zs, hB, (h ys e zs hB hxs).mp hA, hxs⟩
  · rintro ⟨ys, e, zs, hB, hA, hxs⟩
    exact ⟨ys, e, zs, hB, (h ys e zs hB hxs).mpr hA, hxs⟩

theorem followed_just {is : List Instr} {ending : Ending} :
    (just is ending).Followed A xs ↔ ∃ zs, xs = is ++ zs ∧ A ending zs := by
  constructor
  · rintro ⟨_, _, zs, ⟨rfl, rfl⟩, hA, hxs⟩
    exact ⟨zs, hxs, hA⟩
  · rintro ⟨zs, hxs, hA⟩
    exact ⟨is, ending, zs, ⟨rfl, rfl⟩, hA, hxs⟩

theorem followed_either :
    (either B C).Followed A xs ↔ B.Followed A xs ∨ C.Followed A xs := by
  constructor
  · rintro ⟨ys, e, zs, hB | hC, hA, hxs⟩
    · exact Or.inl ⟨ys, e, zs, hB, hA, hxs⟩
    · exact Or.inr ⟨ys, e, zs, hC, hA, hxs⟩
  · rintro (⟨ys, e, zs, hB, hA, hxs⟩ | ⟨ys, e, zs, hC, hA, hxs⟩)
    · exact ⟨ys, e, zs, Or.inl hB, hA, hxs⟩
    · exact ⟨ys, e, zs, Or.inr hC, hA, hxs⟩

theorem followed_andThen : (B.andThen C).Followed A xs ↔
    B.Followed (fun e => if e = .next then C.Followed A else A e) xs := by
  constructor
  · rintro ⟨ys, e, zs, ⟨hB, hne⟩ | ⟨us, vs, rfl, hB, hC⟩, hA, hxs⟩
    · exact ⟨ys, e, zs, hB, by simpa [hne] using hA, hxs⟩
    · rw [List.append_assoc] at hxs
      exact ⟨us, .next, vs ++ zs, hB, ⟨vs, e, zs, hC, hA, rfl⟩, hxs⟩
  · rintro ⟨ys, e, zs, hB, hA, rfl⟩
    by_cases he : e = .next
    · subst he
      obtain ⟨us, e, vs, hC, hA, rfl⟩ := hA
      exact ⟨ys ++ us, e, vs, Or.inr ⟨ys, us, rfl, hB, hC⟩, hA, (List.append_assoc ys us vs).symm⟩
    · rw [if_neg he] at hA
      exact ⟨ys, e, zs, Or.inl ⟨hB, he⟩, hA, rfl⟩

/-- A loop is its head, and then either what comes after it or an iteration. -/
theorem followed_repeat : (Repeat head B).Followed A xs ↔ ∃ zs, xs = head ++ zs ∧
    (A .next zs ∨ B.Followed (afterIteration A ((Repeat head B).Followed A)) zs) := by
  constructor
  · rintro ⟨ys, e, zs, hrun, hA, rfl⟩
    cases hrun with
    | leave => exact ⟨zs, rfl, Or.inl hA⟩
    | @again us vs e₁ _ hB he hrest =>
      have hrest : (Repeat head B).Followed A (vs ++ zs) := ⟨vs, e, zs, hrest, hA, rfl⟩
      refine ⟨us ++ (vs ++ zs), by simp, Or.inr ⟨us, e₁, vs ++ zs, hB, ?_, rfl⟩⟩
      rcases he with rfl | rfl
      · exact hrest
      · exact hrest
    | @broken us hB => exact ⟨us ++ zs, by simp, Or.inr ⟨us, .broken, zs, hB, hA, rfl⟩⟩
    | @left us hB => exact ⟨us ++ zs, by simp, Or.inr ⟨us, .left, zs, hB, hA, rfl⟩⟩
  · rintro ⟨zs, rfl, hA | ⟨us, e, vs, hB, hA, rfl⟩⟩
    · exact ⟨head, .next, zs, .leave, hA, rfl⟩
    · cases e with
      | next =>
        obtain ⟨ys, e, ws, hrest, hA, rfl⟩ := hA
        exact ⟨_, e, ws, .again hB (Or.inl rfl) hrest, hA, by simp⟩
      | continued =>
        obtain ⟨ys, e, ws, hrest, hA, rfl⟩ := hA
        exact ⟨_, e, ws, .again hB (Or.inr rfl) hrest, hA, by simp⟩
      | broken => exact ⟨_, .next, vs, .broken hB, hA, by simp⟩
      | left => exact ⟨_, .left, vs, .left hB, hA, by simp⟩

/-- Since the head is not empty, only the loop unfolds like the loop. -/
theorem followed_repeat_unique {T : List Instr → Prop} (hhead : head ≠ [])
    (hT : ∀ xs, T xs ↔ ∃ zs, xs = head ++ zs ∧ (A .next zs ∨ B.Followed (afterIteration A T) zs))
    (xs : List Instr) : T xs ↔ (Repeat head B).Followed A xs := by
  -- by induction on the length: what is left after an iteration is shorter
  induction hlength : xs.length using Nat.strongRecOn generalizing xs with
  | ind k ih =>
    rw [hT, followed_repeat]
    refine exists_congr fun zs => and_congr_right fun hxs => or_congr_right ?_
    apply followed_congr
    intro ys e ws _ hzs
    have hpos := List.length_pos_iff.mpr hhead
    have hshort : ws.length < k := by
      rw [← hlength, hxs, hzs, List.length_append, List.length_append]
      omega
    cases e with
    | next => exact ih ws.length hshort ws rfl
    | continued => exact ih ws.length hshort ws rfl
    | broken => exact Iff.rfl
    | left => exact Iff.rfl

end Behaviour

/-! ### Statements -/

mutual

/-- Built without guarded blocks and nested definitions. -/
def isStructured : Stmt → Bool
  | .branch clauses orElse => clausesStructured clauses && blockStructured orElse
  | .while_ _ _ body => blockStructured body
  | .for_ _ _ _ body => blockStructured body
  | .with_ _ _ body => blockStructured body
  | .try_ .. => false
  | .define _ => false
  | _ => true

def blockStructured : List Stmt → Bool
  | [] => true
  | stmt :: stmts => isStructured stmt && blockStructured stmts

def clausesStructured : List Clause → Bool
  | [] => true
  | .mk _ _ body :: clauses => blockStructured body && clausesStructured clauses

end

/-- A statement that is a sequence of instructions. -/
def isSimple : Stmt → Bool
  | .call .. => true
  | .declare .. => true
  | .assign .. => true
  | .assignEach .. => true
  | .augment .. => true
  | _ => false

/-- The targets of a loop receive the next element. -/
def takeNext (loc : Location) (targets : List Target) (iterable : Exp) : State → State :=
  writeTargets loc targets (nextOf iterable)

/-- All contexts of a block are entered. -/
def enterAll (catalog : Catalog) (loc : Location) (items : List WithItem) (s : State) : State :=
  items.foldl (lowerWithItem catalog loc) s

open Behaviour

mutual

/-- The runs of a statement after `n` temporaries. The temporaries are counted along the text and
not along a run: an iteration reads the same names as the one before it. -/
def stmtRuns (catalog : Catalog) : Stmt → Nat → Behaviour
  | .return_ loc v, n => just (emitted (lowerStmt catalog none (.return_ loc v)) n) .left
  | .raise, _ => just [] .left
  | .break_, _ => just [] .broken
  | .continue_, _ => just [] .continued
  | .branch clauses orElse, n => clauseRuns catalog clauses (blockRuns catalog orElse) n
  | .while_ loc condition body, n =>
    Repeat (assumptions loc condition (.whileTrue, .whileFalse)) (blockRuns catalog body n)
  | .for_ loc targets iterable body, n =>
    Repeat (assumptions loc (.const (.bool true)) (.forEnter, .forExit))
      ((just (emitted (takeNext loc targets iterable) n) .next).andThen
        (blockRuns catalog body (counted (takeNext loc targets iterable) n)))
  | .with_ loc items body, n =>
    (just (emitted (enterAll catalog loc items) n) .next).andThen
      (blockRuns catalog body (counted (enterAll catalog loc items) n))
  | .try_ .., _ => never
  | .define _, _ => never
  | stmt, n => just (emitted (lowerStmt catalog none stmt) n) .next

def blockRuns (catalog : Catalog) : List Stmt → Nat → Behaviour
  | [], _ => just [] .next
  | stmt :: stmts, n =>
    (stmtRuns catalog stmt n).andThen
      (blockRuns catalog stmts (counted (lowerStmt catalog none stmt) n))

/-- Both assumptions of a condition, and then its block or the clauses after it. -/
def clauseRuns (catalog : Catalog) : List Clause → (Nat → Behaviour) → Nat → Behaviour
  | [], orElse, n => orElse n
  | .mk condition loc body :: clauses, orElse, n =>
    (just (assumptions loc condition (.ifTrue, .ifFalse)) .next).andThen
      (either (blockRuns catalog body n)
        (clauseRuns catalog clauses orElse (counted (lowerBlock catalog none body) n)))

end

/-! ### The lowering, step by step -/

section Steps
variable (catalog : Catalog) (loop : Option Loop) (s : State)

-- The equations of the lowering are derived here once, and not by each of the proofs below.
attribute [local simp] lowerStmt lowerBlock lowerClauses lowerHandlers lowerFunction

theorem lowerStmt_branch (clauses : List Clause) (orElse : List Stmt) :
    lowerStmt catalog loop (.branch clauses orElse) s =
      (lowerBlock catalog loop orElse (lowerClauses catalog loop s.size clauses
        (s.newNode .join).2)).jump s.size s.size := by
  rw [lowerStmt]
  rfl

theorem lowerClauses_cons (join : Int) (condition : Exp) (loc : Location) (body : List Stmt)
    (clauses : List Clause) :
    lowerClauses catalog loop join (.mk condition loc body :: clauses) s =
      lowerClauses catalog loop join clauses
        ((lowerBlock catalog loop body (s.openClause loc condition)).jump join (s.size + 1)) := by
  have hsize := size_newNode .normal s
  rw [lowerClauses, openClause, ← hsize]
  rfl

theorem lowerStmt_while (loc : Location) (condition : Exp) (body : List Stmt) :
    lowerStmt catalog loop (.while_ loc condition body) s =
      (lowerBlock catalog (some ⟨s.size, s.size + 2⟩) body
        (s.openBody loc condition (.whileTrue, .whileFalse))).jump s.size (s.size + 2) := by
  rw [lowerStmt, openLoop_eq]
  rfl

theorem lowerStmt_for (loc : Location) (targets : List Target) (iterable : Exp) (body : List Stmt) :
    lowerStmt catalog loop (.for_ loc targets iterable body) s =
      (lowerBlock catalog (some ⟨s.size, s.size + 2⟩) body
        (takeNext loc targets iterable (s.openBody loc (.const (.bool true))
          (.forEnter, .forExit)))).jump s.size (s.size + 2) := by
  rw [lowerStmt, openLoop_eq]
  rfl

theorem lowerStmt_with (loc : Location) (items : List WithItem) (body : List Stmt) :
    lowerStmt catalog loop (.with_ loc items body) s =
      lowerBlock catalog loop body (enterAll catalog loc items s) := by
  rw [lowerStmt]
  rfl

/-- The current path goes to a node of the innermost loop; without a loop it just ends. -/
def goTo (pick : Loop → Int) (loop : Option Loop) (s : State) : State :=
  match loop with
  | some l => (s.jump (pick l) (pick l)).stop
  | none => s.stop

theorem lowerStmt_break : lowerStmt catalog loop .break_ s = goTo Loop.after loop s := by
  cases loop with
  | none => rw [lowerStmt, goTo]
  | some l =>
    rw [lowerStmt]
    rfl

theorem lowerStmt_continue : lowerStmt catalog loop .continue_ s = goTo Loop.head loop s := by
  cases loop with
  | none => rw [lowerStmt, goTo]
  | some l =>
    rw [lowerStmt]
    rfl

end Steps

section Emitting
variable (catalog : Catalog)

theorem emits_takeNext (loc : Location) (targets : List Target) (iterable : Exp) :
    Emits (takeNext loc targets iterable) := emits_writeTargets loc targets _

theorem emits_enterAll (loc : Location) (items : List WithItem) :
    Emits (enterAll catalog loc items) := Emits.foldl (emits_lowerWithItem catalog loc) items

/-- What a return does before the procedure is left. -/
def giveBack (loc : Location) : Option Operand → State → State
  | none, s => s.emit loc (.return_ none)
  | some v, s =>
    let r := lowerOperand catalog loc v s
    r.2.emit loc (.return_ (some r.1))

theorem emits_giveBack (loc : Location) (v : Option Operand) : Emits (giveBack catalog loc v) := by
  cases v with
  | none => exact emits_emit loc _
  | some v =>
    exact (plain_lowerOperand catalog loc v).andThen
      (g := fun e s => s.emit loc (.return_ (some e))) fun e => emits_emit loc _

theorem lowerStmt_return (loop : Option Loop) (loc : Location) (v : Option Operand) (s : State) :
    lowerStmt catalog loop (.return_ loc v) s = (giveBack catalog loc v s).leave := by
  cases v with
  | none => rw [lowerStmt, giveBack]
  | some v => rw [lowerStmt, giveBack]

/-- The innermost loop does not matter to a simple statement. -/
theorem lowerStmt_simple {stmt : Stmt} (h : isSimple stmt = true) (loop : Option Loop) :
    lowerStmt catalog loop stmt = lowerStmt catalog none stmt := by
  funext s
  cases stmt with
  | call loc name receiver args => rw [lowerStmt, lowerStmt]
  | declare loc name type init => cases init <;> rw [lowerStmt, lowerStmt]
  | assign loc d v => rw [lowerStmt, lowerStmt]
  | assignEach loc pairs => rw [lowerStmt, lowerStmt]
  | augment loc target op left v => rw [lowerStmt, lowerStmt]
  | _ => cases h

theorem stmtRuns_simple {stmt : Stmt} (h : isSimple stmt = true) (n : Nat) :
    stmtRuns catalog stmt n = just (emitted (lowerStmt catalog none stmt) n) .next := by
  cases stmt with
  | call | declare | assign | assignEach | augment => simp only [stmtRuns]
  | _ => cases h

theorem emits_simple {stmt : Stmt} (h : isSimple stmt = true) :
    Emits (lowerStmt catalog none stmt) := by
  cases stmt with
  | call loc name receiver args =>
    exact (emits_lowerCall catalog loc none name receiver args).congr fun s => by rw [lowerStmt]
  | declare loc name type init =>
    cases init with
    | none => exact (emits_emit loc _).congr fun s => by rw [lowerStmt]
    | some v =>
      refine ((plain_lowerOperand catalog loc v).andThen
        (g := fun e s => s.emit loc (.declare name (.named type) (some e))) ?_).congr ?_
      · exact fun e => emits_emit loc _
      · exact fun s => by rw [lowerStmt]
  | assign loc d v => exact (emits_assignOperand catalog loc d v).congr fun s => by rw [lowerStmt]
  | assignEach loc pairs =>
    exact (emits_assignPairs catalog loc pairs).congr fun s => by rw [lowerStmt]
  | augment loc target op left v =>
    refine ((plain_lowerOperand catalog loc v).andThen
      (g := fun e s => target.toList.foldl (writeTarget loc (.binary op left e)) s) ?_).congr ?_
    · exact fun e => Emits.foldl (emits_writeTarget loc _) target.toList
    · exact fun s => by rw [lowerStmt]
  | _ => cases h

theorem emits_lowerBlock (stmts : List Stmt) (loop : Option Loop)
    (hsimple : ∀ stmt ∈ stmts, isSimple stmt = true) : Emits (lowerBlock catalog loop stmts) := by
  induction stmts with
  | nil => exact emits_id.congr fun s => by rw [lowerBlock]
  | cons stmt stmts ih =>
    have hfirst := emits_simple catalog (hsimple stmt List.mem_cons_self)
    rw [← lowerStmt_simple catalog (hsimple stmt List.mem_cons_self) loop] at hfirst
    have hrest := ih fun stmt hstmt => hsimple stmt (List.mem_cons_of_mem _ hstmt)
    exact (hrest.comp hfirst).congr fun s => by rw [lowerBlock]

end Emitting

/-! ### Temporaries -/

section Temps
variable (catalog : Catalog)

theorem temps_of_emits {f : State → State} (hf : Emits f) {s t : State} (h : s.temps = t.temps) :
    (f s).temps = (f t).temps := by rw [hf.temps_eq s, hf.temps_eq t, h]

theorem temps_goTo (pick : Loop → Int) (loop : Option Loop) (s : State) :
    (goTo pick loop s).temps = s.temps := by
  cases loop with
  | none => rfl
  | some l => exact temps_jump s (pick l) (pick l)

theorem temps_simple {stmt : Stmt} (hsimple : isSimple stmt = true) (loop loop' : Option Loop)
    {s t : State} (h : s.temps = t.temps) :
    (lowerStmt catalog loop stmt s).temps = (lowerStmt catalog loop' stmt t).temps := by
  rw [lowerStmt_simple catalog hsimple loop, lowerStmt_simple catalog hsimple loop']
  exact temps_of_emits (emits_simple catalog hsimple) h

mutual

/-- The number of temporaries does not depend on the graph or on the loops around. -/
theorem temps_lowerStmt : ∀ (stmt : Stmt) (loop loop' : Option Loop) {s t : State},
    isStructured stmt = true → s.temps = t.temps →
      (lowerStmt catalog loop stmt s).temps = (lowerStmt catalog loop' stmt t).temps
  | .call .., loop, loop', _, _, _, h => temps_simple catalog rfl loop loop' h
  | .declare .., loop, loop', _, _, _, h => temps_simple catalog rfl loop loop' h
  | .assign .., loop, loop', _, _, _, h => temps_simple catalog rfl loop loop' h
  | .assignEach .., loop, loop', _, _, _, h => temps_simple catalog rfl loop loop' h
  | .augment .., loop, loop', _, _, _, h => temps_simple catalog rfl loop loop' h
  | .return_ loc v, loop, loop', s, t, _, h => by
    rw [lowerStmt_return, lowerStmt_return]
    exact temps_of_emits (emits_giveBack catalog loc v) h
  | .branch clauses orElse, loop, loop', s, t, hstruct, h => by
    rw [isStructured, Bool.and_eq_true] at hstruct
    rw [lowerStmt_branch, lowerStmt_branch, temps_jump, temps_jump]
    apply temps_lowerBlock orElse loop loop' hstruct.2
    exact temps_lowerClauses clauses loop loop' _ _ hstruct.1 h
  | .while_ loc condition body, loop, loop', s, t, hstruct, h => by
    rw [isStructured] at hstruct
    rw [lowerStmt_while, lowerStmt_while, temps_jump, temps_jump]
    apply temps_lowerBlock body _ _ hstruct
    rw [temps_openBody, temps_openBody, h]
  | .for_ loc targets iterable body, loop, loop', s, t, hstruct, h => by
    rw [isStructured] at hstruct
    rw [lowerStmt_for, lowerStmt_for, temps_jump, temps_jump]
    apply temps_lowerBlock body _ _ hstruct
    apply temps_of_emits (emits_takeNext loc targets iterable)
    rw [temps_openBody, temps_openBody, h]
  | .with_ loc items body, loop, loop', s, t, hstruct, h => by
    rw [isStructured] at hstruct
    rw [lowerStmt_with, lowerStmt_with]
    apply temps_lowerBlock body _ _ hstruct
    exact temps_of_emits (emits_enterAll catalog loc items) h
  | .raise, loop, loop', s, t, _, h => by
    rw [lowerStmt, lowerStmt]
    exact h
  | .break_, loop, loop', s, t, _, h => by
    rw [lowerStmt_break, lowerStmt_break, temps_goTo, temps_goTo, h]
  | .continue_, loop, loop', s, t, _, h => by
    rw [lowerStmt_continue, lowerStmt_continue, temps_goTo, temps_goTo, h]
  | .try_ .., _, _, _, _, hstruct, _ => by
    rw [isStructured] at hstruct
    cases hstruct
  | .define _, _, _, _, _, hstruct, _ => by
    rw [isStructured] at hstruct
    cases hstruct

theorem temps_lowerBlock : ∀ (stmts : List Stmt) (loop loop' : Option Loop) {s t : State},
    blockStructured stmts = true → s.temps = t.temps →
      (lowerBlock catalog loop stmts s).temps = (lowerBlock catalog loop' stmts t).temps
  | [], _, _, _, _, _, h => by
    rw [lowerBlock, lowerBlock]
    exact h
  | stmt :: stmts, loop, loop', s, t, hstruct, h => by
    rw [blockStructured, Bool.and_eq_true] at hstruct
    rw [lowerBlock, lowerBlock]
    apply temps_lowerBlock stmts loop loop' hstruct.2
    exact temps_lowerStmt stmt loop loop' hstruct.1 h

theorem temps_lowerClauses : ∀ (clauses : List Clause) (loop loop' : Option Loop) (join join' : Int)
    {s t : State}, clausesStructured clauses = true → s.temps = t.temps →
      (lowerClauses catalog loop join clauses s).temps =
        (lowerClauses catalog loop' join' clauses t).temps
  | [], _, _, _, _, _, _, _, h => by
    rw [lowerClauses, lowerClauses]
    exact h
  | .mk condition loc body :: clauses, loop, loop', join, join', s, t, hstruct, h => by
    rw [clausesStructured, Bool.and_eq_true] at hstruct
    rw [lowerClauses_cons, lowerClauses_cons]
    apply temps_lowerClauses clauses loop loop' join join' hstruct.2
    rw [temps_jump, temps_jump]
    apply temps_lowerBlock body loop loop' hstruct.1
    rw [temps_openClause, temps_openClause, h]

end

end Temps

end ActorOwnership.Lowering
