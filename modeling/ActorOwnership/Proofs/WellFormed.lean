import ActorOwnership.Program.OfSource
import ActorOwnership.Proofs.Regular

/-! The graphs of all procedures are well-formed. Lowering leaves no node behind: each one that it is
done with leads on to another node, or to the exit at the end. Only a `break` or `continue` outside any
loop ends a path that leads nowhere. -/

namespace ActorOwnership
set_option autoImplicit false

namespace Procedure

/-- A regular graph with one way in and one way out: the entry comes first and nothing leads there, the
exit comes last and nothing leads away. -/
structure WellFormed (p : Procedure) : Prop extends Regular p where
  entry : p.entry = 0 ∧ p.hasNode p.entry = true
  start : p.predecessors p.entry = []
  exit : p.exit = p.nodes.length - 1 ∧ p.hasNode p.exit = true
  stop : p.successors p.exit = []

/-- Only the exit leads nowhere. -/
def Total (p : Procedure) : Prop :=
  ∀ n, p.hasNode n = true → n ≠ p.exit → p.successors n ≠ []

end Procedure

namespace Lowering
open Surface State

/-! ### Settled nodes -/

/-- The current node of `s` and the nodes made since then, apart from those in `J`: each of them leads
on, leaves the procedure or is current. -/
def Settles (J : Int → Prop) (s t : State) : Prop :=
  ∀ n, Region s t n → J n ∨ t.succs n ≠ [] ∨ n ∈ t.exits ∨ t.current = some n

section Settles
variable {J : Int → Prop} {s t u : State} {n : Int}

theorem Settles.mono {J' : Int → Prop} (h : Settles J s t) (hJ : ∀ n, J n → J' n) : Settles J' s t :=
  fun n hn => (h n hn).imp_left (hJ n)

/-- What has been settled stays settled. -/
theorem Settles.trans (hs : Good s) (hgrows : Grows s t) (h : Settles J s t) (hgrows' : Grows t u)
    (h' : Settles J t u) : Settles J s u := by
  intro n hn
  by_cases hlate : Region t u n
  · exact h' n hlate
  · have hcurrent : t.current ≠ some n := fun hc => hlate (Or.inl hc)
    have hlt : n < t.size := by
      have hlt := Region.lt hs (Int.le_trans hgrows.size hgrows'.size) hn
      by_contra hle
      exact hlate (Or.inr ⟨Int.not_lt.mp hle, hlt⟩)
    have hfixed := hgrows'.fixed n hlt hcurrent
    have hearly : Region s t n := hn.imp_right fun hnew => ⟨hnew.1, hlt⟩
    rcases h n hearly with hJ | hsuccs | hexits | hc
    · exact Or.inl hJ
    · exact Or.inr (Or.inl (hfixed.succs ▸ hsuccs))
    · exact Or.inr (Or.inr (Or.inl (hfixed.exits.mpr hexits)))
    · exact absurd hc hcurrent

theorem Settles.of_same (h : Settles J s t) (hsize : u.size = t.size)
    (hsuccs : ∀ n, t.succs n ≠ [] → u.succs n ≠ []) (hexits : ∀ n ∈ t.exits, n ∈ u.exits)
    (hcurrent : ∀ n, t.current = some n → u.succs n ≠ [] ∨ n ∈ u.exits ∨ u.current = some n) :
    Settles J s u := by
  intro n hn
  rw [Region, hsize] at hn
  rcases h n hn with hJ | hn | hn | hn
  · exact Or.inl hJ
  · exact Or.inr (Or.inl (hsuccs n hn))
  · exact Or.inr (Or.inr (Or.inl (hexits n hn)))
  · exact Or.inr (hcurrent n hn)

theorem Settles.refl (s : State) : Settles J s s := by
  rintro n (hc | ⟨hle, hlt⟩)
  · exact Or.inr (Or.inr (Or.inr hc))
  · omega

/-- New nodes are set aside at first. -/
theorem settles_fresh (hcurrent : t.current = s.current) :
    Settles (fun n => s.size ≤ n ∧ n < t.size) s t := by
  rintro n (hc | hnew)
  · exact Or.inr (Or.inr (Or.inr (hcurrent.trans hc)))
  · exact Or.inl hnew

theorem settles_newNode (kind : NodeKind) (s : State) :
    Settles (· = s.size) s (s.newNode kind).2 := by
  refine (settles_fresh (current_newNode kind s)).mono ?_
  intro n hn
  rw [size_newNode] at hn
  omega

theorem settles_emits {f : State → State} (hf : Emits f) (s : State) : Settles J s (f s) := by
  rw [hf s]
  refine (Settles.refl s).of_same (size_emitAll _ s) ?_ ?_ ?_
  · intro n hn
    exact (succs_emitAll _ s).symm ▸ hn
  · intro n hn
    exact (exits_emitAll _ s).symm ▸ hn
  · intro n hn
    exact Or.inr (Or.inr ((current_emitAll _ s).trans hn))

theorem settles_leave (s : State) : Settles J s s.leave := by
  refine (Settles.refl s).of_same rfl (fun _ hn => hn) ?_ ?_
  · intro n hn
    exact mem_exits_leave.mpr (Or.inl hn)
  · intro n hn
    exact Or.inr (Or.inl (mem_exits_leave.mpr (Or.inr hn)))

section Jump
variable {target next : Int} (h : Settles J s t) (ht : Good t) (htarget : t.proc.hasNode target = true)
include h ht htarget

theorem Settles.stop_jump : Settles J s (t.jump target next).stop := by
  have hsuccs : ∀ n, (t.jump target next).stop.succs n =
      if t.current = some n then [target] else t.succs n := succs_jump ht htarget next
  refine h.of_same (size_jump t target next) ?_ ?_ ?_
  · intro n hn
    rw [hsuccs]
    split
    · exact List.cons_ne_nil _ _
    · exact hn
  · intro n hn
    exact (exits_jump t target next).symm ▸ hn
  · intro n hn
    rw [hsuccs, if_pos hn]
    exact Or.inl (List.cons_ne_nil _ _)

/-- The node that becomes current need not be set aside any longer. -/
theorem Settles.jump {J' : Int → Prop} (hJ : ∀ n, J n → n = next ∨ J' n) :
    Settles J' s (t.jump target next) := by
  have hstop : Settles J s (t.jump target next).stop := h.stop_jump ht htarget
  intro n hn
  rcases hstop n hn with hn | hn | hn | hn
  · rcases hJ n hn with rfl | hn
    · exact Or.inr (Or.inr (Or.inr rfl))
    · exact Or.inl hn
  · exact Or.inr (Or.inl hn)
  · exact Or.inr (Or.inr (Or.inl hn))
  · cases hn

end Jump

theorem Settles.branch {J' : Int → Prop} {loc : Location} {condition : Exp}
    {kinds : BranchKind × BranchKind} {yes no : Int} (h : Settles J s t) (ht : Good t)
    (hyes : Untouched t yes) (hno : Untouched t no) (hJ : ∀ n, J n → n = yes ∨ J' n) :
    Settles J' s (t.branch loc condition kinds yes no) := by
  have hsuccs : ∀ n m, m ∈ t.succs n ∨ t.current = some n ∧ m = yes →
      (t.branch loc condition kinds yes no).succs n ≠ [] := by
    intro n m hm
    have hmem : m ∈ (t.branch loc condition kinds yes no).succs n :=
      (mem_succs_branch ht hyes hno).mpr (hm.imp_right fun ⟨hc, hm⟩ => ⟨hc, Or.inl hm⟩)
    exact List.ne_nil_of_mem hmem
  intro n hn
  rw [Region, size_branch] at hn
  rcases h n hn with hn | hn | hn | hn
  · rcases hJ n hn with rfl | hn
    · exact Or.inr (Or.inr (Or.inr rfl))
    · exact Or.inl hn
  · obtain ⟨m, hm⟩ := List.exists_mem_of_ne_nil _ hn
    exact Or.inr (Or.inl (hsuccs n m (Or.inl hm)))
  · exact Or.inr (Or.inr (Or.inl ((exits_branch t yes no).symm ▸ hn)))
  · exact Or.inr (Or.inl (hsuccs n yes (Or.inr ⟨hn, rfl⟩)))

theorem size_spare (s : State) : s.spare.size = s.size + 2 := by
  rw [spare, size_newNode, size_newNode]
  omega

theorem settles_openClause (hs : Good s) (loc : Location) (condition : Exp) :
    Settles (· = s.size + 1) s (s.openClause loc condition) := by
  refine (settles_fresh (current_spare s)).branch (grows_spare hs).good (untouched_spare hs)
    (untouched_spare_succ hs) ?_
  intro n hn
  rw [size_spare] at hn
  omega

theorem settles_openBody (hs : Good s) (loc : Location) (condition : Exp)
    (kinds : BranchKind × BranchKind) :
    Settles (· = s.size + 2) s (s.openBody loc condition kinds) := by
  have hfresh : Settles _ s (s.newNode .loopHead).2.spare := settles_fresh rfl
  have hhead : Settles (fun n => n = s.size + 1 ∨ n = s.size + 2) s s.openHead := by
    refine hfresh.jump (grows_headNodes hs).good (hasNode_head hs) ?_
    intro n hn
    rw [size_spare, size_newNode] at hn
    omega
  exact hhead.branch (grows_openHead hs).good (untouched_openHead_body hs)
    (untouched_openHead_after hs) fun _ hn => hn

/-! ### Handlers -/

theorem succs_connect_ne_nil {source : Option Int} {target : Int} (h : s.succs n ≠ []) :
    (s.connect source target).succs n ≠ [] := by
  cases source with
  | none => exact h
  | some c =>
    by_cases hn : n = c
    · by_cases hboth : (s.proc.hasNode c && s.proc.hasNode target) = true
      · obtain ⟨hc, htarget⟩ := Bool.and_eq_true_iff.mp hboth
        obtain ⟨m, hm⟩ := List.exists_mem_of_ne_nil _ h
        have hmem : m ∈ (s.connect (some c) target).succs n :=
          (mem_succs_connect (fun _ heq => Option.some.inj heq ▸ hc) htarget).mpr (Or.inl hm)
        exact List.ne_nil_of_mem hmem
      · have hsame : s.connect (some c) target = s := by
          unfold State.connect Procedure.connect
          simp only [if_neg hboth]
        rwa [hsame]
    · rwa [succs_connect_of_ne fun heq => hn (Option.some.inj heq).symm]

/-- At the start of a handler nothing but that start is current. -/
theorem Settles.enterHandler {before bodyEnd : Option Int} {w : State} (h : Settles J s w)
    (hstopped : w.current = none) (hw : Good w) :
    Settles J s (enterHandler before bodyEnd w) := by
  intro n hn
  rw [Region, size_enterHandler] at hn
  by_cases hstart : n = w.size
  · exact Or.inr (Or.inr (Or.inr (hstart ▸ rfl)))
  · have hold : Region s w n := hn.imp_right fun ⟨hle, hlt⟩ => ⟨hle, by omega⟩
    rcases h n hold with hn | hn | hn | hn
    · exact Or.inl hn
    · refine Or.inr (Or.inl (succs_connect_ne_nil (succs_connect_ne_nil ?_)))
      rwa [succs_newNode .exception hw.toSized]
    · refine Or.inr (Or.inr (Or.inl ?_))
      have hexits : (Lowering.enterHandler before bodyEnd w).exits = w.exits :=
        (exits_connect _ bodyEnd _).trans (exits_connect _ before _)
      rwa [hexits]
    · rw [hstopped] at hn
      cases hn

theorem Settles.moveTo {J' : Int → Prop} {next : Int} (h : Settles J s t) (hstopped : t.current = none)
    (hJ : ∀ n, J n → n = next ∨ J' n) : Settles J' s (t.moveTo next) := by
  intro n hn
  rcases h n hn with hn | hn | hn | hn
  · rcases hJ n hn with rfl | hn
    · exact Or.inr (Or.inr (Or.inr rfl))
    · exact Or.inl hn
  · exact Or.inr (Or.inl hn)
  · exact Or.inr (Or.inr (Or.inl hn))
  · rw [hstopped] at hn
    cases hn

theorem settles_openJoin (hs : Good s) : Settles (· = s.size) s (openJoin s) := by
  have hnew := untouched_newNode .join hs
  exact (settles_newNode .join s).stop_jump (hs.newNode .join) (hnew.hasNode (hs.newNode .join))

end Settles

/-! ### Statements -/

mutual

/-- Whether a `break` or `continue` stands outside the loops of a statement. -/
def stmtStrays : Stmt → Bool
  | .break_ | .continue_ => true
  | .branch clauses orElse => clausesStray clauses || blockStrays orElse
  | .try_ body orElse handlers final =>
    blockStrays body || blockStrays orElse || handlersStray handlers || blockStrays final
  | .with_ _ _ body => blockStrays body
  | _ => false

def blockStrays : List Stmt → Bool
  | [] => false
  | stmt :: stmts => stmtStrays stmt || blockStrays stmts

def clausesStray : List Clause → Bool
  | [] => false
  | .mk _ _ body :: clauses => blockStrays body || clausesStray clauses

def handlersStray : List (List Stmt) → Bool
  | [] => false
  | handler :: handlers => blockStrays handler || handlersStray handlers

end

section Statements
variable (catalog : Catalog)

/-- The code is inside a loop, or needs none. -/
def Housed (loop : Option Loop) (strays : Bool) : Prop := loop = none → strays = false

theorem Housed.left {loop : Option Loop} {a b : Bool} (h : Housed loop (a || b)) : Housed loop a :=
  fun hnone => (Bool.or_eq_false_iff.mp (h hnone)).1

theorem Housed.right {loop : Option Loop} {a b : Bool} (h : Housed loop (a || b)) : Housed loop b :=
  fun hnone => (Bool.or_eq_false_iff.mp (h hnone)).2

theorem housed_some (l : Loop) (strays : Bool) : Housed (some l) strays := nofun

variable {catalog} in
theorem settles_simple {stmt : Stmt} (h : isSimple stmt = true) (loop : Option Loop)
    {J : Int → Prop} (s : State) : Settles J s (lowerStmt catalog loop stmt s) := by
  rw [lowerStmt_simple catalog h loop]
  exact settles_emits (emits_simple catalog h) s

theorem settles_goTo {J : Int → Prop} {pick : Loop → Int} {loop : Option Loop} {s : State}
    (hs : Good s) (hpick : ∀ l, loop = some l → s.proc.hasNode (pick l) = true)
    (hhoused : Housed loop true) : Settles J s (goTo pick loop s) := by
  cases loop with
  | none => cases hhoused rfl
  | some l => exact (Settles.refl s).stop_jump hs (hpick l rfl)

mutual

theorem settles_lowerStmt : ∀ (stmt : Stmt) (loop : Option Loop) {J : Int → Prop} {s : State},
    Good s → Within loop s → Housed loop (stmtStrays stmt) →
      Settles J s (lowerStmt catalog loop stmt s)
  | .call .., loop, _, s, _, _, _ => settles_simple rfl loop s
  | .declare .., loop, _, s, _, _, _ => settles_simple rfl loop s
  | .assign .., loop, _, s, _, _, _ => settles_simple rfl loop s
  | .assignEach .., loop, _, s, _, _, _ => settles_simple rfl loop s
  | .augment .., loop, _, s, _, _, _ => settles_simple rfl loop s
  | .return_ loc v, loop, J, s, hs, _, _ => by
    have hgive : Extends (fun _ => False) s (giveBack catalog loc v s) :=
      extends_emits hs (emits_giveBack catalog loc v)
    rw [lowerStmt_return]
    exact (settles_emits (emits_giveBack catalog loc v) s).trans hs hgive.toGrows
      (grows_leave hgive.good) (settles_leave _)
  | .raise, loop, J, s, _, _, _ => by
    rw [lowerStmt]
    exact settles_leave s
  | .branch clauses orElse, loop, J, s, hs, hloop, hhoused => by
    rw [stmtStrays] at hhoused
    have hnew : Extends (loopTargets loop) s (s.newNode .join).2 := extends_newNode .join hs
    have hwithin := hloop.grows hs hnew.toGrows
    have hjoin := untouched_newNode .join hs
    have hclauses := extends_lowerClauses catalog clauses loop hnew.good hwithin hjoin
    have hgrows := hnew.toGrows.trans hs hclauses.toGrows
    have hwithin' := hwithin.grows hnew.good hclauses.toGrows
    have helse := extends_lowerBlock catalog orElse loop hclauses.good hwithin'
    have hjoin' := helse.toGrows.untouched (hclauses.toGrows.untouched hjoin)
    have hfirst := (settles_newNode .join s).trans hs hnew.toGrows hclauses.toGrows
      (settles_lowerClauses clauses loop hnew.good hwithin hjoin hhoused.left)
    have hboth := hfirst.trans hs hgrows helse.toGrows
      (settles_lowerBlock orElse loop hclauses.good hwithin' hhoused.right)
    rw [lowerStmt_branch]
    exact hboth.jump helse.good (hjoin'.hasNode helse.good) fun n hn => Or.inl hn
  | .while_ loc condition body, loop, J, s, hs, _, _ => by
    have hopen := grows_openBody hs loc condition (.whileTrue, .whileFalse)
    have hwithin := within_openBody hs loc condition (.whileTrue, .whileFalse)
    have hbody := extends_lowerBlock catalog body _ hopen.good hwithin
    have hsettles := (settles_openBody hs loc condition _).trans hs hopen hbody.toGrows
      (settles_lowerBlock body _ hopen.good hwithin (housed_some _ _))
    rw [lowerStmt_while]
    exact hsettles.jump hbody.good ((hwithin.grows hopen.good hbody.toGrows) _ rfl).1
      fun n hn => Or.inl hn
  | .for_ loc targets iterable body, loop, J, s, hs, _, _ => by
    have hopen := grows_openBody hs loc (.const (.bool true)) (.forEnter, .forExit)
    have htake : Extends (fun _ => False) _ _ :=
      extends_emits hopen.good (emits_takeNext loc targets iterable)
    have hwithin := (within_openBody hs loc (.const (.bool true)) (.forEnter, .forExit)).grows
      hopen.good htake.toGrows
    have hbody := extends_lowerBlock catalog body _ htake.good hwithin
    have hfirst := (settles_openBody hs loc (.const (.bool true)) (.forEnter, .forExit)).trans hs hopen
      htake.toGrows (settles_emits (emits_takeNext loc targets iterable) _)
    have hsettles := hfirst.trans hs (hopen.trans hs htake.toGrows) hbody.toGrows
      (settles_lowerBlock body _ htake.good hwithin (housed_some _ _))
    rw [lowerStmt_for]
    exact hsettles.jump hbody.good ((hwithin.grows htake.good hbody.toGrows) _ rfl).1
      fun n hn => Or.inl hn
  | .try_ body orElse handlers final, loop, J, s, hs, hloop, hhoused => by
    rw [stmtStrays] at hhoused
    have hbody := extends_lowerBlock catalog body loop hs hloop
    have hwithin := hloop.grows hs hbody.toGrows
    have helse := extends_lowerBlock catalog orElse loop hbody.good hwithin
    have hprotect := extends_protect catalog hs hloop body orElse
    have hguarded := extends_guarded catalog hs hloop body orElse handlers
    have hprotected : ∀ {J}, Settles J s (protect catalog loop body orElse s) := by
      intro J
      exact (settles_lowerBlock body loop hs hloop hhoused.left.left.left).trans hs hbody.toGrows
        helse.toGrows (settles_lowerBlock orElse loop hbody.good hwithin hhoused.left.left.right)
    have hmiddle : Settles J s (guarded catalog loop body orElse handlers s) := by
      have hhandling := handling_openJoin hs hprotect
      have hjoin := hprotected.trans hs hprotect.toGrows
        (extends_openJoin hprotect.good (.refl hprotect.good) (T := loopTargets loop)).toGrows
        (settles_openJoin hprotect.good)
      have hhandlers := settles_lowerHandlers handlers loop hs hloop hhandling hjoin
        hhoused.left.right
      have hdone := handling_lowerHandlers catalog handlers loop hs hloop hhandling
      unfold guarded
      split
      · exact hprotected
      · exact hhandlers.moveTo hdone.stopped fun n hn => Or.inl hn
    have hwithin' := hloop.grows hs hguarded.toGrows
    have hfinal := extends_lowerBlock catalog final loop hguarded.good hwithin'
    rw [lowerStmt_try]
    exact hmiddle.trans hs hguarded.toGrows hfinal.toGrows
      (settles_lowerBlock final loop hguarded.good hwithin' hhoused.right)
  | .with_ loc items body, loop, J, s, hs, hloop, hhoused => by
    rw [stmtStrays] at hhoused
    have henter : Extends (loopTargets loop) s (enterAll catalog loc items s) :=
      extends_emits hs (emits_enterAll catalog loc items)
    have hwithin := hloop.grows hs henter.toGrows
    have hbody := extends_lowerBlock catalog body loop henter.good hwithin
    rw [lowerStmt_with]
    exact (settles_emits (emits_enterAll catalog loc items) s).trans hs henter.toGrows hbody.toGrows
      (settles_lowerBlock body loop henter.good hwithin hhoused)
  | .break_, loop, J, s, hs, hloop, hhoused => by
    rw [lowerStmt_break]
    exact settles_goTo hs (fun l hl => (hloop l hl).2) hhoused
  | .continue_, loop, J, s, hs, hloop, hhoused => by
    rw [lowerStmt_continue]
    exact settles_goTo hs (fun l hl => (hloop l hl).1) hhoused
  | .define (.mk name params loc isStatic body), loop, J, s, _, _, _ => by
    rw [lowerStmt, lowerFunction]
    exact (Settles.refl s).of_same rfl (fun _ hn => hn) (fun _ hn => hn)
      fun _ hn => Or.inr (Or.inr hn)

theorem settles_lowerBlock : ∀ (stmts : List Stmt) (loop : Option Loop) {J : Int → Prop} {s : State},
    Good s → Within loop s → Housed loop (blockStrays stmts) →
      Settles J s (lowerBlock catalog loop stmts s)
  | [], loop, J, s, _, _, _ => by
    rw [lowerBlock]
    exact .refl s
  | stmt :: stmts, loop, J, s, hs, hloop, hhoused => by
    rw [blockStrays] at hhoused
    have hfirst := extends_lowerStmt catalog stmt loop hs hloop
    have hwithin := hloop.grows hs hfirst.toGrows
    have hrest := extends_lowerBlock catalog stmts loop hfirst.good hwithin
    rw [lowerBlock]
    exact (settles_lowerStmt stmt loop hs hloop hhoused.left).trans hs hfirst.toGrows hrest.toGrows
      (settles_lowerBlock stmts loop hfirst.good hwithin hhoused.right)

theorem settles_lowerClauses : ∀ (clauses : List Clause) (loop : Option Loop) {J : Int → Prop}
    {join : Int} {s : State}, Good s → Within loop s → Untouched s join →
      Housed loop (clausesStray clauses) →
      Settles J s (lowerClauses catalog loop join clauses s)
  | [], loop, J, join, s, _, _, _, _ => by
    rw [lowerClauses]
    exact .refl s
  | .mk condition loc body :: clauses, loop, J, join, s, hs, hloop, hjoin, hhoused => by
    rw [clausesStray] at hhoused
    have hopen := grows_openClause hs loc condition
    have hwithin := hloop.grows hs hopen
    have hbody := extends_lowerBlock catalog body loop hopen.good hwithin
    have hjump := extends_closeClause hs loc condition hjoin hbody
    have hwithin' := hloop.grows hs hjump.toGrows
    have hjoin' := hjump.toGrows.untouched hjoin
    have hrest := extends_lowerClauses catalog clauses loop hjump.good hwithin' hjoin'
    have hnode : (lowerBlock catalog loop body (s.openClause loc condition)).proc.hasNode join =
        true := (hbody.toGrows.untouched (hopen.untouched hjoin)).hasNode hbody.good
    have hclause := (settles_openClause hs loc condition).trans hs hopen hbody.toGrows
      (settles_lowerBlock body loop hopen.good hwithin hhoused.left)
    rw [lowerClauses_cons]
    exact (hclause.jump hbody.good hnode fun n hn => Or.inl hn).trans hs hjump.toGrows hrest.toGrows
      (settles_lowerClauses clauses loop hjump.good hwithin' hjoin' hhoused.right)

theorem settles_lowerHandlers : ∀ (handlers : List (List Stmt)) (loop : Option Loop)
    {J : Int → Prop} {before bodyEnd : Option Int} {join : Int} {s w : State}, Good s →
      Within loop s → Handling (loopTargets loop) s before bodyEnd join w → Settles J s w →
      Housed loop (handlersStray handlers) →
      Settles J s (handlers.foldl (lowerHandler catalog loop before bodyEnd join) w)
  | [], _, _, _, _, _, _, _, _, _, _, hsettles, _ => hsettles
  | handler :: handlers, loop, J, before, bodyEnd, join, s, w, hs, hloop, hw, hsettles, hhoused => by
    rw [handlersStray] at hhoused
    have henter := hw.extends_enterHandler hs
    have hwithin := hloop.grows hs henter.toGrows
    have hblock := extends_lowerBlock catalog handler loop henter.good hwithin
    have hnode := (hblock.toGrows.untouched hw.untouched_enterHandler).hasNode hblock.good
    have hlowered := (hsettles.enterHandler hw.stopped hw.grown.good).trans hs henter.toGrows
      hblock.toGrows (settles_lowerBlock handler loop henter.good hwithin hhoused.left)
    exact settles_lowerHandlers handlers loop hs hloop (hw.next hs hblock)
      (hlowered.stop_jump hblock.good hnode) hhoused.right

end

end Statements

/-! ### Procedures -/

theorem size_closed (s : State) : (closed s).size = s.size + 1 := by
  have hall : ∀ (ids : List Int) (t : State),
      (ids.foldl (fun t id => t.connect (some id) s.size) t).size = t.size := by
    intro ids
    induction ids with
    | nil => exact fun t => rfl
    | cons id ids ih => exact fun t => (ih _).trans (size_connectFrom t (some id) s.size)
  exact ((hall s.exits _).trans (size_connectFrom (withExit s) _ s.size)).trans
    (size_newNode .exit s)

section Lowered
variable (catalog : Catalog) (owner : Option String) (f : Function) (s : State)

theorem hasNode_lowered {n : Int} : (lowered catalog owner f s).hasNode n = true ↔
    0 ≤ n ∧ n ≤ (lowered catalog owner f s).exit := by
  have hgood := (grows_entered catalog owner f s).good
  have hexit : (lowered catalog owner f s).exit = _ := exit_closed hgood
  have hsize := size_closed (lowerBlock catalog none f.body (entered owner f s))
  rw [(regular_lowered catalog owner f s).hasNode_iff, hexit, lowered, ← size, hsize]
  omega

/-- Edges lead to nodes that are new since the entry was made. -/
theorem not_leadsTo_entry (n : Int) : ¬ (lowered catalog owner f s).LeadsTo n 0 := by
  have hextends := extends_lowerBlock catalog f.body none (good_entered owner f s) nofun
  have hsize : (entered owner f s).size = 1 := by
    obtain ⟨name, params, loc, isStatic, body⟩ := f
    rfl
  have hgrown := hextends.size
  intro hleads
  rcases (leadsTo_closed hextends.good n 0).mp hleads with hm | ⟨_, hm⟩
  · rcases hextends.edges n 0 hm with hm | ⟨l, hl, _⟩ | hm
    · rw [succs_entered] at hm
      cases hm
    · cases hl
    · omega
  · omega

theorem wellFormed_lowered : (lowered catalog owner f s).WellFormed := by
  have hgood := (grows_entered catalog owner f s).good
  have hregular := regular_lowered catalog owner f s
  have hentry : (lowered catalog owner f s).entry = 0 :=
    (Prod.mk.inj (header_lowered catalog owner f s)).2
  have hexit : (lowered catalog owner f s).exit = _ := exit_closed hgood
  refine ⟨hregular, ⟨hentry, ?_⟩, ?_, ⟨?_, hasNode_exit_closed hgood⟩, successors_exit_closed hgood⟩
  · rw [hentry, hasNode_lowered, hexit]
    exact ⟨Int.le_refl _, hgood.nonneg⟩
  · rw [hentry]
    apply List.eq_nil_iff_forall_not_mem.mpr
    intro n hn
    exact not_leadsTo_entry catalog owner f s n ((hregular.symmetric n 0).mpr hn)
  · have hnext := hregular.next
    have hsize : (lowered catalog owner f s).nextId = _ := size_closed _
    rw [hsize] at hnext
    rw [hexit]
    omega

theorem total_lowered (hstrays : blockStrays f.body = false) :
    (lowered catalog owner f s).Total := by
  have hgood := (grows_entered catalog owner f s).good
  have hexit : (lowered catalog owner f s).exit = _ := exit_closed hgood
  have hsettles : Settles (fun _ => False) (entered owner f s)
      (lowerBlock catalog none f.body (entered owner f s)) :=
    settles_lowerBlock catalog f.body none (good_entered owner f s) nofun fun _ => hstrays
  have hstart : (entered owner f s).current = some 0 ∧ (entered owner f s).size = 1 := by
    obtain ⟨name, params, loc, isStatic, body⟩ := f
    exact ⟨rfl, rfl⟩
  intro n hn hne
  rw [hasNode_lowered, hexit] at hn
  rw [hexit] at hne
  have hregion : Region (entered owner f s) (lowerBlock catalog none f.body (entered owner f s)) n := by
    by_cases hzero : n = 0
    · exact Or.inl (hzero ▸ hstart.1)
    · exact Or.inr (by omega)
  have hleads : ∃ m, (lowered catalog owner f s).LeadsTo n m := by
    rcases hsettles n hregion with hn | hn | hn | hn
    · cases hn
    · obtain ⟨m, hm⟩ := List.exists_mem_of_ne_nil _ hn
      exact ⟨m, (leadsTo_closed hgood n m).mpr (Or.inl hm)⟩
    · exact ⟨_, (leadsTo_closed hgood n _).mpr (Or.inr ⟨Or.inr hn, rfl⟩)⟩
    · exact ⟨_, (leadsTo_closed hgood n _).mpr (Or.inr ⟨Or.inl hn, rfl⟩)⟩
  obtain ⟨m, hm⟩ := hleads
  exact List.ne_nil_of_mem hm

end Lowered

/-- Whatever the syntax tree, each procedure of its program is well-formed, and comes from a
function of the module. If no `break` or `continue` of that function stands outside any loop, then
every node but the exit leads somewhere. -/
theorem wellFormed_ofTree (catalog : Catalog) (library : Library) (file text : String)
    (root : Syntax.Tree) :
    ∀ p ∈ (Program.ofTree catalog library file text root).procedures, p.WellFormed ∧
      ∃ x ∈ moduleFunctions (moduleOfTree (.ofText file text) root), ∃ s,
        p = lowered catalog x.1 x.2 s ∧ (blockStrays x.2.body = false → p.Total) := by
  intro p hp
  obtain ⟨x, hx, s, rfl⟩ := exists_becomes_of_mem catalog hp
  exact ⟨wellFormed_lowered catalog x.1 x.2 s, x, hx, s, rfl, total_lowered catalog x.1 x.2 s⟩

def part (kind : Syntax.Kind) (field : String) (children : List Syntax.Tree) : Syntax.Tree :=
  .node kind {} {} true (some field) children

/-- A function with a loop that it leaves at once, and a guarded block with a handler that raises. -/
def leaver : Syntax.Tree :=
  part .module "" [part .functionDefinition "" [part .identifier "name" [], part .block "body"
    [part .whileStatement "" [part .trueLiteral "condition" [],
        part .block "body" [part .breakStatement "" []]],
      part .tryStatement "" [part .block "body" [part .returnStatement "" []],
        part .exceptClause "" [part .block "body" [part .raiseStatement "" []]]]]]]

theorem wellFormed_ofTree_leaver :
    ∃ p, (Program.ofTree [] [] "" "" leaver).procedures = [p] ∧ p.WellFormed ∧ p.Total ∧
      p.nodes.map Node.succs = [[1], [2, 3], [3], [5, 6], [6], [6], []] := by
  have hsuccs : (Program.ofTree [] [] "" "" leaver).procedures.map (·.nodes.map Node.succs) =
      [[[1], [2, 3], [3], [5, 6], [6], [6], []]] := by decide +kernel
  have hhoused : ∀ x ∈ moduleFunctions (moduleOfTree (.ofText "" "") leaver),
      blockStrays x.2.body = false := by decide +kernel
  obtain ⟨p, hp, hsuccs⟩ := List.map_eq_singleton_iff.mp hsuccs
  obtain ⟨hwell, x, hx, _, _, htotal⟩ :=
    wellFormed_ofTree [] [] "" "" leaver p (hp ▸ List.mem_singleton_self p)
  exact ⟨p, hp, hwell, htotal (hhoused x hx), hsuccs⟩

end Lowering

end ActorOwnership
