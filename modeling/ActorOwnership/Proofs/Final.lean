import ActorOwnership.Proofs.TreeGraph

/-! Final blocks. Where the guarded statements and the handlers run to their ends, every walk from
the start of a guarded block to the exit comes through the start of its final block. A statement
that leaves the block early skips the final block: the path is cut there, and nothing leads back. -/

namespace ActorOwnership
set_option autoImplicit false

/-! ### Points that no walk avoids -/

/-- A walk in a set of points that is left only at `q` has come through `q`, or is still in it. -/
theorem Walk.cut {p : Procedure} {edge : Int → Int → Prop} {a b q : Position}
    {xs : List StatementId} {B : Position → Prop}
    (hstep : ∀ n k, B ⟨n, k⟩ → (⟨n, k⟩ : Position) ≠ q → B ⟨n, k + 1⟩)
    (hmove : ∀ n m, B ⟨n, (p.instrsAt n).length⟩ →
      (⟨n, (p.instrsAt n).length⟩ : Position) ≠ q → edge n m → B ⟨m, 0⟩)
    (hw : Walk p edge a xs b) (ha : B a) :
    (∃ ys zs, xs = ys ++ zs ∧ Walk p edge a ys q ∧ Walk p edge q zs b) ∨ B b := by
  induction hw with
  | here => exact Or.inr ha
  | @step xs n k i hw hi ih =>
    rcases ih with ⟨ys, zs, rfl, hys, hzs⟩ | hB
    · exact Or.inl ⟨ys, zs ++ [_], List.append_assoc _ _ _, hys, hzs.step hi⟩
    · by_cases hq : (⟨n, k⟩ : Position) = q
      · exact Or.inl ⟨xs, [_], rfl, hq ▸ hw, hq ▸ Walk.here.step hi⟩
      · exact Or.inr (hstep n k hB hq)
  | @move xs n m hw hn he hm ih =>
    rcases ih with ⟨ys, zs, rfl, hys, hzs⟩ | hB
    · exact Or.inl ⟨ys, zs, rfl, hys, hzs.move hn he hm⟩
    · by_cases hq : (⟨n, (p.instrsAt n).length⟩ : Position) = q
      · exact Or.inl ⟨xs, [], (List.append_nil xs).symm, hq ▸ hw, hq ▸ Walk.here.move hn he hm⟩
      · exact Or.inr (hmove n m hB hq he)

/-- Every walk from `a` to the end of the exit comes through `b`. -/
def Procedure.Through (p : Procedure) (a b : Position) : Prop :=
  ∀ xs, Walk p p.LeadsTo a xs ⟨p.exit, (p.instrsAt p.exit).length⟩ → ∃ ys zs, xs = ys ++ zs ∧
    Walk p p.LeadsTo a ys b ∧ Walk p p.LeadsTo b zs ⟨p.exit, (p.instrsAt p.exit).length⟩

namespace Lowering
open Surface State

/-- The point behind the last instruction of a node so far. -/
def State.tip (s : State) (n : Int) : Position := ⟨n, (s.code n).length⟩

/-! ### Code that runs to its end -/

/-- From `s` to `t` the graph got a piece that is left at its end only. -/
structure Settled (s t : State) : Prop extends Extends (fun _ => False) s t where
  exits : t.exits = s.exits
  reached : s.current ≠ none → t.current ≠ none

section Settled
variable {F : Int → Prop} {s t u : State} {n m c d : Int}

/-- A node that the piece was made of leads to nodes of the piece only. -/
theorem Settled.region_of_leadsTo (hs : Good s) (h : Settled s t) (hspares : Spares F s t u)
    (hF : ∀ n, Region s t n → t.current ≠ some n → ¬ F n) (hn : Region s t n)
    (hcurrent : t.current ≠ some n) (hm : (closed u).proc.LeadsTo n m) : Region s t m := by
  have hold : s.succs n = [] ∧ n ∉ s.exits := by
    rcases hn with hc | ⟨hle, _⟩
    · exact ⟨(hs.current n hc).2.2.1, (hs.current n hc).2.2.2⟩
    · refine ⟨hs.succs_new hle, fun hx => ?_⟩
      have hlt := (hs.exits n hx).2
      omega
  rcases hspares.leadsTo_closed hn hcurrent hm with hm | ⟨hF', _⟩ | ⟨hx, _⟩
  · rcases h.edges n m hm with hm | hm | hm
    · rw [hold.1] at hm
      cases hm
    · cases hm
    · exact Or.inr hm
  · exact absurd hF' (hF n hn hcurrent)
  · rw [h.exits] at hx
    exact absurd hx hold.2

/-- The points of a piece up to its end. -/
def UpTo (s t : State) (d : Int) (a : Position) : Prop :=
  Region s t a.node ∧ (a.node = d → a.index ≤ (t.code d).length)

/-- Every walk from the start of such a piece to the exit comes through its end. -/
theorem Settled.through (hs : Good s) (h : Settled s t) (hspares : Spares F s t u)
    (hF : ∀ n, Region s t n → t.current ≠ some n → ¬ F n) (hc : s.current = some c)
    (hd : t.current = some d) : (closed u).proc.Through (s.tip c) (t.tip d) := by
  intro xs hw
  have hstep : ∀ n k, UpTo s t d ⟨n, k⟩ → (⟨n, k⟩ : Position) ≠ t.tip d → UpTo s t d ⟨n, k + 1⟩ := by
    rintro n k ⟨hn, hk⟩ hne
    refine ⟨hn, ?_⟩
    rintro rfl
    have hle : k ≤ (t.code n).length := hk rfl
    have hne' : k ≠ (t.code n).length := fun heq => hne (heq ▸ rfl)
    exact Nat.lt_of_le_of_ne hle hne'
  have hmove : ∀ n m, UpTo s t d ⟨n, ((closed u).proc.instrsAt n).length⟩ →
      (⟨n, ((closed u).proc.instrsAt n).length⟩ : Position) ≠ t.tip d →
      (closed u).proc.LeadsTo n m → UpTo s t d ⟨m, 0⟩ := by
    rintro n m ⟨hn, hk⟩ hne hm
    have hnd : t.current ≠ some n := by
      intro heq
      obtain rfl : d = n := Option.some.inj (hd.symm.trans heq)
      -- the end of the last node is where the piece is left
      have hle : ((closed u).proc.instrsAt d).length ≤ (t.code d).length := hk rfl
      have hge : (t.code d).length ≤ ((closed u).proc.instrsAt d).length :=
        (hspares.prefix_closed hn).length_le
      exact hne (congrArg (Position.mk d) (Nat.le_antisymm hle hge))
    exact ⟨h.region_of_leadsTo hs hspares hF hn hnd hm, fun _ => Nat.zero_le _⟩
  have hstart : UpTo s t d (s.tip c) := by
    refine ⟨Or.inl hc, ?_⟩
    rintro rfl
    exact (h.code c hc).length_le
  rcases hw.cut hstep hmove hstart with hcut | ⟨hexit, _⟩
  · exact hcut
  · have hlt : (closed u).proc.exit < u.size := hspares.lt hexit
    rw [exit_closed hspares.good] at hlt
    omega

end Settled

/-! ### Statements that run to their ends -/

mutual

/-- Neither returns nor raises, and leaves no loop but its own. -/
def settles (inLoop : Bool) : Stmt → Bool
  | .return_ .. => false
  | .raise => false
  | .break_ => inLoop
  | .continue_ => inLoop
  | .branch clauses orElse => clausesSettle inLoop clauses && blockSettles inLoop orElse
  | .while_ _ _ body => blockSettles true body
  | .for_ _ _ _ body => blockSettles true body
  | .try_ body orElse handlers final =>
    blockSettles inLoop body && blockSettles inLoop orElse && handlersSettle inLoop handlers &&
      blockSettles inLoop final
  | .with_ _ _ body => blockSettles inLoop body
  | _ => true

def blockSettles (inLoop : Bool) : List Stmt → Bool
  | [] => true
  | stmt :: stmts => settles inLoop stmt && blockSettles inLoop stmts

def clausesSettle (inLoop : Bool) : List Clause → Bool
  | [] => true
  | .mk _ _ body :: clauses => blockSettles inLoop body && clausesSettle inLoop clauses

def handlersSettle (inLoop : Bool) : List (List Stmt) → Bool
  | [] => true
  | handler :: handlers => blockSettles inLoop handler && handlersSettle inLoop handlers

end

section Exits
variable (catalog : Catalog) {s w : State}

theorem exits_emits {f : State → State} (hf : Emits f) (s : State) : (f s).exits = s.exits := by
  rw [hf s]
  exact exits_emitAll _ s

theorem exits_goTo (pick : Loop → Int) (loop : Option Loop) (s : State) :
    (goTo pick loop s).exits = s.exits := by
  cases loop with
  | none => rfl
  | some l => exact exits_jump s (pick l) (pick l)

theorem exits_openBody (s : State) (loc : Location) (condition : Exp)
    (kinds : BranchKind × BranchKind) : (s.openBody loc condition kinds).exits = s.exits :=
  (exits_branch s.openHead _ _).trans (exits_jump (s.newNode .loopHead).2.spare s.size s.size)

theorem exits_openClause (s : State) (loc : Location) (condition : Exp) :
    (s.openClause loc condition).exits = s.exits := exits_branch s.spare s.size (s.size + 1)

theorem exits_openJoin (t : State) : (openJoin t).exits = t.exits :=
  exits_jump (t.newNode .join).2 t.size t.size

theorem exits_enterHandler (before bodyEnd : Option Int) (w : State) :
    (enterHandler before bodyEnd w).exits = w.exits :=
  (exits_connect _ bodyEnd _).trans (exits_connect _ before _)

theorem exits_simple {stmt : Stmt} (hsimple : isSimple stmt = true) (loop : Option Loop)
    (s : State) : (lowerStmt catalog loop stmt s).exits = s.exits := by
  rw [lowerStmt_simple catalog hsimple loop]
  exact exits_emits (emits_simple catalog hsimple) s

mutual

theorem exits_lowerStmt : ∀ (stmt : Stmt) {inLoop : Bool} (loop : Option Loop) (s : State),
    settles inLoop stmt = true → (lowerStmt catalog loop stmt s).exits = s.exits
  | .call .., _, loop, s, _ => exits_simple catalog rfl loop s
  | .declare .., _, loop, s, _ => exits_simple catalog rfl loop s
  | .assign .., _, loop, s, _ => exits_simple catalog rfl loop s
  | .assignEach .., _, loop, s, _ => exits_simple catalog rfl loop s
  | .augment .., _, loop, s, _ => exits_simple catalog rfl loop s
  | .return_ .., _, _, _, h => by
    rw [settles] at h
    cases h
  | .raise, _, _, _, h => by
    rw [settles] at h
    cases h
  | .branch clauses orElse, _, loop, s, h => by
    rw [settles, Bool.and_eq_true] at h
    rw [lowerStmt_branch, exits_jump, exits_lowerBlock orElse loop _ h.2,
      exits_lowerClauses clauses loop _ _ h.1]
    rfl
  | .while_ loc condition body, _, loop, s, h => by
    rw [settles] at h
    rw [lowerStmt_while, exits_jump, exits_lowerBlock body _ _ h, exits_openBody]
  | .for_ loc targets iterable body, _, loop, s, h => by
    rw [settles] at h
    rw [lowerStmt_for, exits_jump, exits_lowerBlock body _ _ h,
      exits_emits (emits_takeNext loc targets iterable), exits_openBody]
  | .try_ body orElse handlers final, inLoop, loop, s, h => by
    simp only [settles, Bool.and_eq_true] at h
    obtain ⟨⟨⟨hbody, helse⟩, hhandlers⟩, hfinal⟩ := h
    have hprotect : (protect catalog loop body orElse s).exits = s.exits := by
      rw [protect, exits_lowerBlock orElse loop _ helse, exits_lowerBlock body loop _ hbody]
    rw [lowerStmt_try, exits_lowerBlock final loop _ hfinal, guarded]
    split
    · exact hprotect
    · exact (exits_handlers handlers loop _ _ _ _ hhandlers).trans
        ((exits_openJoin _).trans hprotect)
  | .with_ loc items body, _, loop, s, h => by
    rw [settles] at h
    rw [lowerStmt_with, exits_lowerBlock body loop _ h,
      exits_emits (emits_enterAll catalog loc items)]
  | .break_, _, loop, s, _ => by
    rw [lowerStmt_break, exits_goTo]
  | .continue_, _, loop, s, _ => by
    rw [lowerStmt_continue, exits_goTo]
  | .define f, _, loop, s, _ => by
    obtain ⟨name, params, loc, isStatic, body⟩ := f
    rw [lowerStmt, lowerFunction]

theorem exits_lowerBlock : ∀ (stmts : List Stmt) {inLoop : Bool} (loop : Option Loop) (s : State),
    blockSettles inLoop stmts = true → (lowerBlock catalog loop stmts s).exits = s.exits
  | [], _, _, s, _ => by rw [lowerBlock]
  | stmt :: stmts, _, loop, s, h => by
    rw [blockSettles, Bool.and_eq_true] at h
    rw [lowerBlock, exits_lowerBlock stmts loop _ h.2, exits_lowerStmt stmt loop s h.1]

theorem exits_lowerClauses : ∀ (clauses : List Clause) {inLoop : Bool} (loop : Option Loop)
    (join : Int) (s : State), clausesSettle inLoop clauses = true →
      (lowerClauses catalog loop join clauses s).exits = s.exits
  | [], _, _, _, s, _ => by rw [lowerClauses]
  | .mk condition loc body :: clauses, _, loop, join, s, h => by
    rw [clausesSettle, Bool.and_eq_true] at h
    rw [lowerClauses_cons, exits_lowerClauses clauses loop join _ h.2, exits_jump,
      exits_lowerBlock body loop _ h.1, exits_openClause]

theorem exits_handlers : ∀ (handlers : List (List Stmt)) {inLoop : Bool} (loop : Option Loop)
    (before bodyEnd : Option Int) (join : Int) (w : State), handlersSettle inLoop handlers = true →
      (handlers.foldl (lowerHandler catalog loop before bodyEnd join) w).exits = w.exits
  | [], _, _, _, _, _, _, _ => rfl
  | handler :: handlers, _, loop, before, bodyEnd, join, w, h => by
    rw [handlersSettle, Bool.and_eq_true] at h
    have hfirst : (lowerHandler catalog loop before bodyEnd join w handler).exits = w.exits :=
      (exits_jump _ join join).trans
        ((exits_lowerBlock handler loop _ h.1).trans (exits_enterHandler before bodyEnd w))
    rw [List.foldl_cons, exits_handlers handlers loop before bodyEnd join _ h.2, hfirst]

end

end Exits

section Loops
variable (catalog : Catalog)

mutual

/-- The loop around does not matter to a statement that does not leave it. -/
theorem lowerStmt_settles : ∀ (stmt : Stmt) (loop : Option Loop) (s : State),
    settles false stmt = true → lowerStmt catalog loop stmt s = lowerStmt catalog none stmt s
  | .call .., loop, s, _ => by rw [lowerStmt_simple catalog rfl loop]
  | .declare .., loop, s, _ => by rw [lowerStmt_simple catalog rfl loop]
  | .assign .., loop, s, _ => by rw [lowerStmt_simple catalog rfl loop]
  | .assignEach .., loop, s, _ => by rw [lowerStmt_simple catalog rfl loop]
  | .augment .., loop, s, _ => by rw [lowerStmt_simple catalog rfl loop]
  | .return_ .., loop, s, _ => by rw [lowerStmt_return, lowerStmt_return]
  | .raise, loop, s, _ => by rw [lowerStmt, lowerStmt]
  | .branch clauses orElse, loop, s, h => by
    rw [settles, Bool.and_eq_true] at h
    rw [lowerStmt_branch, lowerStmt_branch, lowerClauses_settle clauses loop _ _ h.1,
      lowerBlock_settles orElse loop _ h.2]
  | .while_ .., loop, s, _ => by rw [lowerStmt_while, lowerStmt_while]
  | .for_ .., loop, s, _ => by rw [lowerStmt_for, lowerStmt_for]
  | .try_ body orElse handlers final, loop, s, h => by
    simp only [settles, Bool.and_eq_true] at h
    obtain ⟨⟨⟨hbody, helse⟩, hhandlers⟩, hfinal⟩ := h
    have hprotect : protect catalog loop body orElse s = protect catalog none body orElse s := by
      rw [protect, lowerBlock_settles orElse loop _ helse, lowerBlock_settles body loop s hbody,
        ← protect]
    rw [lowerStmt_try, lowerStmt_try, lowerBlock_settles final loop _ hfinal, guarded, guarded,
      handled, handled, hprotect, handlers_settle handlers loop _ _ _ _ hhandlers]
  | .with_ loc items body, loop, s, h => by
    rw [settles] at h
    rw [lowerStmt_with, lowerStmt_with, lowerBlock_settles body loop _ h]
  | .break_, _, _, h => by
    rw [settles] at h
    cases h
  | .continue_, _, _, h => by
    rw [settles] at h
    cases h
  | .define f, loop, s, _ => by rw [lowerStmt, lowerStmt]

theorem lowerBlock_settles : ∀ (stmts : List Stmt) (loop : Option Loop) (s : State),
    blockSettles false stmts = true →
      lowerBlock catalog loop stmts s = lowerBlock catalog none stmts s
  | [], loop, s, _ => by rw [lowerBlock, lowerBlock]
  | stmt :: stmts, loop, s, h => by
    rw [blockSettles, Bool.and_eq_true] at h
    rw [lowerBlock, lowerBlock, lowerStmt_settles stmt loop s h.1,
      lowerBlock_settles stmts loop _ h.2]

theorem lowerClauses_settle : ∀ (clauses : List Clause) (loop : Option Loop) (join : Int)
    (s : State), clausesSettle false clauses = true →
      lowerClauses catalog loop join clauses s = lowerClauses catalog none join clauses s
  | [], loop, join, s, _ => by rw [lowerClauses, lowerClauses]
  | .mk condition loc body :: clauses, loop, join, s, h => by
    rw [clausesSettle, Bool.and_eq_true] at h
    rw [lowerClauses_cons, lowerClauses_cons, lowerBlock_settles body loop _ h.1,
      lowerClauses_settle clauses loop join _ h.2]

theorem handlers_settle : ∀ (handlers : List (List Stmt)) (loop : Option Loop)
    (before bodyEnd : Option Int) (join : Int) (w : State), handlersSettle false handlers = true →
      handlers.foldl (lowerHandler catalog loop before bodyEnd join) w =
        handlers.foldl (lowerHandler catalog none before bodyEnd join) w
  | [], _, _, _, _, _, _ => rfl
  | handler :: handlers, loop, before, bodyEnd, join, w, h => by
    rw [handlersSettle, Bool.and_eq_true] at h
    have hfirst : lowerHandler catalog loop before bodyEnd join w handler =
        lowerHandler catalog none before bodyEnd join w handler := by
      rw [lowerHandler, lowerBlock_settles handler loop _ h.1, ← lowerHandler]
    rw [List.foldl_cons, List.foldl_cons, hfirst,
      handlers_settle handlers loop before bodyEnd join _ h.2]

end

theorem current_emits {f : State → State} (hf : Emits f) (s : State) :
    (f s).current = s.current := by
  rw [hf s]
  exact current_emitAll _ s

theorem code_emits {f : State → State} (hf : Emits f) {s : State} (hs : Good s) {c : Int}
    (hc : s.current = some c) : (f s).code c = s.code c ++ emitted f s.temps := by
  rw [hf s]
  refine (code_emitAll _ hc (hs.hasNode hc)).trans ?_
  rw [if_pos rfl]

theorem current_simple {stmt : Stmt} (hsimple : isSimple stmt = true) (loop : Option Loop)
    (s : State) : (lowerStmt catalog loop stmt s).current = s.current := by
  rw [lowerStmt_simple catalog hsimple loop]
  exact current_emits (emits_simple catalog hsimple) s

mutual

/-- What follows a statement that runs to its end can be reached. -/
theorem reached_lowerStmt : ∀ (stmt : Stmt) (loop : Option Loop) (s : State),
    settles false stmt = true → s.current ≠ none → (lowerStmt catalog loop stmt s).current ≠ none
  | .call .., loop, s, _, hs => by rwa [current_simple catalog rfl loop s]
  | .declare .., loop, s, _, hs => by rwa [current_simple catalog rfl loop s]
  | .assign .., loop, s, _, hs => by rwa [current_simple catalog rfl loop s]
  | .assignEach .., loop, s, _, hs => by rwa [current_simple catalog rfl loop s]
  | .augment .., loop, s, _, hs => by rwa [current_simple catalog rfl loop s]
  | .return_ .., _, _, h, _ => by
    rw [settles] at h
    cases h
  | .raise, _, _, h, _ => by
    rw [settles] at h
    cases h
  | .branch clauses orElse, loop, s, _, _ => by
    rw [lowerStmt_branch]
    nofun
  | .while_ loc condition body, loop, s, _, _ => by
    rw [lowerStmt_while]
    nofun
  | .for_ loc targets iterable body, loop, s, _, _ => by
    rw [lowerStmt_for]
    nofun
  | .try_ body orElse handlers final, loop, s, h, hs => by
    simp only [settles, Bool.and_eq_true] at h
    obtain ⟨⟨⟨hbody, helse⟩, _⟩, hfinal⟩ := h
    rw [lowerStmt_try]
    apply reached_lowerBlock final loop _ hfinal
    unfold guarded
    split
    · exact reached_lowerBlock orElse loop _ helse (reached_lowerBlock body loop s hbody hs)
    · nofun
  | .with_ loc items body, loop, s, h, hs => by
    rw [settles] at h
    rw [lowerStmt_with]
    apply reached_lowerBlock body loop _ h
    rwa [current_emits (emits_enterAll catalog loc items)]
  | .break_, _, _, h, _ => by
    rw [settles] at h
    cases h
  | .continue_, _, _, h, _ => by
    rw [settles] at h
    cases h
  | .define f, loop, s, _, hs => by
    obtain ⟨name, params, loc, isStatic, body⟩ := f
    rw [lowerStmt, lowerFunction]
    exact hs

theorem reached_lowerBlock : ∀ (stmts : List Stmt) (loop : Option Loop) (s : State),
    blockSettles false stmts = true → s.current ≠ none →
      (lowerBlock catalog loop stmts s).current ≠ none
  | [], _, s, _, hs => by
    rw [lowerBlock]
    exact hs
  | stmt :: stmts, loop, s, h, hs => by
    rw [blockSettles, Bool.and_eq_true] at h
    rw [lowerBlock]
    exact reached_lowerBlock stmts loop _ h.2 (reached_lowerStmt stmt loop s h.1 hs)

end

variable {s : State}

theorem settled_lowerBlock (loop : Option Loop) (hs : Good s) (stmts : List Stmt)
    (h : blockSettles false stmts = true) : Settled s (lowerBlock catalog loop stmts s) := by
  have hexits := exits_lowerBlock catalog stmts loop s h
  have hreached := reached_lowerBlock catalog stmts loop s h
  rw [lowerBlock_settles catalog stmts loop s h] at hexits hreached ⊢
  exact ⟨(extends_lowerBlock catalog stmts none hs nofun).mono nofun, hexits, hreached⟩

/-- A guarded block without its final block. -/
theorem settled_guarded (loop : Option Loop) (hs : Good s) {body orElse : List Stmt}
    {handlers : List (List Stmt)} (hbody : blockSettles false body = true)
    (helse : blockSettles false orElse = true) (hhandlers : handlersSettle false handlers = true) :
    Settled s (guarded catalog loop body orElse handlers s) := by
  have hsettled := settled_lowerBlock catalog loop hs [.try_ body orElse handlers []]
    (by simp [blockSettles, settles, hbody, helse, hhandlers])
  rwa [lowerBlock, lowerBlock, lowerStmt_try, lowerBlock] at hsettled

end Loops

/-! ### The way out -/

section Way
variable {catalog : Catalog} {loop : Option Loop} {F : Int → Prop} {s₀ t₀ s u v : State}
  {body orElse final : List Stmt} {handlers : List (List Stmt)} {c d : Int}

/-- The part of a guarded block before its final block, in the whole graph. -/
theorem Inside.spares_guarded
    (h : Inside F s₀ t₀ loop s (lowerStmt catalog loop (.try_ body orElse handlers final) s)) :
    Spares F s (guarded catalog loop body orElse handlers s) t₀ := by
  have hguarded := (extends_guarded catalog h.good h.within body orElse handlers).toGrows
  have hfinal : Spares (fun _ => False) s (guarded catalog loop body orElse handlers s)
      (lowerStmt catalog loop (.try_ body orElse handlers final) s) := by
    rw [lowerStmt_try]
    exact (Spares.refl h.good hguarded).block h.within final
  exact (hfinal.trans h.spares (Int.le_refl _) fun n hn => hn.mono hfinal.size).mono
    fun n hn => hn.resolve_left id

/-- The final block of a guarded block, in the whole graph. -/
theorem Inside.spares_final
    (h : Inside F s₀ t₀ loop s (lowerStmt catalog loop (.try_ body orElse handlers final) s)) :
    Spares F (guarded catalog loop body orElse handlers s)
      (lowerBlock catalog loop final (guarded catalog loop body orElse handlers s)) t₀ := by
  have hfinal := inside_final catalog h.good h.within body orElse handlers final
  exact (hfinal.spares.trans h.spares hfinal.size fun n hn => hfinal.region hn).mono
    fun n hn => hn.resolve_left id

end Way

/-- Take a guarded block, at any depth of a function, in code that can be reached; `u` is the state
before its final block, and `v` the state after it. If the guarded statements and the handlers run
to their ends, every walk from the start of the block to the exit comes through the start of the
final block; if that one runs to its end too, the walk then comes through its end. An enclosing
handler that starts from the same node is the exception, once that node has been left. -/
theorem through_final (catalog : Catalog) (owner : Option String) (f : Function) (s : State)
    {starts : List Int} {a : Spot} {body orElse final : List Stmt} {handlers : List (List Stmt)}
    {u v : State} {c : Int}
    (hoccurs : Occurs catalog ⟨none, entered owner f s⟩ f.body starts a
      (.try_ body orElse handlers final))
    (hu : guarded catalog a.loop body orElse handlers a.state = u)
    (hv : lowerBlock catalog a.loop final u = v)
    (hc : a.state.current = some c) (hbody : blockSettles false body = true)
    (helse : blockSettles false orElse = true) (hhandlers : handlersSettle false handlers = true)
    (hstart : c ∈ starts → u.current = some c) :
    ∃ p, (lowerFunction catalog owner f s).program.find? (qualifiedName owner f.name) = some p ∧
      (∀ n, Region u v n → v.code n <+: p.instrsAt n) ∧
      ∃ d, u.current = some d ∧ p.Through (a.state.tip c) (u.tip d) ∧
        (blockSettles false final = true → (c ∈ starts → v.current = some c) →
          ∃ e, v.current = some e ∧ p.Through (u.tip d) (v.tip e)) := by
  subst hu hv
  have hinside := hoccurs.inside_lowerBlock (good_entered owner f s) nofun
  have hs := hinside.good
  have hguarded := settled_guarded catalog a.loop hs hbody helse hhandlers
  have hcurrent : a.state.current ≠ none := by
    rw [hc]
    nofun
  obtain ⟨d, hd⟩ := Option.ne_none_iff_exists'.mp (hguarded.reached hcurrent)
  -- of the nodes from which enclosing handlers start, only the first one can be in the block
  have hfirst : ∀ n, n ∈ starts → Region a.state
      (guarded catalog a.loop body orElse handlers a.state) n → n = c := by
    rintro n hn (hcn | ⟨hle, _⟩)
    · exact Option.some.inj (hcn.symm.trans hc)
    · have hlt := hinside.old n hn
      omega
  refine ⟨lowered catalog owner f s, find?_lowerFunction catalog owner f s,
    fun n hn => hinside.spares_final.prefix_closed hn, d, hd, ?_, ?_⟩
  · refine hguarded.through hs hinside.spares_guarded ?_ hc hd
    intro n hn hne hF
    obtain rfl := hfirst n hF hn
    exact hne (hstart hF)
  · intro hfinal hend
    have hsettled := settled_lowerBlock catalog a.loop hguarded.good final hfinal
    have hreached : (guarded catalog a.loop body orElse handlers a.state).current ≠ none := by
      rw [hd]
      nofun
    obtain ⟨e, he⟩ := Option.ne_none_iff_exists'.mp (hsettled.reached hreached)
    refine ⟨e, he, hsettled.through hguarded.good hinside.spares_final ?_ hd he⟩
    intro n hn hne hF
    have hlt := hinside.old n hF
    have hsize := hguarded.size
    rcases hn with hdn | ⟨hle, _⟩
    · obtain rfl := hfirst n hF (hguarded.toGrows.region_current hdn)
      exact hne (hend hF)
    · omega

end Lowering

/-! ### Nodes that run to their ends -/

namespace Syntax.Tree

def settlesStep (t : Tree) (kids : Placed.Kids (Bool → Bool)) (inLoop : Bool) : Bool :=
  match t.kind with
  | .returnStatement | .raiseStatement => false
  | .breakStatement | .continueStatement => inLoop
  | .ifStatement =>
    (Placed.blockIn kids "consequence" ++ (Placed.elifs kids).flatMap Prod.snd ++
      Placed.otherwise kids).all (· inLoop)
  | .whileStatement | .forStatement => (Placed.blockIn kids "body").all (· true)
  | .withStatement => (Placed.blockIn kids "body").all (· inLoop)
  | .tryStatement =>
    (Placed.blockIn kids "body" ++ Placed.firstClause kids .elseClause ++
      (Placed.handlers kids).flatten ++ Placed.firstClause kids .finallyClause).all (· inLoop)
  | _ => true

/-- The statement neither returns nor raises, and it leaves no loop but its own. -/
def settles (t : Tree) (inLoop : Bool) : Bool := t.foldStatement settlesStep inLoop

theorem settles_eq (t : Tree) (inLoop : Bool) :
    t.settles inLoop = settlesStep t (t.placedKids settlesStep) inLoop :=
  congrFun (foldStatement_eq settlesStep t) inLoop

end Syntax.Tree

namespace Lowering
open Surface State Syntax

section Nodes
variable {src : Source}

theorem blockSettles_append (inLoop : Bool) (stmts stmts' : List Stmt) :
    blockSettles inLoop (stmts ++ stmts') =
      (blockSettles inLoop stmts && blockSettles inLoop stmts') := by
  induction stmts with
  | nil => simp only [List.nil_append, blockSettles, Bool.true_and]
  | cons stmt stmts ih => simp only [List.cons_append, blockSettles, ih, Bool.and_assoc]

theorem blockSettles_simple (inLoop : Bool) {stmts : List Stmt}
    (h : ∀ stmt ∈ stmts, isSimple stmt = true) : blockSettles inLoop stmts = true := by
  induction stmts with
  | nil => rw [blockSettles]
  | cons stmt stmts ih =>
    rw [List.forall_mem_cons] at h
    rw [blockSettles, ih h.2, Bool.and_true]
    cases stmt with
    | call | declare | assign | assignEach | augment => simp only [settles]
    | _ => cases h.1

/-- The node settles where its reading does. -/
def SettlesAlike (src : Source) (t : Tree) : Prop :=
  ∀ inLoop, blockSettles inLoop (statementsOf src t) = t.settles inLoop

theorem SettlesAlike.block {ts : List Tree} (h : ∀ t ∈ ts, SettlesAlike src t) (inLoop : Bool) :
    blockSettles inLoop (blockStatements src ts) = ts.all (Tree.settles · inLoop) := by
  induction ts with
  | nil => simp only [blockStatements, List.flatMap_nil, blockSettles, List.all_nil]
  | cons t ts ih =>
    rw [List.forall_mem_cons] at h
    rw [blockStatements, List.flatMap_cons, blockSettles_append, h.1, ← blockStatements, ih h.2,
      List.all_cons]

theorem SettlesAlike.clauses {cs : List Tree}
    (h : ∀ c ∈ cs, ∀ t ∈ c.blockIn "consequence", SettlesAlike src t) (inLoop : Bool) :
    clausesSettle inLoop (cs.map (clauseAt src)) =
      (cs.flatMap fun c => c.blockIn "consequence").all (Tree.settles · inLoop) := by
  induction cs with
  | nil => simp only [List.map_nil, clausesSettle, List.flatMap_nil, List.all_nil]
  | cons c cs ih =>
    rw [List.forall_mem_cons] at h
    rw [List.map_cons, clauseAt, clausesSettle, SettlesAlike.block h.1, ih h.2, List.flatMap_cons,
      List.all_append]

theorem SettlesAlike.handlers {tss : List (List Tree)} (h : ∀ ts ∈ tss, ∀ t ∈ ts, SettlesAlike src t)
    (inLoop : Bool) : handlersSettle inLoop (tss.map (blockStatements src)) =
      tss.flatten.all (Tree.settles · inLoop) := by
  induction tss with
  | nil => simp only [List.map_nil, handlersSettle, List.flatten_nil, List.all_nil]
  | cons ts tss ih =>
    rw [List.forall_mem_cons] at h
    rw [List.map_cons, handlersSettle, SettlesAlike.block h.1, ih h.2, List.flatten_cons,
      List.all_append]

variable (src)

theorem settlesAlike (t : Tree) : SettlesAlike src t := by
  induction t using Tree.induct_descendants with
  | h t ih =>
    have hbody : ∀ d ∈ t.blockIn "body", SettlesAlike src d :=
      fun d hd => ih d (Tree.descendant_of_blockIn hd)
    have hread := readAs_statementsOf src t
    intro inLoop
    rw [Tree.settles_eq]
    generalize statementsOf src t = stmts at hread ⊢
    cases hread with
    | simple h =>
      rw [blockSettles_simple inLoop (isSimple_simpleStatements src t)]
      unfold Tree.settlesStep
      generalize t.kind = kind at h
      cases kind <;> first | rfl | cases h
    | return_ h | raise h | break_ h | continue_ h =>
      simp only [returnStatement, blockSettles, settles, Bool.and_true, Tree.settlesStep, h]
    | branch h =>
      have hclauses : ∀ c ∈ t :: t.elifs, ∀ d ∈ c.blockIn "consequence", SettlesAlike src d := by
        rw [List.forall_mem_cons]
        exact ⟨fun d hd => ih d (Tree.descendant_of_blockIn hd),
          fun c hc d hd => ih d (Tree.descendant_of_elif hc hd)⟩
      have helse : ∀ d ∈ t.otherwise, SettlesAlike src d :=
        fun d hd => ih d (Tree.descendant_of_otherwise hd)
      simp only [blockSettles, settles, Bool.and_true, Tree.settlesStep, h,
        SettlesAlike.clauses hclauses, SettlesAlike.block helse, Tree.blockIn_placedKids,
        Tree.elifs_placedKids, Tree.otherwise_placedKids, List.flatMap_cons, List.all_append,
        List.all_map, List.flatMap_map, List.all_flatMap]
      rfl
    | while_ h | for_ h | with_ h =>
      simp only [blockSettles, settles, Bool.and_true, SettlesAlike.block hbody, Tree.settlesStep, h,
        Tree.blockIn_placedKids, List.all_map]
      rfl
    | try_ h =>
      have hfirst : ∀ kind, ∀ d ∈ t.firstClause kind, SettlesAlike src d :=
        fun kind d hd => ih d (Tree.descendant_of_firstClause hd)
      have hhandlers : ∀ ts ∈ t.handlers, ∀ d ∈ ts, SettlesAlike src d :=
        fun ts hts d hd => ih d (Tree.descendant_of_handler hts hd)
      simp only [blockSettles, settles, Bool.and_true, SettlesAlike.block hbody,
        SettlesAlike.block (hfirst _), SettlesAlike.handlers hhandlers, Tree.settlesStep, h,
        Tree.blockIn_placedKids, Tree.firstClause_placedKids, Tree.handlers_placedKids,
        List.all_append, List.all_map, ← List.map_flatten]
      rfl
    | function h =>
      cases t.isFunction <;>
        simp only [Bool.false_eq_true, if_false, if_true, blockSettles, settles, Bool.and_true,
          Tree.settlesStep, h]
    | decorated h =>
      rcases definition_statements src t with hnone | ⟨f, hdefine⟩
      · simp only [hnone, blockSettles, Tree.settlesStep, h]
      · simp only [hdefine, blockSettles, settles, Bool.and_true, Tree.settlesStep, h]

end Nodes

/-- In a function of a syntax tree, take a guarded block at any depth, in code that can be reached;
`u` is what has been built before its final block, and `v` what has been built after it. If the
guarded statements and the handlers run to their ends, every walk from the start of the block to the
exit comes through the start of the final block; if that one runs to its end too, the walk then
comes through its end. An enclosing handler that starts from the same node is the exception, once
that node has been left. -/
theorem through_final_ofTree (catalog : Catalog) (library : Library) (file text : String)
    {root : Tree} {f : FunctionNode} (hforce : InForce (.ofText file text) root f) :
    ∃ s p, (Program.ofTree catalog library file text root).find? (f.name (.ofText file text)) =
        some p ∧
      ∀ {starts a t u v c}, OccursNode catalog (.ofText file text) (opened (.ofText file text) f s)
          f.body starts a t → t.kind = .tryStatement →
        buildGuarded catalog (.ofText file text) t a.loop a.state = u →
        buildAll catalog (.ofText file text) (t.firstClause .finallyClause) a.loop u = v →
        a.state.current = some c →
        (guardedNodes t ++ t.handlers.flatten).all (Tree.settles · false) = true →
        (c ∈ starts → u.current = some c) →
        (∀ n, Region u v n → v.code n <+: p.instrsAt n) ∧
        ∃ d, u.current = some d ∧ p.Through (a.state.tip c) (u.tip d) ∧
          ((t.firstClause .finallyClause).all (Tree.settles · false) = true →
            (c ∈ starts → v.current = some c) →
            ∃ e, v.current = some e ∧ p.Through (u.tip d) (v.tip e)) := by
  obtain ⟨s, hs⟩ := find?_built catalog library file text hforce
  refine ⟨s, _, hs, ?_⟩
  intro starts a t u v c hoccurs hkind hu hv hc hsettles hstart
  have hends : ∀ ts : List Tree, ts.all (Tree.settles · false) = true →
      blockSettles false (blockStatements (.ofText file text) ts) = true := by
    intro ts hts
    rw [SettlesAlike.block fun t _ => settlesAlike _ t]
    exact hts
  rw [guardedNodes, List.all_append, List.all_append, Bool.and_eq_true, Bool.and_eq_true] at hsettles
  obtain ⟨⟨hbody, helse⟩, hhandlers⟩ := hsettles
  rw [← SettlesAlike.handlers fun _ _ t _ => settlesAlike (.ofText file text) t] at hhandlers
  rw [← guarded_nodes] at hu
  rw [← lowerBlock_blockStatements] at hv
  obtain ⟨p, hp, hcode, d, hd, hthrough, hend⟩ := through_final catalog f.owner
    (functionAt (.ofText file text) f.node f.isStatic) s
    (hoccurs.occurs (statementsOf_try _ t hkind)) hu hv hc (hends _ hbody) (hends _ helse) hhandlers
    hstart
  rw [find?_lowerFunction, lowered_node] at hp
  obtain rfl := Option.some.inj hp
  exact ⟨hcode, d, hd, hthrough, fun hfinal => hend (hends _ hfinal)⟩

/-- A final block of simple statements stays in the node in which it starts. -/
theorem code_final {catalog : Catalog} {src : Source} {f : FunctionNode} {s u v : State}
    {starts : List Int} {a : Spot} {t : Tree} {d : Int}
    (hoccurs : OccursNode catalog src (opened src f s) f.body starts a t)
    (hkind : t.kind = .tryStatement)
    (hsimple : ∀ c ∈ t.firstClause .finallyClause, c.kind.isSimple = true)
    (hu : buildGuarded catalog src t a.loop a.state = u)
    (hv : buildAll catalog src (t.firstClause .finallyClause) a.loop u = v) (hd : u.current = some d) :
    v.current = some d ∧ v.code d =
      u.code d ++ emitted (buildAll catalog src (t.firstClause .finallyClause) a.loop) u.temps := by
  have hemits : Emits (buildAll catalog src (t.firstClause .finallyClause) a.loop) :=
    emits_buildAll hsimple a.loop
  have hinside := (hoccurs.occurs (statementsOf_try src t hkind)).inside_lowerBlock
    (good_opened src f s) nofun
  have hgood : Good u := by
    rw [← hu, ← guarded_nodes]
    exact (extends_guarded catalog hinside.good hinside.within _ _ _).good
  subst hv
  exact ⟨(current_emits hemits u).trans hd, code_emits hemits hgood hd⟩

/-! ### Two functions -/

def drainText : String :=
  "class A: def drain(self, items): try: for x in items: send(x) except: print(items) " ++
    "finally: self.last = items"

def drainSource : Source := .ofText "" drainText

def drainLoop : Tree :=
  .inLine .forStatement none 38 61 [.word (some "left") 42 43, .word (some "right") 47 52,
    .inLine .block (some "body") 54 61
      [.inLine .expressionStatement none 54 61 [.plainCall none 54 58 61 [.word none 59 60]]]]

def drainHandler : Tree :=
  .inLine .exceptClause none 62 82 [.inLine .block none 70 82
    [.inLine .expressionStatement none 70 82 [.plainCall none 70 75 82 [.word none 76 81]]]]

def drainFinal : Tree :=
  .inLine .finallyClause none 83 109 [.inLine .block none 92 109
    [.inLine .expressionStatement none 92 109 [.inLine .assignment none 92 109
      [.dotted (some "left") 92 96 101, .word (some "right") 104 109]]]]

def drainTry : Tree :=
  .inLine .tryStatement none 33 109
    [.inLine .block (some "body") 38 61 [drainLoop], drainHandler, drainFinal]

/-- Sends one element after the other, and remembers them whether they were sent or not. -/
def drain : FunctionNode where
  owner := some (drainSource.text (.word (some "name") 6 7))
  node := .inLine .functionDefinition none 9 109 [.word (some "name") 13 18,
    .inLine .parameters (some "parameters") 18 31 [.word none 19 23, .word none 25 30],
    .inLine .block (some "body") 33 109 [drainTry]]
  isStatic := false

def drainModule : Tree := .classModule 109 [drain.node]

/-- On every way through the method the elements are remembered. -/
theorem through_final_drain :
    InForce drainSource drainModule drain ∧
    ∃ p d, ∃ k : Nat, (Program.ofTree [] [] "" drainText drainModule).find? "A.drain" = some p ∧
      p.instrAt? ⟨p.name, d, k⟩ = some ⟨.onLine 92 109, .store (selfField "last") (.var "items")⟩ ∧
      p.Through ⟨0, 0⟩ ⟨d, k⟩ ∧ p.Through ⟨d, k⟩ ⟨d, k + 1⟩ := by
  have hforce : InForce drainSource drainModule drain := ⟨[], [], rfl, by simp⟩
  obtain ⟨s, p, hp, hthrough⟩ := through_final_ofTree [] [] "" drainText hforce
  have hoccurs : OccursNode [] drainSource (opened drainSource drain s) drain.body []
      (opened drainSource drain s) drainTry := .here [] []
  obtain ⟨u, hu⟩ : ∃ u,
      buildGuarded [] drainSource drainTry none (opened drainSource drain s).state = u := ⟨_, rfl⟩
  obtain ⟨v, hv⟩ : ∃ v, buildAll [] drainSource (drainTry.firstClause .finallyClause) none u = v :=
    ⟨_, rfl⟩
  obtain ⟨hcode, d, hd, hstart, hend⟩ := hthrough hoccurs rfl hu hv rfl (by decide) nofun
  obtain ⟨e, he, hend⟩ := hend (by decide) nofun
  obtain ⟨hcurrent, hlast⟩ := code_final hoccurs rfl (by decide) hu hv hd
  obtain rfl : d = e := Option.some.inj (hcurrent.symm.trans he)
  have hname : drain.name drainSource = "A.drain" := by decide +kernel
  have hself : drainSource.text (.word (some "object") 92 96) = "self" := by decide +kernel
  have hfield : drainSource.text (.word (some "attribute") 97 101) = "last" := by decide +kernel
  have hitems : drainSource.text (.word (some "right") 104 109) = "items" := by decide +kernel
  have hstore (n : Nat) : emitted (buildAll [] drainSource (drainTry.firstClause .finallyClause)
      (opened drainSource drain s).loop) n =
        [⟨.onLine 92 109, .store (.field (.var (drainSource.text (.word (some "object") 92 96)))
          (drainSource.text (.word (some "attribute") 97 101)))
          (.var (drainSource.text (.word (some "right") 104 109)))⟩] := rfl
  rw [hself, hfield, hitems] at hstore
  rw [hstore] at hlast
  obtain ⟨rest, hrest⟩ := hlast ▸ hcode d (Or.inl hd)
  refine ⟨hforce, p, d, _, hname ▸ hp, ?_, hstart, ?_⟩
  · rw [Procedure.instrAt?_mk]
    simp [← hrest, selfField]
  · rwa [State.tip, State.tip, hlast, List.length_append] at hend

def fetchText : String := "def fetch(conn): try: return conn.read() finally: conn.close()"

def fetchSource : Source := .ofText "" fetchText

/-- Reads from a connection and is to close it. -/
def fetch : FunctionNode where
  owner := none
  node := .inLine .functionDefinition none 0 62 [.word (some "name") 4 9,
    .inLine .parameters (some "parameters") 9 15 [.word none 10 14],
    .inLine .block (some "body") 17 62 [.inLine .tryStatement none 17 62
      [.inLine .block (some "body") 22 40 [.inLine .returnStatement none 22 40
        [.methodCall none 29 33 38 40 []]],
      .inLine .finallyClause none 41 62 [.inLine .block none 50 62
        [.inLine .expressionStatement none 50 62 [.methodCall none 50 54 60 62 []]]]]]]
  isStatic := false

def fetchModule : Tree := .inLine .module none 0 62 [fetch.node]

/-- A return leaves the guarded block at once: nothing of the final block is in the graph. -/
theorem final_block_lost :
    ∃ p, (Program.ofTree [] [] "" fetchText fetchModule).find? "fetch" = some p ∧
      p.nodes.flatMap Node.instrs = [⟨.onLine 22 40,
        .return_ (some (.call (.const (.text "read")) [] (some (.var "conn"))))⟩] := by
  have hforce : InForce fetchSource fetchModule fetch := ⟨[], [], rfl, by simp⟩
  obtain ⟨s, hs⟩ := find?_built [] [] "" fetchText hforce
  have hname : fetch.name fetchSource = "fetch" := by decide +kernel
  have hconn : fetchSource.text (.word (some "object") 29 33) = "conn" := by decide +kernel
  have hread : fetchSource.text (.word (some "attribute") 34 38) = "read" := by decide +kernel
  have hcode : (built [] fetchSource fetch s).nodes.flatMap Node.instrs = [⟨.onLine 22 40,
      .return_ (some (.call (.const (.text (fetchSource.text (.word (some "attribute") 34 38)))) []
        (some (.var (fetchSource.text (.word (some "object") 29 33))))))⟩] := rfl
  rw [hconn, hread] at hcode
  exact ⟨_, hname ▸ hs, hcode⟩

end Lowering

end ActorOwnership
