import ActorOwnership.Proofs.Explore
import ActorOwnership.Proofs.Final

/-! Where handlers start. Exactly two nodes lead to the start of a handler: the one in which the
guarded statements start and the one in which they end. The first one holds the straight-line code
at the head of the guarded statements, so a walk to the handler has run that code in any case. -/

namespace ActorOwnership
set_option autoImplicit false

/-! ### Walks to the end of a node -/

section Walks
variable {p : Procedure} {edge : Int → Int → Prop} {a : Position} {xs : List StatementId} {n : Int}
  {k : Nat}

theorem Walk.step_iff {i : Instr} (hi : p.instrAt? ⟨p.name, n, k⟩ = some i)
    (ha : a.node = n → a.index ≤ k) : Walk p edge a xs ⟨n, k + 1⟩ ↔
      ∃ ys, Walk p edge a ys ⟨n, k⟩ ∧ xs = ys ++ [⟨p.name, n, k⟩] := by
  constructor
  · intro hw
    generalize hb : (⟨n, k + 1⟩ : Position) = b at hw
    cases hw with
    | here =>
      subst hb
      have hle : k + 1 ≤ k := ha rfl
      omega
    | @step ys m j i' hw _ =>
      rw [Position.mk.injEq] at hb
      obtain ⟨rfl, hj⟩ := hb
      obtain rfl : k = j := by omega
      exact ⟨ys, hw, rfl⟩
    | move => simp at hb
  · rintro ⟨ys, hw, rfl⟩
    exact hw.step hi

/-- A walk to the end of a node has come through each of its points. -/
theorem Walk.to_end_iff (hk : k ≤ (p.instrsAt n).length) (ha : a.node = n → a.index ≤ k) :
    Walk p edge a xs ⟨n, (p.instrsAt n).length⟩ ↔
      ∃ ys, Walk p edge a ys ⟨n, k⟩ ∧ xs = ys ++ p.handlesFrom n k := by
  induction hleft : (p.instrsAt n).length - k generalizing k with
  | zero =>
    obtain rfl : k = (p.instrsAt n).length := by omega
    rw [Procedure.handlesFrom_end]
    simp
  | succ left ih =>
    have hlt : k < (p.instrsAt n).length := by omega
    have hi : p.instrAt? ⟨p.name, n, k⟩ = some (p.instrsAt n)[k] := by
      rw [Procedure.instrAt?_mk, List.getElem?_eq_getElem hlt]
    rw [ih hlt (fun h => Nat.le_succ_of_le (ha h)) (by omega), Procedure.handlesFrom_cons hi]
    constructor
    · rintro ⟨ys, hw, rfl⟩
      obtain ⟨zs, hzs, rfl⟩ := (Walk.step_iff hi ha).mp hw
      exact ⟨zs, hzs, by simp⟩
    · rintro ⟨ys, hw, rfl⟩
      exact ⟨ys ++ [_], hw.step hi, by simp⟩

/-- A walk to the start of a node that it did not start from comes along an edge. -/
theorem Walk.to_start_iff (ha : a.node ≠ n) (hn : p.hasNode n = true) :
    Walk p p.LeadsTo a xs ⟨n, 0⟩ ↔
      ∃ m, p.LeadsTo m n ∧ Walk p p.LeadsTo a xs ⟨m, (p.instrsAt m).length⟩ := by
  constructor
  · intro hw
    generalize hb : (⟨n, 0⟩ : Position) = b at hw
    cases hw with
    | here =>
      subst hb
      exact absurd rfl ha
    | step => simp at hb
    | @move _ m _ hw _ he _ =>
      rw [Position.mk.injEq] at hb
      obtain ⟨rfl, _⟩ := hb
      exact ⟨m, he, hw⟩
  · rintro ⟨m, he, hw⟩
    exact hw.move he.hasNode he hn

end Walks

def Syntax.Kind.isLoop : Kind → Bool
  | .whileStatement | .forStatement => true
  | _ => false

namespace Lowering
open Surface State

/-! ### The guarded statements -/

section Protected
variable {catalog : Catalog} {loop : Option Loop} {F : Int → Prop} {s₀ t₀ s : State}
  {body orElse final : List Stmt} {handlers : List (List Stmt)}

theorem openJoin_eq (t : State) :
    openJoin t = (t.stop.newNode .join).2.connect t.current t.size := by
  obtain ⟨temps, program, proc, current, exits⟩ := t
  cases current <;> rfl

/-- The graph of the guarded statements, with the current node closed, in the whole graph. Its first
and its last node lead to the handlers. -/
theorem Inside.spares_protect
    (h : Inside F s₀ t₀ loop s (lowerStmt catalog loop (.try_ body orElse handlers final) s))
    (hne : handlers ≠ []) :
    Spares (fun n => (s.current = some n ∨ (protect catalog loop body orElse s).current = some n) ∨
      F n) s (protect catalog loop body orElse s).stop t₀ := by
  have hprotect := extends_protect catalog h.good h.within body orElse
  have hstop : Good (protect catalog loop body orElse s).stop := (grows_stop hprotect.good).good
  have hpiece : Spares (fun n => s.current = some n ∨
      (protect catalog loop body orElse s).current = some n) s
      (protect catalog loop body orElse s).stop (protect catalog loop body orElse s).stop :=
    Spares.of_made h.good hstop hprotect.size nofun
  have hjoin : Extends (fun _ => False) _
      ((protect catalog loop body orElse s).stop.newNode .join).2 := extends_newNode .join hstop
  have hopen : Spares (fun n => s.current = some n ∨
      (protect catalog loop body orElse s).current = some n) s
      (protect catalog loop body orElse s).stop (openJoin (protect catalog loop body orElse s)) := by
    rw [openJoin_eq]
    exact (hpiece.extend hjoin nofun).connect rfl
      (fun c hc => ⟨hjoin.toGrows.hasNode hstop (hprotect.good.hasNode hc), fun _ _ => Or.inr hc⟩)
      ((untouched_newNode .join hstop).hasNode hjoin.good) (Int.le_refl _)
  have hstmt := Spares.handle catalog h.good h.within body orElse hopen (Int.le_refl _) h.within
    (by simpa using hne) final (fun c hc _ _ => Or.inl hc) fun c hc _ _ => Or.inr hc
  exact hstmt.trans h.spares (Int.le_refl _) fun n hn => hn.mono hstmt.size

/-- The edges to a handler are the only new ones when it starts. -/
theorem Handling.mem_succs_enterHandler {T : Int → Prop} {before bodyEnd : Option Int}
    {join n m : Int} {w : State} (h : Handling T s before bodyEnd join w) :
    m ∈ (enterHandler before bodyEnd w).succs n ↔
      m ∈ w.succs n ∨ (before = some n ∨ bodyEnd = some n) ∧ m = w.size := by
  have hw := h.grown.good
  have hnew := hw.newNode .exception
  have hstart := (untouched_newNode .exception hw).hasNode hnew
  have hnodes : ∀ k, w.proc.hasNode k = true → (w.newNode .exception).2.proc.hasNode k = true :=
    fun k hk => (grows_newNode .exception hw).hasNode hw hk
  have hfirst : m ∈ ((w.newNode .exception).2.connect before w.size).succs n ↔
      m ∈ w.succs n ∨ before = some n ∧ m = w.size := by
    rw [mem_succs_connect (fun c hc => hnodes c (h.reopens.1 c hc).1) hstart,
      succs_newNode .exception hw.toSized]
  have hsecond : m ∈ (enterHandler before bodyEnd w).succs n ↔
      m ∈ ((w.newNode .exception).2.connect before w.size).succs n ∨
        bodyEnd = some n ∧ m = w.size := by
    refine mem_succs_connect ?_ ((hasNode_connectFrom _ _ _ _).trans hstart)
    exact fun c hc => (hasNode_connectFrom _ _ _ c).trans (hnodes c (h.reopens.2 c hc).1)
  rw [hsecond, hfirst, or_assoc, or_and_right]

theorem Handling.code_enterHandler {T : Int → Prop} {before bodyEnd : Option Int} {join : Int}
    {w : State} (h : Handling T s before bodyEnd join w) :
    (enterHandler before bodyEnd w).code w.size = [] := by
  have hgood := h.grown.good
  have hstart : Untouched ((w.newNode .exception).2.connect before w.size) w.size :=
    (untouched_newNode .exception hgood).connect (h.reopens.1.ne_size hgood)
  have hboth : Untouched (((w.newNode .exception).2.connect before w.size).connect bodyEnd w.size)
      w.size := hstart.connect (h.reopens.2.ne_size hgood)
  exact hboth.code

variable {before after : List (List Stmt)} {handler : List Stmt}

/-- A handler together with its start, in the whole graph. -/
theorem Inside.spares_handler
    (h : Inside F s₀ t₀ loop s
      (lowerStmt catalog loop (.try_ body orElse (before ++ handler :: after) final) s)) :
    Spares F (handled catalog loop body orElse before s) (lowerBlock catalog loop handler
      (enterHandler s.current (protect catalog loop body orElse s).current
        (handled catalog loop body orElse before s))) t₀ := by
  have hw := handling_handled catalog h.good h.within body orElse before
  have hsize := hw.grown.size
  have hpiece : Spares (fun _ => False) (handled catalog loop body orElse before s)
      (lowerBlock catalog loop handler _) _ :=
    Lowering.spares_handler catalog h.good h.within body orElse before after final
  refine (hpiece.trans h.spares hsize ?_).mono fun n hn => hn.resolve_left id
  rintro n (hn | ⟨hle, hlt⟩)
  · rw [hw.stopped] at hn
    cases hn
  · have hlast := hpiece.size
    exact Or.inr ⟨by omega, by omega⟩

/-- The edges to the start of a handler. -/
theorem Inside.leadsTo_handler
    (h : Inside F s₀ t₀ loop s
      (lowerStmt catalog loop (.try_ body orElse (before ++ handler :: after) final) s))
    (hlinked : Linked s) (k : Int) :
    (closed t₀).proc.LeadsTo k (handled catalog loop body orElse before s).size ↔
      s.current = some k ∨ (protect catalog loop body orElse s).current = some k := by
  have hw := handling_handled catalog h.good h.within body orElse before
  have henter := hw.extends_enterHandler h.good
  have hblock := extends_lowerBlock catalog handler loop henter.good
    (h.within.grows h.good henter.toGrows)
  have hsize := hw.grown.size
  have hstart := size_enterHandler s.current (protect catalog loop body orElse s).current
    (handled catalog loop body orElse before s)
  have hmade := hblock.size
  constructor
  · intro hk
    have hmem := h.spares_handler.into_closed (Int.le_refl _) (by omega) hk
    rcases hblock.edges _ _ hmem with hmem | hmem | hmem
    · rcases hw.mem_succs_enterHandler.mp hmem with hmem | ⟨hk, _⟩
      · -- before the handler nothing leads to a node that is not there yet
        have hlt := hlinked.of_extends hw.grown (fun m => h.within.lt h.good) k _ hmem
        omega
      · exact hk
    · have hlt := h.within.lt h.good hmem
      omega
    · omega
  · intro hk
    have hmem := hw.mem_succs_enterHandler.mpr (Or.inr ⟨hk, rfl⟩)
    exact h.spares_handler.closed_leadsTo (hblock.toGrows.mem_succs henter.good hmem)

end Protected

/-! ### Straight-line code at the head of a block -/

section Lead
variable (catalog : Catalog) {loop : Option Loop} {s : State} {c : Int}

/-- The simple statements at the head of a block go into the node that is current before it. -/
theorem emitted_prefix_lowerBlock (hs : Good s) (hloop : Within loop s) (hc : s.current = some c)
    (stmts : List Stmt) :
    s.code c ++ emitted (lowerBlock catalog loop (stmts.takeWhile isSimple)) s.temps <+:
      (lowerBlock catalog loop stmts s).code c := by
  have hemits := emits_lowerBlock catalog (stmts.takeWhile isSimple) loop
    (List.all_eq_true.mp List.all_takeWhile)
  have hhead := extends_lowerBlock catalog (stmts.takeWhile isSimple) loop hs hloop
  have hrest := extends_lowerBlock catalog (stmts.dropWhile isSimple) loop hhead.good
    (hloop.grows hs hhead.toGrows)
  have hcurrent := (current_emits hemits s).trans hc
  have hcode := hrest.code c hcurrent
  rwa [code_emits hemits hs hc, ← lowerBlock_append, List.takeWhile_append_dropWhile] at hcode

def isLoop : Stmt → Bool
  | .while_ .. | .for_ .. => true
  | _ => false

theorem code_openBody_of_lt (hs : Good s) {n : Int} (hn : n < s.size) (loc : Location)
    (condition : Exp) (kinds : BranchKind × BranchKind) :
    (s.openBody loc condition kinds).code n = s.code n := by
  have hne : s.openHead.current ≠ some n := by
    intro heq
    have hsize : s.size = n := Option.some.inj heq
    omega
  rw [openBody, code_branch (grows_openHead hs).good, if_neg hne]
  exact (code_jump _ s.size s.size n).trans (code_headNodes hs)

/-- A loop has a node of its own, and the one before it is left as it is. -/
theorem code_loop (hs : Good s) {n : Int} (hn : n < s.size) {stmt : Stmt} (h : isLoop stmt = true) :
    (lowerStmt catalog loop stmt s).code n = s.code n := by
  have hclose : ∀ {t : State} (body : List Stmt), Good t → s.size ≤ t.size →
      Within (some ⟨s.size, s.size + 2⟩) t → t.current = some (s.size + 1) → t.code n = s.code n →
      ((lowerBlock catalog (some ⟨s.size, s.size + 2⟩) body t).jump s.size (s.size + 2)).code n =
        s.code n := by
    intro t body ht hsize hwithin hcurrent hcode
    have hbody := extends_lowerBlock catalog body _ ht hwithin
    rw [code_jump, ← hcode]
    refine (hbody.fixed n (by omega) ?_).code
    rw [hcurrent, Ne, Option.some.injEq]
    omega
  cases stmt with
  | while_ loc condition body =>
    have hopen := grows_openBody hs loc condition (.whileTrue, .whileFalse)
    rw [lowerStmt_while]
    exact hclose body hopen.good hopen.size (within_openBody hs loc condition _) rfl
      (code_openBody_of_lt hs hn loc condition _)
  | for_ loc targets iterable body =>
    have hopen := grows_openBody hs loc (.const (.bool true)) (.forEnter, .forExit)
    have hcurrent : (s.openBody loc (.const (.bool true)) (.forEnter, .forExit)).current =
        some (s.size + 1) := rfl
    have htake : Extends (fun _ => False) _ _ :=
      extends_emits hopen.good (emits_takeNext loc targets iterable)
    rw [lowerStmt_for]
    apply hclose body htake.good (Int.le_trans hopen.size htake.size)
      ((within_openBody hs loc _ _).grows hopen.good htake.toGrows)
    · rw [current_emits (emits_takeNext loc targets iterable), hcurrent]
    · refine (htake.fixed n (Int.lt_of_lt_of_le hn hopen.size) ?_).code.trans
        (code_openBody_of_lt hs hn loc _ _)
      rw [hcurrent, Ne, Option.some.injEq]
      omega
  | _ => cases h

theorem current_loop {stmt : Stmt} (h : isLoop stmt = true) :
    (lowerStmt catalog loop stmt s).current = some (s.size + 2) := by
  cases stmt with
  | while_ loc condition body =>
    rw [lowerStmt_while]
    rfl
  | for_ loc targets iterable body =>
    rw [lowerStmt_for]
    rfl
  | _ => cases h

theorem code_lowerBlock_of_loop (hs : Good s) (hloop : Within loop s) {n : Int} (hn : n < s.size)
    {stmts : List Stmt} (h : stmts.head?.any isLoop = true) :
    (lowerBlock catalog loop stmts s).code n = s.code n := by
  cases stmts with
  | nil => cases h
  | cons stmt stmts =>
    have hfirst := extends_lowerStmt catalog stmt loop hs hloop
    have hrest := extends_lowerBlock catalog stmts loop hfirst.good (hloop.grows hs hfirst.toGrows)
    rw [lowerBlock, ← code_loop catalog hs hn h]
    refine (hrest.fixed n (Int.lt_of_lt_of_le hn hfirst.size) ?_).code
    rw [current_loop catalog h, Ne, Option.some.injEq]
    omega

end Lead

/-! ### Walks to a handler -/

theorem hasNode_closed {s : State} {n : Int} (hs : Good s) (hn : s.proc.hasNode n = true) :
    (closed s).proc.hasNode n = true :=
  ((wired_closed hs).nodes n).trans ((grows_newNode .exit hs).hasNode hs hn)

section Way
variable {catalog : Catalog} {loop : Option Loop} {F : Int → Prop} {s₀ t₀ s : State}
  {body orElse final handler : List Stmt} {before after : List (List Stmt)} {c e : Int}
  (h : Inside F s₀ t₀ loop s
    (lowerStmt catalog loop (.try_ body orElse (before ++ handler :: after) final) s))
include h

/-- The nodes of the guarded statements hold what they held after these. -/
theorem Inside.instrsAt_protect {k : Int}
    (hk : Region s (protect catalog loop body orElse s) k) :
    (closed t₀).proc.instrsAt k = (protect catalog loop body orElse s).code k :=
  (h.spares_protect (by simp)).code_closed hk nofun

theorem Inside.region_handler : Region (handled catalog loop body orElse before s)
    (lowerBlock catalog loop handler (enterHandler s.current
      (protect catalog loop body orElse s).current (handled catalog loop body orElse before s)))
    (handled catalog loop body orElse before s).size := by
  have henter := (handling_handled catalog h.good h.within body orElse before).extends_enterHandler
    h.good
  have hblock := (extends_lowerBlock catalog handler loop henter.good
    (h.within.grows h.good henter.toGrows)).size
  rw [size_enterHandler] at hblock
  exact Or.inr ⟨Int.le_refl _, by omega⟩

theorem Inside.walk_to_handler (hlinked : Linked s) (hc : s.current = some c) (he : e < s.size)
    (xs : List StatementId) :
    Walk (closed t₀).proc (closed t₀).proc.LeadsTo ⟨e, 0⟩ xs
        ⟨(handled catalog loop body orElse before s).size, 0⟩ ↔
      (∃ ys, Walk (closed t₀).proc (closed t₀).proc.LeadsTo ⟨e, 0⟩ ys (s.tip c) ∧
        xs = ys ++ (closed t₀).proc.handlesFrom c (s.code c).length) ∨
      ∃ d, (protect catalog loop body orElse s).current = some d ∧
        Walk (closed t₀).proc (closed t₀).proc.LeadsTo ⟨e, 0⟩ xs
          ((protect catalog loop body orElse s).tip d) := by
  have hprotect := extends_protect catalog h.good h.within body orElse
  have hw := handling_handled catalog h.good h.within body orElse before
  have hnode : (closed t₀).proc.hasNode (handled catalog loop body orElse before s).size = true := by
    have hlt := h.spares_handler.lt h.region_handler
    have hnonneg := hw.grown.good.nonneg
    exact hasNode_closed h.spares_handler.good ((h.spares_handler.good.nodes _).mpr (by omega))
  have hne : e ≠ (handled catalog loop body orElse before s).size := by
    have hsize := hw.grown.size
    omega
  have hfirst : (s.code c).length ≤ ((closed t₀).proc.instrsAt c).length := by
    rw [h.instrsAt_protect (Or.inl hc)]
    exact (hprotect.code c hc).length_le
  have htip : ∀ d, (protect catalog loop body orElse s).current = some d →
      (⟨d, ((closed t₀).proc.instrsAt d).length⟩ : Position) =
        (protect catalog loop body orElse s).tip d := by
    intro d hd
    rw [h.instrsAt_protect (hprotect.toGrows.region_current hd)]
    rfl
  rw [Walk.to_start_iff hne hnode]
  constructor
  · rintro ⟨k, hk, hwalk⟩
    rcases (h.leadsTo_handler hlinked k).mp hk with hk | hk
    · obtain rfl : c = k := Option.some.inj (hc.symm.trans hk)
      exact Or.inl ((Walk.to_end_iff hfirst fun _ => Nat.zero_le _).mp hwalk)
    · exact Or.inr ⟨k, hk, htip k hk ▸ hwalk⟩
  · rintro (hwalk | ⟨d, hd, hwalk⟩)
    · exact ⟨c, (h.leadsTo_handler hlinked c).mpr (Or.inl hc),
        (Walk.to_end_iff hfirst fun _ => Nat.zero_le _).mpr hwalk⟩
    · exact ⟨d, (h.leadsTo_handler hlinked d).mpr (Or.inr hd), (htip d hd).symm ▸ hwalk⟩

end Way

/-- Take a guarded block with handlers, at any depth of a function, in code that can be reached; `c`
is the node in which it starts, `t` is the state after the guarded statements, and `n` is where one
of the handlers starts. A walk from the entry to that handler is either a walk to the end of the
guarded statements, or a walk to their start that goes on to the end of its node. What it runs there
is `lead`: the simple statements at the head of the guarded ones are in it, and it is empty where
these start with a loop. -/
theorem walk_to_handler_iff (catalog : Catalog) (owner : Option String) (f : Function) (s : State)
    {starts : List Int} {a : Spot} {body orElse handler final : List Stmt}
    {before after : List (List Stmt)} {t : State} {c n : Int}
    (hoccurs : Occurs catalog ⟨none, entered owner f s⟩ f.body starts a
      (.try_ body orElse (before ++ handler :: after) final))
    (hc : a.state.current = some c) (ht : protect catalog a.loop body orElse a.state = t)
    (hn : (handled catalog a.loop body orElse before a.state).size = n) :
    ∃ p, (lowerFunction catalog owner f s).program.find? (qualifiedName owner f.name) = some p ∧
      (lowerBlock catalog a.loop handler (enterHandler (some c) t.current
        (handled catalog a.loop body orElse before a.state))).code n <+: p.instrsAt n ∧
      ∃ lead, p.instrsAt c = a.state.code c ++ lead ∧
        emitted (lowerBlock catalog a.loop ((body ++ orElse).takeWhile isSimple)) a.state.temps <+:
          lead ∧
        ((body ++ orElse).head?.any isLoop = true → lead = []) ∧
        ∀ xs, Walk p p.LeadsTo ⟨p.entry, 0⟩ xs ⟨n, 0⟩ ↔
          (∃ ys, Walk p p.LeadsTo ⟨p.entry, 0⟩ ys (a.state.tip c) ∧
            xs = ys ++ p.handlesFrom c (a.state.code c).length) ∨
          ∃ d, t.current = some d ∧ Walk p p.LeadsTo ⟨p.entry, 0⟩ xs (t.tip d) := by
  subst ht hn
  have hinside := hoccurs.inside_lowerBlock (good_entered owner f s) nofun
  have hs := hinside.good
  have hloop := hinside.within
  obtain ⟨hnonneg, hlt, _⟩ := hs.current c hc
  have happend : protect catalog a.loop body orElse a.state =
      lowerBlock catalog a.loop (body ++ orElse) a.state := (lowerBlock_append ..).symm
  obtain ⟨lead, hlead⟩ := (extends_protect catalog hs hloop body orElse).code c hc
  refine ⟨lowered catalog owner f s, find?_lowerFunction catalog owner f s, ?_, lead,
    (hinside.instrsAt_protect (Or.inl hc)).trans hlead.symm, ?_, ?_, ?_⟩
  · rw [← hc]
    exact hinside.spares_handler.prefix_closed hinside.region_handler
  · have hprefix := emitted_prefix_lowerBlock catalog hs hloop hc (body ++ orElse)
    rwa [← happend, ← hlead, List.prefix_append_right_inj] at hprefix
  · intro hbody
    have hkept := code_lowerBlock_of_loop catalog hs hloop hlt hbody
    rw [← happend, ← hlead] at hkept
    exact List.append_right_eq_self.mp hkept
  · have hentry : (lowered catalog owner f s).entry = 0 :=
      congrArg Prod.snd (header_lowered catalog owner f s)
    rw [hentry]
    exact hinside.walk_to_handler (hinside.linked (linked_entered owner f s)) hc
      (Int.lt_of_le_of_lt hnonneg hlt)

/-! ### Handlers in a syntax tree -/

section Nodes
open Syntax
variable {catalog : Catalog} {src : Source} {loop : Option Loop}

theorem isSimple_blockStatements {nodes : List Tree} (h : ∀ t ∈ nodes, t.kind.isSimple = true) :
    ∀ stmt ∈ blockStatements src nodes, isSimple stmt = true := by
  intro stmt hstmt
  obtain ⟨t, ht, hstmt⟩ := List.mem_flatMap.mp hstmt
  rw [statementsOf_simple src t (h t ht)] at hstmt
  exact isSimple_simpleStatements src t stmt hstmt

/-- What the simple nodes at the head of a block emit is emitted by the simple statements there. -/
theorem emitted_prefix_takeWhile (nodes : List Tree) (n : Nat) :
    emitted (buildAll catalog src (nodes.takeWhile (·.kind.isSimple)) loop) n <+:
      emitted (lowerBlock catalog loop ((blockStatements src nodes).takeWhile isSimple)) n := by
  have hlead : ∀ stmt ∈ blockStatements src (nodes.takeWhile (·.kind.isSimple)), isSimple stmt = true :=
    isSimple_blockStatements (List.all_eq_true.mp List.all_takeWhile)
  have hsplit : blockStatements src nodes =
      blockStatements src (nodes.takeWhile (·.kind.isSimple)) ++
        blockStatements src (nodes.dropWhile (·.kind.isSimple)) := by
    simp only [blockStatements, ← List.flatMap_append, List.takeWhile_append_dropWhile]
  have hbuild : buildAll catalog src (nodes.takeWhile (·.kind.isSimple)) loop =
      lowerBlock catalog loop (blockStatements src (nodes.takeWhile (·.kind.isSimple))) :=
    funext fun s => (lowerBlock_blockStatements catalog src _ loop s).symm
  rw [hsplit, List.takeWhile_append_of_pos hlead, hbuild]
  generalize blockStatements src (nodes.takeWhile (·.kind.isSimple)) = lead at hlead ⊢
  generalize hrest : (blockStatements src _).takeWhile isSimple = rest
  have hcomp : lowerBlock catalog loop (lead ++ rest) =
      fun s => lowerBlock catalog loop rest (lowerBlock catalog loop lead s) :=
    funext fun s => lowerBlock_append lead rest s
  rw [hcomp, Emits.emitted_comp (emits_lowerBlock catalog rest loop ?_)
    (emits_lowerBlock catalog lead loop hlead)]
  · exact List.prefix_append _ _
  · rw [← hrest]
    exact List.all_eq_true.mp List.all_takeWhile

theorem isLoop_blockStatements {nodes : List Tree}
    (h : nodes.head?.any (·.kind.isLoop) = true) :
    (blockStatements src nodes).head?.any isLoop = true := by
  cases nodes with
  | nil => cases h
  | cons t nodes =>
    rw [List.head?_cons, Option.any_some] at h
    rw [blockStatements, List.flatMap_cons]
    have hkind : t.kind = .whileStatement ∨ t.kind = .forStatement := by
      generalize t.kind = kind at h ⊢
      cases kind <;> simp [Kind.isLoop] at h ⊢
    rcases hkind with hkind | hkind
    · rw [statementsOf_while src t hkind]
      rfl
    · rw [statementsOf_for src t hkind]
      rfl

/-- A handler of simple statements is in one node. -/
theorem code_handler {f : FunctionNode} {s u w : State} {starts : List Int} {a : Spot} {t : Tree}
    {before : List (List Tree)} {handler : List Tree}
    (hoccurs : OccursNode catalog src (opened src f s) f.body starts a t)
    (hkind : t.kind = .tryStatement)
    (hsimple : ∀ c ∈ handler, c.kind.isSimple = true)
    (hu : buildAll catalog src (guardedNodes t) a.loop a.state = u)
    (hw : buildHandled catalog src t before a.loop a.state = w) :
    (buildAll catalog src handler a.loop (enterHandler a.state.current u.current w)).code w.size =
      emitted (buildAll catalog src handler a.loop)
        (enterHandler a.state.current u.current w).temps := by
  have hinside := (hoccurs.occurs (statementsOf_try src t hkind)).inside_lowerBlock
    (good_opened src f s) nofun
  have hhandling := handling_handled catalog hinside.good hinside.within
    (blockStatements src (t.blockIn "body")) (blockStatements src (t.firstClause .elseClause))
    (before.map (blockStatements src))
  rw [handled_nodes, protect_nodes, hu, hw] at hhandling
  have hgood := (hhandling.extends_enterHandler hinside.good).good
  rw [code_emits (emits_buildAll hsimple a.loop) hgood rfl, hhandling.code_enterHandler,
    List.nil_append]

/-- The walks to a handler in the graph that a function node becomes. -/
theorem walk_to_handler_built {f : FunctionNode} {s u w : State} {starts : List Int} {a : Spot}
    {t : Tree} {before after : List (List Tree)} {handler : List Tree} {c : Int}
    (hoccurs : OccursNode catalog src (opened src f s) f.body starts a t)
    (hkind : t.kind = .tryStatement)
    (hhandlers : t.handlers = before ++ handler :: after) (hc : a.state.current = some c)
    (hu : buildAll catalog src (guardedNodes t) a.loop a.state = u)
    (hw : buildHandled catalog src t before a.loop a.state = w) {p : Procedure}
    (hp : built catalog src f s = p) :
    (buildAll catalog src handler a.loop (enterHandler (some c) u.current w)).code w.size <+:
      p.instrsAt w.size ∧
    ∃ lead, p.instrsAt c = a.state.code c ++ lead ∧
      emitted (buildAll catalog src ((guardedNodes t).takeWhile (·.kind.isSimple)) a.loop)
        a.state.temps <+: lead ∧
      ((guardedNodes t).head?.any (·.kind.isLoop) = true → lead = []) ∧
      ∀ xs, Walk p p.LeadsTo ⟨p.entry, 0⟩ xs ⟨w.size, 0⟩ ↔
        (∃ ys, Walk p p.LeadsTo ⟨p.entry, 0⟩ ys (a.state.tip c) ∧
          xs = ys ++ p.handlesFrom c (a.state.code c).length) ∨
        ∃ d, u.current = some d ∧ Walk p p.LeadsTo ⟨p.entry, 0⟩ xs (u.tip d) := by
  have hstmt := statementsOf_try src t hkind
  rw [hhandlers, List.map_append, List.map_cons] at hstmt
  rw [← protect_nodes] at hu
  rw [← handled_nodes] at hw
  obtain ⟨q, hq, hcode, lead, hlead, hsimple, hloop, hwalks⟩ := walk_to_handler_iff catalog f.owner
    (functionAt src f.node f.isStatic) s (hoccurs.occurs hstmt) hc hu rfl
  rw [find?_lowerFunction, lowered_node, hp] at hq
  obtain rfl := Option.some.inj hq
  rw [lowerBlock_blockStatements, hw] at hcode
  rw [hw] at hwalks
  rw [blockStatements, blockStatements, ← List.flatMap_append, ← guardedNodes, ← blockStatements]
    at hsimple hloop
  exact ⟨hcode, lead, hlead, (emitted_prefix_takeWhile _ _).trans hsimple,
    fun h => hloop (isLoop_blockStatements h), hwalks⟩

end Nodes

/-- In a function of a syntax tree, take a guarded block with handlers at any depth, in code that
can be reached; `c` is the node in which it starts, `u` is what has been built after the guarded
statements, and `w` what has been built before one of the handlers. A walk from the entry to that
handler is either a walk to the end of the guarded statements, or a walk to their start that goes on
to the end of its node. What it runs there is `lead`: the simple statements at the head of the
guarded ones are in it, and it is empty where these start with a loop. -/
theorem walk_to_handler_ofTree (catalog : Catalog) (library : Library) (file text : String)
    {root : Syntax.Tree} {f : FunctionNode} (hforce : InForce (.ofText file text) root f) :
    ∃ s p, (Program.ofTree catalog library file text root).find? (f.name (.ofText file text)) =
        some p ∧
      ∀ {starts a t before handler after u w c},
        OccursNode catalog (.ofText file text) (opened (.ofText file text) f s) f.body starts a t →
        t.kind = .tryStatement → t.handlers = before ++ handler :: after →
        a.state.current = some c →
        buildAll catalog (.ofText file text) (guardedNodes t) a.loop a.state = u →
        buildHandled catalog (.ofText file text) t before a.loop a.state = w →
        (buildAll catalog (.ofText file text) handler a.loop
          (enterHandler (some c) u.current w)).code w.size <+: p.instrsAt w.size ∧
        ∃ lead, p.instrsAt c = a.state.code c ++ lead ∧
          emitted (buildAll catalog (.ofText file text)
            ((guardedNodes t).takeWhile (·.kind.isSimple)) a.loop) a.state.temps <+: lead ∧
          ((guardedNodes t).head?.any (·.kind.isLoop) = true → lead = []) ∧
          ∀ xs, Walk p p.LeadsTo ⟨p.entry, 0⟩ xs ⟨w.size, 0⟩ ↔
            (∃ ys, Walk p p.LeadsTo ⟨p.entry, 0⟩ ys (a.state.tip c) ∧
              xs = ys ++ p.handlesFrom c (a.state.code c).length) ∨
            ∃ d, u.current = some d ∧ Walk p p.LeadsTo ⟨p.entry, 0⟩ xs (u.tip d) := by
  obtain ⟨s, hs⟩ := find?_built catalog library file text hforce
  refine ⟨s, _, hs, ?_⟩
  intro starts a t before handler after u w c hoccurs hkind hhandlers hc hu hw
  exact walk_to_handler_built hoccurs hkind hhandlers hc hu hw rfl

/-! ### A reset at the head of a guarded block -/

section Restart
open Syntax

def restartText : String :=
  "class A: def restart(self, t): print(self.f) try: self.f = None t.go() except: print(self.f)"

def restartSource : Source := .ofText "" restartText

def printNode (start : Nat) : Tree :=
  .inLine .expressionStatement none start (start + 13) [.plainCall none start (start + 5) (start + 13)
    [.dotted none (start + 6) (start + 10) (start + 12)]]

def clearNode : Tree :=
  .inLine .expressionStatement none 50 63 [.inLine .assignment none 50 63
    [.dotted (some "left") 50 54 56, .inLine .noneLiteral (some "right") 59 63 []]]

def restartTry : Tree :=
  .inLine .tryStatement none 45 92 [.inLine .block (some "body") 50 70 [clearNode,
      .inLine .expressionStatement none 64 70 [.methodCall none 64 65 68 70 []]],
    .inLine .exceptClause none 71 92 [.inLine .block none 79 92 [printNode 79]]]

/-- Prints a field and clears it, and a handler prints it again. -/
def restart : FunctionNode where
  owner := some (restartSource.text (.word (some "name") 6 7))
  node := .inLine .functionDefinition none 9 92 [.word (some "name") 13 20,
    .inLine .parameters (some "parameters") 20 29 [.word none 21 25, .word none 27 28],
    .inLine .block (some "body") 31 92 [printNode 31, restartTry]]
  isStatic := false

def restartModule : Tree := .classModule 92 [restart.node]

def printField (start : Nat) : Instr :=
  ⟨.onLine start (start + 13), .call none ⟨.const (.text "print"), [selfField "f"], none⟩⟩

def goCall : Instr := ⟨.onLine 64 70, .call none ⟨.const (.text "go"), [], some (.var "t")⟩⟩

def clearField : Instr := ⟨.onLine 50 63, .store (selfField "f") (.const .none)⟩

/-- What a print statement of the text emits. -/
theorem emitted_printNode {start : Nat} (n : Nat)
    (hprint : restartSource.text (.word (some "function") start (start + 5)) = "print")
    (hself : restartSource.text (.word (some "object") (start + 6) (start + 10)) = "self")
    (hfield : restartSource.text (.word (some "attribute") (start + 11) (start + 12)) = "f") :
    emitted (buildAll [] restartSource [printNode start] none) n = [printField start] := by
  have hcall : emitted (buildAll [] restartSource [printNode start] none) n =
      [⟨.onLine start (start + 13), .call none
        ⟨.const (.text (restartSource.text (.word (some "function") start (start + 5)))),
          [.field (.var (restartSource.text (.word (some "object") (start + 6) (start + 10))))
            (restartSource.text (.word (some "attribute") (start + 11) (start + 12)))],
          none⟩⟩] := rfl
  rw [hcall, hprint, hself, hfield]
  rfl

theorem emitted_guardedNodes (n : Nat) :
    emitted (buildAll [] restartSource (guardedNodes restartTry) none) n = [clearField, goCall] := by
  have hself : restartSource.text (.word (some "object") 50 54) = "self" := by decide +kernel
  have hfield : restartSource.text (.word (some "attribute") 55 56) = "f" := by
    decide +kernel
  have ht : restartSource.text (.word (some "object") 64 65) = "t" := by decide +kernel
  have hgo : restartSource.text (.word (some "attribute") 66 68) = "go" := by decide +kernel
  have hboth : emitted (buildAll [] restartSource (guardedNodes restartTry) none) n =
      [⟨.onLine 50 63, .store (.field (.var (restartSource.text (.word (some "object") 50 54)))
        (restartSource.text (.word (some "attribute") 55 56))) (.const .none)⟩,
      ⟨.onLine 64 70, .call none ⟨.const (.text (restartSource.text (.word (some "attribute") 66 68))),
        [], some (.var (restartSource.text (.word (some "object") 64 65)))⟩⟩] := rfl
  rw [hboth, hself, hfield, ht, hgo]
  rfl

theorem handlers_restartTry : restartTry.handlers = [] ++ [printNode 79] :: [] := rfl

/-- Everything up to the end of the guarded block is in the entry. -/
theorem restart_pieces (s : State) :
    ∃ a u w, OccursNode [] restartSource (opened restartSource restart s) restart.body [] ⟨none, a⟩
        restartTry ∧
      buildAll [] restartSource (guardedNodes restartTry) none a = u ∧
      buildHandled [] restartSource restartTry [] none a = w ∧
      a.current = some 0 ∧ u.current = some 0 ∧
      a.code 0 = [printField 31] ∧ u.code 0 = [printField 31, clearField, goCall] ∧
      (buildAll [] restartSource [printNode 79] none (enterHandler (some 0) u.current w)).code w.size =
        [printField 79] := by
  have hprint : Emits (buildAll [] restartSource [printNode 31] none) := emits_buildAll (by decide) none
  have hguarded : Emits (buildAll [] restartSource (guardedNodes restartTry) none) :=
    emits_buildAll (by decide) none
  have hopen := good_opened restartSource restart s
  obtain ⟨a, ha⟩ : ∃ a, buildAll [] restartSource [printNode 31] none
      (opened restartSource restart s).state = a := ⟨_, rfl⟩
  obtain ⟨u, hu⟩ : ∃ u, buildAll [] restartSource (guardedNodes restartTry) none a = u := ⟨_, rfl⟩
  obtain ⟨w, hw⟩ : ∃ w, buildHandled [] restartSource restartTry [] none a = w := ⟨_, rfl⟩
  have hgood : Good a := ha ▸ (realises_emits none hopen hprint).grows.good
  have hc : a.current = some 0 := ha ▸ current_emits hprint _
  have hfirst : a.code 0 = [] ++ _ := ha ▸ code_emits hprint hopen rfl
  rw [emitted_printNode _ (by decide +kernel) (by decide +kernel) (by decide +kernel)] at hfirst
  have hboth : u.code 0 = _ := hu ▸ code_emits hguarded hgood hc
  rw [emitted_guardedNodes, hfirst] at hboth
  have hoccurs : OccursNode [] restartSource (opened restartSource restart s) restart.body [] ⟨none, a⟩
      restartTry := ha ▸ .here [printNode 31] []
  have hhandler : ∀ c ∈ [printNode 79], c.kind.isSimple = true := by decide
  have hlast := code_handler hoccurs rfl hhandler hu hw
  rw [emitted_printNode _ (by decide +kernel) (by decide +kernel) (by decide +kernel), hc] at hlast
  exact ⟨a, u, w, hoccurs, hu, hw, hc, hu ▸ (current_emits hguarded a).trans hc, hfirst, hboth, hlast⟩

/-- Everything up to the end of the guarded block is in node 0, and the handler starts at node `n`.
-/
theorem walk_to_handler_restart :
    InForce restartSource restartModule restart ∧
    ∃ p n, (Program.ofTree [] [] "" restartText restartModule).find? "A.restart" = some p ∧
      [printField 79] <+: p.instrsAt n ∧
      ∃ lead, p.instrsAt 0 = printField 31 :: lead ∧ [clearField, goCall] <+: lead ∧
        ∀ xs, Walk p p.LeadsTo ⟨p.entry, 0⟩ xs ⟨n, 0⟩ ↔
          (∃ ys, Walk p p.LeadsTo ⟨p.entry, 0⟩ ys ⟨0, 1⟩ ∧ xs = ys ++ p.handlesFrom 0 1) ∨
            Walk p p.LeadsTo ⟨p.entry, 0⟩ xs ⟨0, 3⟩ := by
  have hforce : InForce restartSource restartModule restart := ⟨[], [], rfl, by simp⟩
  have hname : restart.name restartSource = "A.restart" := by decide +kernel
  obtain ⟨s, p, hp, hwalks⟩ := walk_to_handler_ofTree [] [] "" restartText hforce
  obtain ⟨a, u, w, hoccurs, hu, hw, hc, hd, ha, hcode, hlast⟩ := restart_pieces s
  obtain ⟨hhandler, lead, hlead, hsimple, _, hwalks⟩ :=
    hwalks hoccurs rfl handlers_restartTry hc hu hw
  have hguarded : emitted (buildAll [] restartSource (guardedNodes restartTry) none) a.temps <+: lead :=
    hsimple
  have hstart : a.tip 0 = ⟨0, 1⟩ := by
    rw [State.tip, ha]
    rfl
  have hend : u.tip 0 = ⟨0, 3⟩ := by
    rw [State.tip, hcode]
    rfl
  refine ⟨hforce, p, w.size, hname ▸ hp, hlast ▸ hhandler, lead, ?_, ?_, ?_⟩
  · rw [hlead, ha]
    rfl
  · exact emitted_guardedNodes a.temps ▸ hguarded
  · intro xs
    rw [hwalks xs, hstart, ha, hd]
    refine or_congr_right ⟨?_, fun hw => ⟨0, rfl, hend ▸ hw⟩⟩
    rintro ⟨d, hd, hw⟩
    obtain rfl : 0 = d := Option.some.inj hd
    exact hend ▸ hw

/-- No walk to the handler comes from before the guarded block: on every one the field is cleared.
-/
theorem handler_after_clear :
    ∃ p n, (Program.ofTree [] [] "" restartText restartModule).find? "A.restart" = some p ∧
      p.instrAt? ⟨p.name, 0, 1⟩ = some clearField ∧ [printField 79] <+: p.instrsAt n ∧
      ∀ xs, Walk p p.LeadsTo ⟨p.entry, 0⟩ xs ⟨n, 0⟩ → ⟨p.name, 0, 1⟩ ∈ xs := by
  have hforce : InForce restartSource restartModule restart := ⟨[], [], rfl, by simp⟩
  have hname : restart.name restartSource = "A.restart" := by decide +kernel
  obtain ⟨s, hp⟩ := find?_built [] [] "" restartText hforce
  obtain ⟨p, hbuilt⟩ : ∃ p, built [] (.ofText "" restartText) restart s = p := ⟨_, rfl⟩
  rw [hbuilt] at hp
  obtain ⟨a, u, w, hoccurs, hu, hw, hc, hd, ha, hcode, hlast⟩ := restart_pieces s
  obtain ⟨hhandler, lead, hlead, hsimple, _, hwalks⟩ :=
    walk_to_handler_built hoccurs rfl handlers_restartTry hc hu hw hbuilt
  have hguarded : emitted (buildAll [] restartSource (guardedNodes restartTry) none) a.temps <+: lead :=
    hsimple
  rw [emitted_guardedNodes] at hguarded
  obtain ⟨rest, rfl⟩ := hguarded
  rw [ha] at hlead
  have hclear : p.instrAt? ⟨p.name, 0, (1 : Nat)⟩ = some clearField := by
    rw [Procedure.instrAt?_mk, hlead]
    rfl
  have hgo : p.instrAt? ⟨p.name, 0, (2 : Nat)⟩ = some goCall := by
    rw [Procedure.instrAt?_mk, hlead]
    rfl
  refine ⟨p, w.size, hname ▸ hp, hclear, hlast ▸ hhandler, ?_⟩
  intro xs hxs
  rcases (hwalks xs).mp hxs with ⟨ys, _, rfl⟩ | ⟨d, hd', hxs⟩
  · rw [ha, List.length_singleton, Procedure.handlesFrom_cons hclear]
    exact List.mem_append_right ys List.mem_cons_self
  · obtain rfl : 0 = d := Option.some.inj (hd.symm.trans hd')
    rw [State.tip, hcode] at hxs
    obtain ⟨ys, hys, rfl⟩ := (Walk.step_iff hgo fun _ => Nat.zero_le _).mp hxs
    obtain ⟨zs, _, rfl⟩ := (Walk.step_iff hclear fun _ => Nat.zero_le _).mp hys
    simp

end Restart

end Lowering

end ActorOwnership
