import ActorOwnership.Proofs.Extension

/-! Where a statement stands in a body, at any depth, and what the rest of the body leaves of the
graph that it became. The nodes of a finished piece keep their code and their edges; only where a
handler of an enclosing block starts is an edge added. -/

namespace ActorOwnership.Lowering
open Surface State
set_option autoImplicit false

/-! ### Pieces of a graph -/

/-- From `t` to `u` a node keeps its code, and it is not the current one in the end. -/
structure Still (t u : State) (n : Int) : Prop where
  code : u.code n = t.code n
  exits : n ∈ u.exits ↔ n ∈ t.exits
  current : u.current ≠ some n

/-- The piece of the graph that was made from `s` to `t` is still there in `u`. New edges lead
neither into it nor away from it, except from the current node of `t`, which is open, and from the
nodes of `F`. -/
structure Spares (F : Int → Prop) (s t u : State) : Prop where
  start : Good s
  good : Good u
  made : s.size ≤ t.size
  ends : ∀ n, t.current = some n → Region s t n
  size : t.size ≤ u.size
  still : ∀ n, Region s t n → t.current ≠ some n → Still t u n
  succs : ∀ n m, Region s t n → t.current ≠ some n → m ∈ u.succs n →
    m ∈ t.succs n ∨ F n ∧ t.size ≤ m
  kept : ∀ n m, m ∈ t.succs n → m ∈ u.succs n
  opened : ∀ n, t.current = some n → t.code n <+: u.code n
  into : ∀ n m, s.size ≤ m → m < t.size → m ∈ u.succs n → m ∈ t.succs n

namespace Spares
variable {F F' T : Int → Prop} {s s' t u v : State} {n : Int}

theorem of_made (hs : Good s) (ht : Good t) (hmade : s.size ≤ t.size)
    (hends : ∀ n, t.current = some n → Region s t n) : Spares F s t t where
  start := hs
  good := ht
  made := hmade
  ends := hends
  size := Int.le_refl _
  still := fun _ _ hcurrent => ⟨rfl, Iff.rfl, hcurrent⟩
  succs := fun _ _ _ _ hm => Or.inl hm
  kept := fun _ _ hm => hm
  opened := fun _ _ => List.prefix_rfl
  into := fun _ _ _ _ hm => hm

theorem refl (hs : Good s) (h : Grows s t) : Spares F s t t :=
  of_made hs h.good h.size fun _ hn => h.region_current hn

theorem lt (h : Spares F s t u) (hn : Region s t n) : n < u.size :=
  Int.lt_of_lt_of_le (hn.lt h.start h.made) h.size

theorem mono (h : Spares F s t u) (hF : ∀ n, F n → F' n) : Spares F' s t u := by
  refine { h with succs := ?_ }
  intro n m hn hcurrent hm
  exact (h.succs n m hn hcurrent hm).imp_right fun ⟨hn, hm⟩ => ⟨hF n hn, hm⟩

/-- More code, whose edges do not lead into the piece. -/
theorem extend (h : Spares F s t u) (h' : Extends T u v)
    (hT : ∀ m, T m → m < s.size ∨ t.size ≤ m) : Spares F s t v := by
  have hsize := h.size
  have hfixed : ∀ n, Region s t n → t.current ≠ some n → Fixed u v n :=
    fun n hn hcurrent => h'.fixed n (h.lt hn) (h.still n hn hcurrent).current
  refine ⟨h.start, h'.good, h.made, h.ends, Int.le_trans h.size h'.size, ?_, ?_, ?_, ?_, ?_⟩
  · intro n hn hcurrent
    have hstill := h.still n hn hcurrent
    obtain ⟨hcode, _, hexits, hcurrent'⟩ := hfixed n hn hcurrent
    exact ⟨hcode.trans hstill.code, hexits.trans hstill.exits, hcurrent'⟩
  · intro n m hn hcurrent hm
    rw [(hfixed n hn hcurrent).succs] at hm
    exact h.succs n m hn hcurrent hm
  · intro n m hm
    exact h'.toGrows.mem_succs h.good (h.kept n m hm)
  · intro n hn
    by_cases hcurrent : u.current = some n
    · exact (h.opened n hn).trans (h'.code n hcurrent)
    · have hlt := h.lt (h.ends n hn)
      rw [(h'.fixed n hlt hcurrent).code]
      exact h.opened n hn
  · intro n m hle hlt hm
    rcases h'.edges n m hm with hm | hm | hm
    · exact h.into n m hle hlt hm
    · have := hT m hm
      omega
    · omega

theorem moveTo {next : Int} (h : Spares F s t u) (hnext : Untouched u next)
    (hregion : ¬ Region s t next) : Spares F s t (u.moveTo next) := by
  have hgood : Good (u.moveTo next) := by
    refine ⟨⟨h.good.nodes, h.good.nonneg, h.good.exits⟩, ?_⟩
    intro c hc
    obtain rfl : next = c := Option.some.inj hc
    exact ⟨hnext.nonneg, hnext.lt, hnext.succs, hnext.exits⟩
  refine { h with good := hgood, still := ?_ }
  intro n hn hcurrent
  have hstill := h.still n hn hcurrent
  refine ⟨hstill.code, hstill.exits, ?_⟩
  intro heq
  obtain rfl : next = n := Option.some.inj heq
  exact hregion hn

/-- The path goes on to a node outside the piece, and another one is current from now on. -/
theorem jump {target next : Int} (h : Spares F s t u) (htarget : u.proc.hasNode target = true)
    (hout : target < s.size ∨ t.size ≤ target) (hnext : Untouched u next)
    (hregion : ¬ Region s t next) : Spares F s t (u.jump target next) := by
  have hjump : Extends (Eq target) u (u.jump target next).stop :=
    (Extends.refl h.good).stop_jump htarget (Or.inl rfl) h.good next
  have hstop := h.extend hjump fun m hm => hm ▸ hout
  exact hstop.moveTo (hnext.stop_jump h.good htarget) hregion

/-- An edge from a node of `F`, or from outside the piece, to a node made after the piece. -/
theorem connect {source : Option Int} {target : Int} (h : Spares F s t u)
    (hstopped : u.current = none)
    (hsource : ∀ c, source = some c → u.proc.hasNode c = true ∧
      (Region s t c → t.current ≠ some c → F c))
    (htarget : u.proc.hasNode target = true) (hnew : t.size ≤ target) :
    Spares F s t (u.connect source target) := by
  have hsuccs : ∀ n m, m ∈ (u.connect source target).succs n ↔
      m ∈ u.succs n ∨ source = some n ∧ m = target :=
    fun n m => mem_succs_connect (fun c hc => (hsource c hc).1) htarget
  have hgood : Good (u.connect source target) := by
    refine ⟨h.good.of_same (hasNode_connectFrom u source target) (size_connectFrom u source target)
      (exits_connect u source target), ?_⟩
    intro c hc
    rw [current_connect, hstopped] at hc
    cases hc
  refine ⟨h.start, hgood, h.made, h.ends, ?_, ?_, ?_, ?_, ?_, ?_⟩
  · rw [size_connectFrom]
    exact h.size
  · intro n hn hcurrent
    have hstill := h.still n hn hcurrent
    refine ⟨(code_connect u source target n).trans hstill.code, ?_, ?_⟩
    · rw [exits_connect]
      exact hstill.exits
    · rw [current_connect]
      exact hstill.current
  · intro n m hn hcurrent hm
    rcases (hsuccs n m).mp hm with hm | ⟨hc, rfl⟩
    · exact h.succs n m hn hcurrent hm
    · exact Or.inr ⟨(hsource n hc).2 hn hcurrent, hnew⟩
  · intro n m hm
    exact (hsuccs n m).mpr (Or.inl (h.kept n m hm))
  · intro n hn
    rw [code_connect]
    exact h.opened n hn
  · intro n m hle hlt hm
    rcases (hsuccs n m).mp hm with hm | ⟨_, rfl⟩
    · exact h.into n m hle hlt hm
    · omega

/-- A piece of a piece. -/
theorem trans (h : Spares F s t u) (h' : Spares F' s' u v) (hsize : s'.size ≤ s.size)
    (hregion : ∀ n, Region s t n → Region s' u n) : Spares (fun n => F n ∨ F' n) s t v := by
  have hle := h.size
  refine ⟨h.start, h'.good, h.made, h.ends, Int.le_trans hle h'.size, ?_, ?_, ?_, ?_, ?_⟩
  · intro n hn hcurrent
    have hstill := h.still n hn hcurrent
    have hstill' := h'.still n (hregion n hn) hstill.current
    exact ⟨hstill'.code.trans hstill.code, hstill'.exits.trans hstill.exits, hstill'.current⟩
  · intro n m hn hcurrent hm
    rcases h'.succs n m (hregion n hn) (h.still n hn hcurrent).current hm with hm | ⟨hF, hm⟩
    · exact (h.succs n m hn hcurrent hm).imp_right fun ⟨hF, hm⟩ => ⟨Or.inl hF, hm⟩
    · exact Or.inr ⟨Or.inr hF, Int.le_trans hle hm⟩
  · intro n m hm
    exact h'.kept n m (h.kept n m hm)
  · intro n hn
    by_cases hcurrent : u.current = some n
    · exact (h.opened n hn).trans (h'.opened n hcurrent)
    · rw [(h'.still n (hregion n (h.ends n hn)) hcurrent).code]
      exact h.opened n hn
  · intro n m hlower hupper hm
    exact h.into n m hlower hupper (h'.into n m (by omega) (by omega) hm)

/-- The end of a piece. -/
theorem tail (h : Spares F s t u) (hs' : Good s') (hgrows : Grows s' t) (hsize : s.size ≤ s'.size)
    (hregion : ∀ n, Region s' t n → Region s t n) : Spares F s' t u where
  start := hs'
  good := h.good
  made := hgrows.size
  ends := fun _ hn => hgrows.region_current hn
  size := h.size
  still := fun n hn => h.still n (hregion n hn)
  succs := fun n m hn => h.succs n m (hregion n hn)
  kept := h.kept
  opened := h.opened
  into := fun n m hle => h.into n m (Int.le_trans hsize hle)

theorem within {loop : Option Loop} (h : Spares F s t u) (hloop : Within loop s) :
    Within loop u := by
  have hnode : ∀ n, s.proc.hasNode n = true → u.proc.hasNode n = true := by
    intro n hn
    have hlt := (h.start.nodes n).mp hn
    have hmade := h.made
    have hsize := h.size
    exact (h.good.nodes n).mpr (by omega)
  exact fun l hl => ⟨hnode _ (hloop l hl).1, hnode _ (hloop l hl).2⟩

end Spares

/-! ### The blocks of a statement -/

/-- Where a statement is lowered: in which loop, and from which state. -/
structure Spot where
  loop : Option Loop
  state : State

/-- The node from which the handlers of a guarded block start, if there are any. -/
def handlerStarts {α : Type} (handlers : List α) (s : State) : List Int :=
  if handlers.isEmpty then [] else s.current.toList

theorem lt_of_mem_handlerStarts {α : Type} {handlers : List α} {s : State} {n : Int} (hs : Good s)
    (hn : n ∈ handlerStarts handlers s) : n < s.size := by
  unfold handlerStarts at hn
  split at hn
  · cases hn
  · exact (hs.current n (by simpa using hn)).2.1

/-- `Part catalog a stmt starts b block`: the block is a part of the statement, and `b` is where it
is lowered when the statement is lowered at `a`. An edge to a handler is drawn from `starts` after
the block. -/
inductive Part (catalog : Catalog) : Spot → Stmt → List Int → Spot → List Stmt → Prop where
  | clause {loop : Option Loop} {s : State} {condition : Exp} {loc : Location} {body : List Stmt}
      (before after : List Clause) (orElse : List Stmt) :
      Part catalog ⟨loop, s⟩ (.branch (before ++ .mk condition loc body :: after) orElse) []
        ⟨loop, (lowerClauses catalog loop s.size before (s.newNode .join).2).openClause loc
          condition⟩ body
  | otherwise {loop : Option Loop} {s : State} (clauses : List Clause) (orElse : List Stmt) :
      Part catalog ⟨loop, s⟩ (.branch clauses orElse) []
        ⟨loop, lowerClauses catalog loop s.size clauses (s.newNode .join).2⟩ orElse
  | while_ {loop : Option Loop} {s : State} (loc : Location) (condition : Exp) (body : List Stmt) :
      Part catalog ⟨loop, s⟩ (.while_ loc condition body) []
        ⟨some ⟨s.size, s.size + 2⟩, s.openBody loc condition (.whileTrue, .whileFalse)⟩ body
  | for_ {loop : Option Loop} {s : State} (loc : Location) (targets : List Target) (iterable : Exp)
      (body : List Stmt) :
      Part catalog ⟨loop, s⟩ (.for_ loc targets iterable body) []
        ⟨some ⟨s.size, s.size + 2⟩, takeNext loc targets iterable
          (s.openBody loc (.const (.bool true)) (.forEnter, .forExit))⟩ body
  | with_ {loop : Option Loop} {s : State} (loc : Location) (items : List WithItem)
      (body : List Stmt) :
      Part catalog ⟨loop, s⟩ (.with_ loc items body) [] ⟨loop, enterAll catalog loc items s⟩ body
  | guarded {loop : Option Loop} {s : State} (body orElse : List Stmt)
      (handlers : List (List Stmt)) (final : List Stmt) :
      Part catalog ⟨loop, s⟩ (.try_ body orElse handlers final) (handlerStarts handlers s)
        ⟨loop, s⟩ body
  | orElse {loop : Option Loop} {s : State} (body orElse : List Stmt)
      (handlers : List (List Stmt)) (final : List Stmt) :
      Part catalog ⟨loop, s⟩ (.try_ body orElse handlers final) (handlerStarts handlers s)
        ⟨loop, lowerBlock catalog loop body s⟩ orElse
  | handler {loop : Option Loop} {s : State} {handler : List Stmt} (body orElse : List Stmt)
      (before after : List (List Stmt)) (final : List Stmt) :
      Part catalog ⟨loop, s⟩ (.try_ body orElse (before ++ handler :: after) final) []
        ⟨loop, enterHandler s.current (protect catalog loop body orElse s).current
          (handled catalog loop body orElse before s)⟩ handler
  | final {loop : Option Loop} {s : State} (body orElse : List Stmt)
      (handlers : List (List Stmt)) (final : List Stmt) :
      Part catalog ⟨loop, s⟩ (.try_ body orElse handlers final) []
        ⟨loop, guarded catalog loop body orElse handlers s⟩ final

/-- `Occurs catalog a block starts b stmt`: the statement stands in the block, at any depth, and `b`
is where it is lowered when the block is lowered at `a`. Handlers of the guarded blocks around it
start from `starts`. -/
inductive Occurs (catalog : Catalog) : Spot → List Stmt → List Int → Spot → Stmt → Prop where
  | here {loop : Option Loop} {s : State} {stmt : Stmt} (before after : List Stmt) :
      Occurs catalog ⟨loop, s⟩ (before ++ stmt :: after) []
        ⟨loop, lowerBlock catalog loop before s⟩ stmt
  | inside {loop : Option Loop} {s : State} {outer stmt : Stmt} {starts starts' : List Int}
      {a b : Spot} {block : List Stmt} (before after : List Stmt) :
      Part catalog ⟨loop, lowerBlock catalog loop before s⟩ outer starts a block →
      Occurs catalog a block starts' b stmt →
        Occurs catalog ⟨loop, s⟩ (before ++ outer :: after) (starts' ++ starts) b stmt

/-- Edges lead to nodes of the graph. -/
def Linked (s : State) : Prop := ∀ n m, m ∈ s.succs n → m < s.size

theorem Linked.of_extends {T : Int → Prop} {s t : State} (hlinked : Linked s) (h : Extends T s t)
    (hT : ∀ m, T m → m < s.size) : Linked t := by
  intro n m hm
  rcases h.edges n m hm with hm | hm | hm
  · exact Int.lt_of_lt_of_le (hlinked n m hm) h.size
  · exact Int.lt_of_lt_of_le (hT m hm) h.size
  · exact hm.2

/-- The piece from `s'` to `t'` was made on the way from `s` to `t`. -/
structure Inside (F : Int → Prop) (s t : State) (loop : Option Loop) (s' t' : State) : Prop where
  within : Within loop s'
  spares : Spares F s' t' t
  size : s.size ≤ s'.size
  current : ∀ c, s'.current = some c → s.current = some c ∨ s.size ≤ c
  old : ∀ n, F n → n < s'.size
  linked : Linked s → Linked s'

section Inside
variable {F F' : Int → Prop} {s t u s' t' : State} {loop : Option Loop} {n : Int}

theorem Inside.good (h : Inside F s t loop s' t') : Good s' := h.spares.start

theorem Inside.region (h : Inside F s t loop s' t') (hn : Region s' t' n) : Region s t n := by
  have hlt := h.spares.lt hn
  have hsize := h.size
  rcases hn with hc | ⟨hle, _⟩
  · exact (h.current n hc).imp_right fun hle => ⟨hle, hlt⟩
  · exact Or.inr ⟨by omega, hlt⟩

theorem Inside.congr (h : Inside F s t loop s' t') (hF : ∀ n, F n ↔ F' n) :
    Inside F' s t loop s' t' := by
  obtain rfl : F = F' := funext fun n => propext (hF n)
  exact h

/-- A piece whose code starts where the growth from `s` had come to. -/
theorem inside_of_extends {T : Int → Prop} (h : Extends T s s') (hT : ∀ m, T m → m < s.size)
    (hwithin : Within loop s') (hspares : Spares F s' t' t) (hold : ∀ n, F n → n < s'.size) :
    Inside F s t loop s' t' where
  within := hwithin
  spares := hspares
  size := h.size
  current := fun _ hc => (h.toGrows.region_current hc).imp_right And.left
  old := hold
  linked := fun hlinked => hlinked.of_extends h hT

end Inside

section Parts
variable {catalog : Catalog} {loop : Option Loop} {s t : State}

theorem lowerBlock_append (before after : List Stmt) (s : State) :
    lowerBlock catalog loop (before ++ after) s =
      lowerBlock catalog loop after (lowerBlock catalog loop before s) := by
  induction before generalizing s with
  | nil => rw [List.nil_append, lowerBlock]
  | cons stmt before ih => rw [List.cons_append, lowerBlock, ih, lowerBlock]

theorem lowerClauses_append (join : Int) (before after : List Clause) (s : State) :
    lowerClauses catalog loop join (before ++ after) s =
      lowerClauses catalog loop join after (lowerClauses catalog loop join before s) := by
  induction before generalizing s with
  | nil => rw [List.nil_append, lowerClauses]
  | cons clause before ih =>
    obtain ⟨condition, loc, body⟩ := clause
    rw [List.cons_append, lowerClauses_cons, ih, lowerClauses_cons]

namespace Spares
variable {F : Int → Prop} {u w : State} {join : Int}

/-- The loop around a piece was there before the piece. -/
theorem block (h : Spares F s t u) (hloop : Within loop s) (block : List Stmt) :
    Spares F s t (lowerBlock catalog loop block u) :=
  h.extend (extends_lowerBlock catalog block loop h.good (h.within hloop))
    fun _ hm => Or.inl (hloop.lt h.start hm)

/-- The rest of a branch after one of its blocks. -/
theorem branch (h : Spares F s t u) (hloop : Within loop s) (hjoin : Untouched u join)
    (hlt : join < s.size) (hcurrent : s.current ≠ some join) (clauses : List Clause)
    (orElse : List Stmt) :
    Spares F s t ((lowerBlock catalog loop orElse (lowerClauses catalog loop join clauses u)).jump
      join join) := by
  have hclauses := extends_lowerClauses catalog clauses loop h.good (h.within hloop) hjoin
  have hafter : Spares F s t (lowerClauses catalog loop join clauses u) := by
    apply h.extend hclauses
    rintro m (rfl | hm)
    · exact Or.inl hlt
    · exact Or.inl (hloop.lt h.start hm)
  have helse := extends_lowerBlock catalog orElse loop hafter.good (hafter.within hloop)
  have hjoin' := helse.toGrows.untouched (hclauses.toGrows.untouched hjoin)
  apply (hafter.block hloop orElse).jump (hjoin'.hasNode helse.good) (Or.inl hlt) hjoin'
  rintro (hc | ⟨hle, _⟩)
  · exact hcurrent hc
  · omega

/-- A handler after the piece. The edges to it come from nodes of `F` or from outside. -/
theorem enterHandler {before bodyEnd : Option Int} {s₀ : State} {T : Int → Prop}
    (h : Spares F s t w) (hw : Handling T s₀ before bodyEnd join w)
    (hbefore : ∀ c, before = some c → Region s t c → t.current ≠ some c → F c)
    (hend : ∀ c, bodyEnd = some c → Region s t c → t.current ≠ some c → F c) :
    Spares F s t (enterHandler before bodyEnd w) := by
  have hnew : Extends (fun _ => False) w (w.newNode .exception).2 := extends_newNode .exception h.good
  have hstart := untouched_newNode .exception h.good
  have hnode := hstart.hasNode hnew.good
  have hold : ∀ n, w.proc.hasNode n = true → (w.newNode .exception).2.proc.hasNode n = true :=
    fun n hn => hnew.toGrows.hasNode h.good hn
  have hfirst : Spares F s t ((w.newNode .exception).2.connect before w.size) :=
    (h.extend hnew nofun).connect hw.stopped
      (fun c hc => ⟨hold c (hw.reopens.1 c hc).1, hbefore c hc⟩) hnode h.size
  have hstart' : Untouched ((w.newNode .exception).2.connect before w.size) w.size :=
    hstart.connect (hw.reopens.1.ne_size h.good)
  have hsecond : Spares F s t
      (((w.newNode .exception).2.connect before w.size).connect bodyEnd w.size) := by
    refine hfirst.connect ((current_connect _ _ _).trans hw.stopped) ?_
      (hstart'.hasNode hfirst.good) h.size
    intro c hc
    exact ⟨(hasNode_connectFrom _ _ _ c).trans (hold c (hw.reopens.2 c hc).1), hend c hc⟩
  refine hsecond.moveTo (hstart'.connect (hw.reopens.2.ne_size h.good)) ?_
  intro hn
  have hlt := h.lt hn
  omega

/-- The handlers after the piece. -/
theorem handlers {before bodyEnd : Option Int} {s₀ : State} (hs₀ : Good s₀) (hloop₀ : Within loop s₀)
    (hloop : Within loop s) (hjoin : join < s.size ∨ t.size ≤ join)
    (hbefore : ∀ c, before = some c → Region s t c → t.current ≠ some c → F c)
    (hend : ∀ c, bodyEnd = some c → Region s t c → t.current ≠ some c → F c)
    (handlers : List (List Stmt)) (h : Spares F s t w)
    (hw : Handling (loopTargets loop) s₀ before bodyEnd join w) :
    Spares F s t (handlers.foldl (lowerHandler catalog loop before bodyEnd join) w) := by
  induction handlers generalizing w with
  | nil => exact h
  | cons handler handlers ih =>
    have henter := hw.extends_enterHandler hs₀
    have hblock := extends_lowerBlock catalog handler loop henter.good
      (hloop₀.grows hs₀ henter.toGrows)
    have hjoin' := hblock.toGrows.untouched hw.untouched_enterHandler
    have hspares : Spares F s t (lowerBlock catalog loop handler
        (Lowering.enterHandler before bodyEnd w)) :=
      (h.enterHandler hw hbefore hend).block hloop handler
    have hjump : Extends (Eq join) _ ((lowerBlock catalog loop handler
        (Lowering.enterHandler before bodyEnd w)).jump join join).stop :=
      (Extends.refl hblock.good).stop_jump (hjoin'.hasNode hblock.good) (Or.inl rfl) hblock.good _
    exact ih (hspares.extend hjump fun m hm => hm ▸ hjoin) (hw.next hs₀ hblock)

end Spares

/-- A handler together with its start, seen from after the handlers before it. -/
theorem Handling.spares {before bodyEnd : Option Int} {join : Int} {s w : State} (hs : Good s)
    (hloop : Within loop s) (hw : Handling (loopTargets loop) s before bodyEnd join w)
    (handler : List Stmt) (handlers : List (List Stmt)) :
    Spares (fun _ => False) w (lowerBlock catalog loop handler (enterHandler before bodyEnd w))
      ((handler :: handlers).foldl (lowerHandler catalog loop before bodyEnd join) w) := by
  have henter := hw.extends_enterHandler hs
  have hblock := extends_lowerBlock catalog handler loop henter.good
    (hloop.grows hs henter.toGrows)
  have hsize := size_enterHandler before bodyEnd w
  have hmade := hblock.size
  have hpiece : Spares (fun _ => False) w
      (lowerBlock catalog loop handler (enterHandler before bodyEnd w))
      (lowerBlock catalog loop handler (enterHandler before bodyEnd w)) := by
    refine Spares.of_made hw.grown.good hblock.good (by omega) ?_
    intro n hn
    have hlt := (hblock.good.current n hn).2.1
    rcases hblock.toGrows.region_current hn with hc | ⟨hle, _⟩
    · obtain rfl := Option.some.inj hc
      exact Or.inr ⟨Int.le_refl _, hlt⟩
    · exact Or.inr ⟨by omega, hlt⟩
  have hjoin := hblock.toGrows.untouched hw.untouched_enterHandler
  have hjump : Extends (Eq join) _ ((lowerBlock catalog loop handler
      (enterHandler before bodyEnd w)).jump join join).stop :=
    (Extends.refl hblock.good).stop_jump (hjoin.hasNode hblock.good) (Or.inl rfl) hblock.good _
  -- the sources of edges to handlers are older than the handler
  have hold : ∀ {source : Option Int}, Reopens s w source → ∀ c, source = some c →
      Region w (lowerBlock catalog loop handler (enterHandler before bodyEnd w)) c →
      (lowerBlock catalog loop handler (enterHandler before bodyEnd w)).current ≠ some c → False := by
    rintro source hsource c hc (hcurrent | ⟨hle, _⟩) _
    · rw [hw.stopped] at hcurrent
      cases hcurrent
    · have hlt := ((hw.grown.good.nodes c).mp (hsource c hc).1).2
      omega
  exact Spares.handlers hs hloop (hloop.grows hs hw.grown.toGrows) (Or.inl hw.meets.lt)
    (hold hw.reopens.1) (hold hw.reopens.2) handlers
    (hpiece.extend hjump fun m hm => Or.inl (hm ▸ hw.meets.lt)) (hw.next hs hblock)

section
variable (hs : Good s) (hloop : Within loop s)
include hs hloop

/-- The clauses before a block of a branch. -/
theorem extends_clauses (catalog : Catalog) (clauses : List Clause) :
    Extends (loopTargets loop) s (lowerClauses catalog loop s.size clauses (s.newNode .join).2) ∧
      Untouched (lowerClauses catalog loop s.size clauses (s.newNode .join).2) s.size := by
  have hnew : Extends (loopTargets loop) s (s.newNode .join).2 := extends_newNode .join hs
  have hjoin := untouched_newNode .join hs
  have hclauses := extends_lowerClauses catalog clauses loop hnew.good (hloop.grows hs hnew.toGrows)
    hjoin
  exact ⟨hnew.under hs hclauses (targets_new hjoin hclauses.toGrows (Int.le_refl _)),
    hclauses.toGrows.untouched hjoin⟩

theorem inside_clause {condition : Exp} {loc : Location} {body : List Stmt}
    (before after : List Clause) (orElse : List Stmt) :
    Inside (fun _ => False) s (lowerStmt catalog loop
        (.branch (before ++ .mk condition loc body :: after) orElse) s) loop
      ((lowerClauses catalog loop s.size before (s.newNode .join).2).openClause loc condition)
      (lowerBlock catalog loop body
        ((lowerClauses catalog loop s.size before (s.newNode .join).2).openClause loc condition)) := by
  obtain ⟨hbefore, hjoin⟩ := extends_clauses hs hloop catalog before
  have hopen := grows_openClause hbefore.good loc condition
  have hextends := hbefore.trans hs (extends_openClause hbefore.good loc condition)
  have hwithin := hloop.grows hs hextends.toGrows
  have hbody := (extends_lowerBlock catalog body loop hopen.good hwithin).toGrows
  have hother := untouched_openClause hbefore.good loc condition
  have hlt := hjoin.lt
  have hlt' := hother.lt
  have hjoinEnd := hbody.untouched (hopen.untouched hjoin)
  refine inside_of_extends hextends (fun m => hloop.lt hs) hwithin ?_ nofun
  rw [lowerStmt_branch, lowerClauses_append, lowerClauses_cons]
  apply Spares.branch _ hwithin _ (Int.lt_of_lt_of_le hlt hopen.size) (hopen.untouched hjoin).current
  · exact (Spares.refl hopen.good hbody).jump (hjoinEnd.hasNode hbody.good)
      (Or.inl (Int.lt_of_lt_of_le hlt hopen.size)) (hbody.untouched hother) hother.not_region
  · exact hjoinEnd.jump hbody.good (hjoinEnd.hasNode hbody.good) (by omega)

theorem inside_otherwise (clauses : List Clause) (orElse : List Stmt) :
    Inside (fun _ => False) s (lowerStmt catalog loop (.branch clauses orElse) s) loop
      (lowerClauses catalog loop s.size clauses (s.newNode .join).2)
      (lowerBlock catalog loop orElse
        (lowerClauses catalog loop s.size clauses (s.newNode .join).2)) := by
  obtain ⟨hextends, hjoin⟩ := extends_clauses hs hloop catalog clauses
  have hwithin := hloop.grows hs hextends.toGrows
  have helse := (extends_lowerBlock catalog orElse loop hextends.good hwithin).toGrows
  have hjoinEnd := helse.untouched hjoin
  refine inside_of_extends hextends (fun m => hloop.lt hs) hwithin ?_ nofun
  rw [lowerStmt_branch]
  exact (Spares.refl hextends.good helse).jump (hjoinEnd.hasNode helse.good) (Or.inl hjoin.lt) hjoinEnd
    hjoin.not_region

omit hs hloop in
/-- The body of a loop, from a state `s'` in which the body is current. -/
theorem inside_loop {s' : State} (hextends : Extends (fun _ => False) s s')
    (hwithin : Within (some ⟨s.size, s.size + 2⟩) s') (hafter : Untouched s' (s.size + 2))
    (body : List Stmt) :
    Inside (fun _ => False) s ((lowerBlock catalog (some ⟨s.size, s.size + 2⟩) body s').jump s.size
        (s.size + 2)) (some ⟨s.size, s.size + 2⟩) s'
      (lowerBlock catalog (some ⟨s.size, s.size + 2⟩) body s') := by
  have hbody := (extends_lowerBlock catalog body _ hextends.good hwithin).toGrows
  have hlt := hafter.lt
  refine inside_of_extends hextends nofun hwithin ?_ nofun
  exact (Spares.refl hextends.good hbody).jump
    (hbody.hasNode hextends.good (hwithin _ rfl).1) (Or.inl (by omega)) (hbody.untouched hafter)
    hafter.not_region

end

end Parts

/-! ### Guarded blocks -/

section Guarded
variable (catalog : Catalog) {loop : Option Loop} {s : State} (hs : Good s) (hloop : Within loop s)
  (body orElse : List Stmt)
include hs hloop

theorem extends_protect :
    Extends (loopTargets loop) s (protect catalog loop body orElse s) := by
  have hbody := extends_lowerBlock catalog body loop hs hloop
  exact hbody.trans hs
    (extends_lowerBlock catalog orElse loop hbody.good (hloop.grows hs hbody.toGrows))

theorem handling_handled (handlers : List (List Stmt)) :
    Handling (loopTargets loop) s s.current (protect catalog loop body orElse s).current
      (protect catalog loop body orElse s).size (handled catalog loop body orElse handlers s) :=
  handling_lowerHandlers catalog handlers loop hs hloop
    (handling_openJoin hs (extends_protect catalog hs hloop body orElse))

theorem extends_guarded (handlers : List (List Stmt)) :
    Extends (loopTargets loop) s (guarded catalog loop body orElse handlers s) := by
  have hhandled := handling_handled catalog hs hloop body orElse handlers
  unfold guarded
  split
  · exact extends_protect catalog hs hloop body orElse
  · exact hhandled.grown.moveTo hhandled.meets hhandled.new

/-- The handlers and the final block after a piece that has been made before them. -/
theorem Spares.handle {F : Int → Prop} {s' t' : State} {handlers : List (List Stmt)}
    (h : Spares F s' t' (openJoin (protect catalog loop body orElse s)))
    (hsize : t'.size ≤ (protect catalog loop body orElse s).size) (hloop' : Within loop s')
    (hne : ¬ handlers.isEmpty = true) (final : List Stmt)
    (hbefore : ∀ c, s.current = some c → Region s' t' c → t'.current ≠ some c → F c)
    (hend : ∀ c, (protect catalog loop body orElse s).current = some c → Region s' t' c →
      t'.current ≠ some c → F c) :
    Spares F s' t' (lowerStmt catalog loop (.try_ body orElse handlers final) s) := by
  have hspares : Spares F s' t' (handled catalog loop body orElse handlers s) :=
    Spares.handlers hs hloop hloop' (Or.inr hsize) hbefore hend handlers h
      (handling_openJoin hs (extends_protect catalog hs hloop body orElse))
  rw [lowerStmt_try, guarded, if_neg hne]
  refine Spares.block ?_ hloop' final
  refine hspares.moveTo (handling_handled catalog hs hloop body orElse handlers).meets ?_
  intro hn
  have hlt := hn.lt h.start h.made
  omega

/-- The same for a piece of the guarded statements, with or without handlers. -/
theorem Spares.guard {F : Int → Prop} {s' t' : State}
    (h : Spares F s' t' (protect catalog loop body orElse s)) (hloop' : Within loop s')
    (handlers : List (List Stmt)) (final : List Stmt)
    (hbefore : ∀ c, c ∈ handlerStarts handlers s → F c)
    (hend : ∀ c, (protect catalog loop body orElse s).current = some c → Region s' t' c →
      t'.current = some c) :
    Spares F s' t' (lowerStmt catalog loop (.try_ body orElse handlers final) s) := by
  by_cases hne : handlers.isEmpty = true
  · rw [lowerStmt_try, guarded, if_pos hne]
    exact h.block hloop' final
  · have hprotect := extends_protect catalog hs hloop body orElse
    have hopen : Extends (fun _ => False) _ (openJoin (protect catalog loop body orElse s)) :=
      extends_openJoin hprotect.good (.refl hprotect.good)
    apply Spares.handle catalog hs hloop body orElse (h.extend hopen fun _ hm => hm.elim) h.size
      hloop' hne final
    · intro c hc _ _
      apply hbefore
      rw [handlerStarts, if_neg hne, hc]
      exact List.mem_cons_self
    · intro c hc hregion hcurrent
      exact absurd (hend c hc hregion) hcurrent

theorem inside_guarded (handlers : List (List Stmt)) (final : List Stmt) :
    Inside (· ∈ handlerStarts handlers s) s
      (lowerStmt catalog loop (.try_ body orElse handlers final) s) loop s
      (lowerBlock catalog loop body s) := by
  have hbody := (extends_lowerBlock catalog body loop hs hloop).toGrows
  have helse := (extends_lowerBlock catalog orElse loop hbody.good (hloop.grows hs hbody)).toGrows
  refine inside_of_extends (T := fun _ => False) (.refl hs) nofun hloop ?_
    fun n => lt_of_mem_handlerStarts hs
  apply Spares.guard catalog hs hloop body orElse ((Spares.refl hs hbody).block hloop orElse) hloop
  · exact fun _ hc => hc
  · intro c hc hregion
    have hlt := hregion.lt hs hbody.size
    rcases helse.region_current hc with hc | ⟨hle, _⟩
    · exact hc
    · omega

theorem inside_orElse (handlers : List (List Stmt)) (final : List Stmt) :
    Inside (· ∈ handlerStarts handlers s) s
      (lowerStmt catalog loop (.try_ body orElse handlers final) s) loop
      (lowerBlock catalog loop body s)
      (lowerBlock catalog loop orElse (lowerBlock catalog loop body s)) := by
  have hbody := extends_lowerBlock catalog body loop hs hloop
  have hwithin := hloop.grows hs hbody.toGrows
  have helse := (extends_lowerBlock catalog orElse loop hbody.good hwithin).toGrows
  refine inside_of_extends hbody (fun m => hloop.lt hs) hwithin ?_ fun n hn =>
    Int.lt_of_lt_of_le (lt_of_mem_handlerStarts hs hn) hbody.size
  apply Spares.guard catalog hs hloop body orElse (Spares.refl hbody.good helse) hwithin
  · exact fun _ hc => hc
  · exact fun _ hc _ => hc

/-- A handler together with its start, in the whole statement. -/
theorem spares_handler {handler : List Stmt} (before after : List (List Stmt))
    (final : List Stmt) :
    Spares (fun _ => False) (handled catalog loop body orElse before s)
      (lowerBlock catalog loop handler (enterHandler s.current
        (protect catalog loop body orElse s).current (handled catalog loop body orElse before s)))
      (lowerStmt catalog loop (.try_ body orElse (before ++ handler :: after) final) s) := by
  have hw := handling_handled catalog hs hloop body orElse before
  have hall := handling_handled catalog hs hloop body orElse (before ++ handler :: after)
  have hspares : Spares (fun _ => False) (handled catalog loop body orElse before s)
      (lowerBlock catalog loop handler (enterHandler s.current
        (protect catalog loop body orElse s).current (handled catalog loop body orElse before s)))
      (handled catalog loop body orElse (before ++ handler :: after) s) := by
    have hfold : handled catalog loop body orElse (before ++ handler :: after) s =
        (handler :: after).foldl _ (handled catalog loop body orElse before s) := List.foldl_append
    rw [hfold]
    exact hw.spares hs hloop handler after
  have hne : (before ++ handler :: after).isEmpty = false := by simp
  rw [lowerStmt_try, guarded, hne]
  refine Spares.block ?_ (hloop.grows hs hw.grown.toGrows) final
  apply hspares.moveTo hall.meets
  rintro (hc | ⟨hle, _⟩)
  · rw [hw.stopped] at hc
    cases hc
  · have hlt := hw.meets.lt
    omega

theorem inside_handler {handler : List Stmt} (before after : List (List Stmt))
    (final : List Stmt) :
    Inside (fun _ => False) s
      (lowerStmt catalog loop (.try_ body orElse (before ++ handler :: after) final) s) loop
      (enterHandler s.current (protect catalog loop body orElse s).current
        (handled catalog loop body orElse before s))
      (lowerBlock catalog loop handler (enterHandler s.current
        (protect catalog loop body orElse s).current
        (handled catalog loop body orElse before s))) := by
  have hw := handling_handled catalog hs hloop body orElse before
  have henter := hw.extends_enterHandler hs
  have hwithin := hloop.grows hs henter.toGrows
  have hblock := (extends_lowerBlock catalog handler loop henter.good hwithin).toGrows
  have hsize := size_enterHandler s.current (protect catalog loop body orElse s).current
    (handled catalog loop body orElse before s)
  refine inside_of_extends henter (fun m => hloop.lt hs) hwithin ?_ nofun
  apply (spares_handler catalog hs hloop body orElse before after final).tail henter.good hblock
    (by omega)
  rintro n (hc | ⟨hle, hlt⟩)
  · obtain rfl := Option.some.inj hc
    have hlt := hblock.size
    exact Or.inr ⟨Int.le_refl _, by omega⟩
  · exact Or.inr ⟨by omega, hlt⟩

theorem inside_final (handlers : List (List Stmt)) (final : List Stmt) :
    Inside (fun _ => False) s (lowerStmt catalog loop (.try_ body orElse handlers final) s) loop
      (guarded catalog loop body orElse handlers s)
      (lowerBlock catalog loop final (guarded catalog loop body orElse handlers s)) := by
  have hguarded := extends_guarded catalog hs hloop body orElse handlers
  have hwithin := hloop.grows hs hguarded.toGrows
  have hfinal := (extends_lowerBlock catalog final loop hguarded.good hwithin).toGrows
  refine inside_of_extends hguarded (fun m => hloop.lt hs) hwithin ?_ nofun
  rw [lowerStmt_try]
  exact Spares.refl hguarded.good hfinal

end Guarded

/-! ### Occurrences -/

section Occurs
variable {catalog : Catalog} {a b : Spot} {stmt : Stmt} {starts : List Int} {block : List Stmt}

theorem Part.inside (h : Part catalog a stmt starts b block) (hs : Good a.state)
    (hloop : Within a.loop a.state) :
    Inside (· ∈ starts) a.state (lowerStmt catalog a.loop stmt a.state) b.loop b.state
      (lowerBlock catalog b.loop block b.state) := by
  have hnone : ∀ n : Int, False ↔ n ∈ ([] : List Int) := fun n => by simp
  cases h with
  | clause before after orElse => exact (inside_clause hs hloop before after orElse).congr hnone
  | otherwise clauses => exact (inside_otherwise hs hloop clauses block).congr hnone
  | while_ loc condition =>
    rw [lowerStmt_while]
    exact (inside_loop (extends_openBody hs loc condition _) (within_openBody hs loc condition _)
      (untouched_openBody hs loc condition _) block).congr hnone
  | for_ loc targets iterable =>
    have hopen := grows_openBody hs loc (.const (.bool true)) (.forEnter, .forExit)
    have htake : Extends (fun _ => False) _ _ :=
      extends_emits hopen.good (emits_takeNext loc targets iterable)
    rw [lowerStmt_for]
    exact (inside_loop ((extends_openBody hs loc _ _).trans hs htake)
      ((within_openBody hs loc _ _).grows hopen.good htake.toGrows)
      (htake.toGrows.untouched (untouched_openBody hs loc _ _)) block).congr hnone
  | with_ loc items =>
    have henter : Extends (fun _ => False) _ _ := extends_emits hs (emits_enterAll catalog loc items)
    have hwithin := hloop.grows hs henter.toGrows
    rw [lowerStmt_with]
    exact inside_of_extends henter nofun hwithin
      (Spares.refl henter.good (extends_lowerBlock catalog block _ henter.good hwithin).toGrows) nofun
  | guarded _ orElse handlers final =>
    exact inside_guarded catalog hs hloop block orElse handlers final
  | orElse body _ handlers final => exact inside_orElse catalog hs hloop body block handlers final
  | handler body orElse before after final =>
    exact (inside_handler catalog hs hloop body orElse before after final).congr hnone
  | final body orElse handlers =>
    exact (inside_final catalog hs hloop body orElse handlers block).congr hnone

/-- What comes before and after a statement in its block. -/
theorem inside_block {loop : Option Loop} {s : State} (hs : Good s) (hloop : Within loop s)
    (before after : List Stmt) (stmt : Stmt) :
    Inside (fun _ => False) s (lowerBlock catalog loop (before ++ stmt :: after) s) loop
      (lowerBlock catalog loop before s)
      (lowerStmt catalog loop stmt (lowerBlock catalog loop before s)) := by
  have hbefore := extends_lowerBlock catalog before loop hs hloop
  have hwithin := hloop.grows hs hbefore.toGrows
  have hstmt := (extends_lowerStmt catalog stmt loop hbefore.good hwithin).toGrows
  rw [lowerBlock_append, lowerBlock]
  exact inside_of_extends hbefore (fun m => hloop.lt hs) hwithin
    ((Spares.refl hbefore.good hstmt).block hwithin after) nofun

theorem Inside.trans {F F' : Int → Prop} {s t s' t' s'' t'' : State} {loop loop' : Option Loop}
    (h : Inside F s t loop s' t') (h' : Inside F' s' t' loop' s'' t'') :
    Inside (fun n => F' n ∨ F n) s t loop' s'' t'' := by
  have hsize := h.size
  refine ⟨h'.within, h'.spares.trans h.spares h'.size fun n hn => h'.region hn,
    Int.le_trans hsize h'.size, ?_, ?_, fun hlinked => h'.linked (h.linked hlinked)⟩
  · intro c hc
    rcases h'.current c hc with hc | hle
    · exact h.current c hc
    · exact Or.inr (by omega)
  · rintro n (hn | hn)
    · exact h'.old n hn
    · exact Int.lt_of_lt_of_le (h.old n hn) h'.size

/-- A statement at any depth: the rest of the block leaves the graph that it became as it is, up to
edges to the handlers around it. -/
theorem Occurs.inside_lowerBlock (h : Occurs catalog a block starts b stmt) (hs : Good a.state)
    (hloop : Within a.loop a.state) :
    Inside (· ∈ starts) a.state (lowerBlock catalog a.loop block a.state) b.loop b.state
      (lowerStmt catalog b.loop stmt b.state) := by
  induction h with
  | @here loop s stmt before after =>
    exact (inside_block hs hloop before after stmt).congr fun n => by simp
  | @inside loop s outer stmt starts starts' a b block before after hpart _ ih =>
    have hblock : Inside (fun _ => False) s
        (lowerBlock catalog loop (before ++ outer :: after) s) _ _ _ :=
      inside_block hs hloop before after outer
    have houter := hpart.inside hblock.good hblock.within
    have hinner := ih houter.good houter.within
    apply ((hblock.trans houter).trans hinner).congr
    intro n
    simp

end Occurs

/-! ### Finished graphs -/

namespace Spares
variable {F : Int → Prop} {s t u : State} {n m : Int}

theorem code_closed (h : Spares F s t u) (hn : Region s t n) (hcurrent : t.current ≠ some n) :
    (closed u).proc.instrsAt n = t.code n :=
  (Lowering.code_closed h.good n).trans (h.still n hn hcurrent).code

theorem prefix_closed (h : Spares F s t u) (hn : Region s t n) :
    t.code n <+: (closed u).proc.instrsAt n := by
  by_cases hcurrent : t.current = some n
  · rw [Lowering.code_closed h.good]
    exact h.opened n hcurrent
  · simp only [h.code_closed hn hcurrent, List.prefix_rfl]

theorem leadsTo_closed (h : Spares F s t u) (hn : Region s t n) (hcurrent : t.current ≠ some n)
    (hm : (closed u).proc.LeadsTo n m) :
    m ∈ t.succs n ∨ F n ∧ t.size ≤ m ∨ n ∈ t.exits ∧ m = u.size := by
  have hstill := h.still n hn hcurrent
  rcases (Lowering.leadsTo_closed h.good n m).mp hm with hm | ⟨hc | hx, rfl⟩
  · exact (h.succs n m hn hcurrent hm).imp_right Or.inl
  · exact absurd hc hstill.current
  · exact Or.inr (Or.inr ⟨hstill.exits.mp hx, rfl⟩)

theorem closed_leadsTo (h : Spares F s t u) (hm : m ∈ t.succs n) : (closed u).proc.LeadsTo n m :=
  (Lowering.leadsTo_closed h.good n m).mpr (Or.inl (h.kept n m hm))

theorem into_closed (h : Spares F s t u) (hle : s.size ≤ m) (hlt : m < t.size)
    (hm : (closed u).proc.LeadsTo n m) : m ∈ t.succs n := by
  rcases (Lowering.leadsTo_closed h.good n m).mp hm with hm | ⟨_, rfl⟩
  · exact h.into n m hle hlt hm
  · have hsize := h.size
    omega

end Spares

/-- The graph of a function with its entry only. -/
def entered (owner : Option String) (f : Function) (s : State) : State :=
  match f with
  | .mk name params loc isStatic _ => openFunction name owner params loc isStatic s

/-- The procedure that a function becomes. -/
def lowered (catalog : Catalog) (owner : Option String) (f : Function) (s : State) : Procedure :=
  (closed (lowerBlock catalog none f.body (entered owner f s))).proc

section Lowered
variable (catalog : Catalog) (owner : Option String) (f : Function) (s : State)

theorem succs_entered (n : Int) : (entered owner f s).succs n = [] := by
  obtain ⟨name, params, loc, isStatic, body⟩ := f
  have hnodes : (openFunction name owner params loc isStatic s).proc.nodes =
      [{ id := 0, kind := .entry }] := rfl
  by_cases hn : 0 = n
  · simp [entered, succs, Procedure.successors, Procedure.node?, hnodes, hn]
  · simp [entered, succs, Procedure.successors, Procedure.node?, hnodes, hn]

theorem linked_entered : Linked (entered owner f s) := by
  intro n m hm
  rw [succs_entered] at hm
  cases hm

theorem good_entered : Good (entered owner f s) := by
  obtain ⟨name, params, loc, isStatic, body⟩ := f
  exact good_openFunction name owner params loc isStatic s

theorem grows_entered :
    Grows (entered owner f s) (lowerBlock catalog none f.body (entered owner f s)) :=
  (extends_lowerBlock catalog f.body none (good_entered owner f s) nofun).toGrows

theorem header_lowered : ((lowered catalog owner f s).name, (lowered catalog owner f s).entry) =
    (qualifiedName owner f.name, 0) := by
  have hgrows := grows_entered catalog owner f s
  have hwired := wired_closed hgrows.good
  have hheader : (entered owner f s).header = (qualifiedName owner f.name, 0) := by
    obtain ⟨name, params, loc, isStatic, body⟩ := f
    exact header_openFunction name owner params loc isStatic s
  have hboth := hgrows.header.trans hheader
  rw [Prod.mk.injEq] at hboth ⊢
  exact ⟨hwired.name.trans hboth.1, hwired.entry.trans hboth.2⟩

theorem find?_lowerFunction :
    (lowerFunction catalog owner f s).program.find? (qualifiedName owner f.name) =
      some (lowered catalog owner f s) := by
  have hname : (lowered catalog owner f s).name = qualifiedName owner f.name :=
    congrArg Prod.fst (header_lowered catalog owner f s)
  rw [← hname]
  obtain ⟨name, params, loc, isStatic, body⟩ := f
  rw [lowerFunction, closeFunction_eq]
  exact find?_addProcedure _ _

end Lowered

end ActorOwnership.Lowering
