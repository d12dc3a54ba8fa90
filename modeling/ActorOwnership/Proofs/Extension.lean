import ActorOwnership.Proofs.Paths

/-! Every statement extends the graph: only the current node and new nodes change, and new edges lead
to new nodes or to the innermost loop. A guarded block draws edges from two nodes that it has left
before, the one where it starts and the one where it ends. -/

namespace ActorOwnership.Lowering
open Surface State
set_option autoImplicit false

namespace State

/-- The graph grows from `s` to `t`, and the edges that are new lead to new nodes or to `T`. -/
structure Extends (T : Int → Prop) (s t : State) : Prop extends Grows s t where
  edges : ∀ n m, m ∈ t.succs n → m ∈ s.succs n ∨ T m ∨ s.size ≤ m ∧ m < t.size

variable {T T' : Int → Prop} {s t u : State} {n : Int}

theorem grows_refl (hs : Good s) : Grows s s := grows_emitAll [] hs

theorem Extends.refl (hs : Good s) : Extends T s s := ⟨grows_refl hs, fun _ _ => Or.inl⟩

/-- What the second part may lead to is new since the start of the first one, or in `T`. -/
theorem Extends.under (hs : Good s) (h : Extends T s t) (h' : Extends T' t u)
    (hT : ∀ m, T' m → T m ∨ s.size ≤ m ∧ m < u.size) : Extends T s u := by
  have hsize := h.size
  have hsize' := h'.size
  refine ⟨h.toGrows.trans hs h'.toGrows, ?_⟩
  intro n m hm
  rcases h'.edges n m hm with hm | hm | hm
  · rcases h.edges n m hm with hm | hm | hm
    · exact Or.inl hm
    · exact Or.inr (Or.inl hm)
    · exact Or.inr (Or.inr (by omega))
  · exact Or.inr (hT m hm)
  · exact Or.inr (Or.inr (by omega))

theorem Extends.trans (hs : Good s) (h : Extends T s t) (h' : Extends T t u) : Extends T s u :=
  h.under hs h' fun _ => Or.inl

theorem Extends.mono (h : Extends T s t) (hT : ∀ m, T m → T' m) : Extends T' s t :=
  ⟨h.toGrows, fun n m hm => (h.edges n m hm).imp_right (Or.imp_left (hT m))⟩

theorem Extends.of_succs (h : Grows s t) (hsuccs : ∀ n, t.succs n = s.succs n) : Extends T s t :=
  ⟨h, fun n _ hm => Or.inl (hsuccs n ▸ hm)⟩

/-- Edges are never taken away. -/
theorem Grows.mem_succs (hs : Good s) (h : Grows s t) {m : Int} (hm : m ∈ s.succs n) :
    m ∈ t.succs n := by
  by_cases hlt : n < s.size
  · by_cases hcurrent : s.current = some n
    · obtain ⟨_, _, hnil, _⟩ := hs.current n hcurrent
      rw [hnil] at hm
      cases hm
    · rw [(h.fixed n hlt hcurrent).succs]
      exact hm
  · rw [hs.succs_new (Int.not_lt.mp hlt)] at hm
    cases hm

/-! ### Steps -/

theorem extends_newNode (kind : NodeKind) (hs : Good s) : Extends T s (s.newNode kind).2 :=
  .of_succs (grows_newNode kind hs) fun _ => succs_newNode kind hs.toSized

theorem extends_emits (hs : Good s) {f : State → State} (hf : Emits f) : Extends T s (f s) := by
  refine .of_succs (realises_emits none hs hf).grows ?_
  intro n
  rw [hf s]
  exact succs_emitAll _ s

theorem extends_stop (hs : Good s) : Extends T s s.stop := .of_succs (grows_stop hs) fun _ => rfl

theorem extends_leave (hs : Good s) : Extends T s s.leave := .of_succs (grows_leave hs) fun _ => rfl

section Jump
variable {target : Int} (h : Extends T s t) (htarget : t.proc.hasNode target = true)
  (hnew : T target ∨ s.size ≤ target)
include h htarget hnew

theorem Extends.edges_jump (next n m : Int) (hm : m ∈ (t.jump target next).succs n) :
    m ∈ s.succs n ∨ T m ∨ s.size ≤ m ∧ m < t.size := by
  have hlt := ((h.good.nodes target).mp htarget).2
  rw [succs_jump h.good htarget] at hm
  split at hm
  · obtain rfl := List.mem_singleton.mp hm
    exact Or.inr (hnew.imp_right fun hle => ⟨hle, hlt⟩)
  · exact h.edges n m hm

theorem Extends.jump {next : Int} (hnext : Untouched t next) (hfresh : s.size ≤ next) :
    Extends T s (t.jump target next) := by
  refine ⟨h.toGrows.jump htarget hnext hfresh, ?_⟩
  rw [size_jump]
  exact h.edges_jump htarget hnew next

theorem Extends.stop_jump (hs : Good s) (next : Int) : Extends T s (t.jump target next).stop := by
  refine ⟨h.toGrows.trans hs (grows_stop_jump h.good htarget), ?_⟩
  have hsize : (t.jump target next).stop.size = t.size := size_jump t target next
  rw [hsize]
  exact h.edges_jump htarget hnew next

end Jump

theorem Extends.branch {loc : Location} {condition : Exp} {kinds : BranchKind × BranchKind}
    {yes no : Int} (h : Extends T s t) (hyes : Untouched t yes) (hno : Untouched t no)
    (hyesNew : s.size ≤ yes) (hnoNew : s.size ≤ no) :
    Extends T s (t.branch loc condition kinds yes no) := by
  refine ⟨h.toGrows.branch hyes hyesNew, ?_⟩
  intro n m hm
  rw [size_branch]
  rcases (mem_succs_branch h.good hyes hno).mp hm with hm | ⟨_, rfl | rfl⟩
  · exact h.edges n m hm
  · exact Or.inr (Or.inr ⟨hyesNew, hyes.lt⟩)
  · exact Or.inr (Or.inr ⟨hnoNew, hno.lt⟩)

theorem extends_openClause (hs : Good s) (loc : Location) (condition : Exp) :
    Extends T s (s.openClause loc condition) := by
  have hspare : Extends T s s.spare :=
    (extends_newNode .normal hs).trans hs (extends_newNode .normal (hs.newNode .normal))
  exact hspare.branch (untouched_spare hs) (untouched_spare_succ hs) (Int.le_refl _) (by omega)

theorem extends_openBody (hs : Good s) (loc : Location) (condition : Exp)
    (kinds : BranchKind × BranchKind) : Extends T s (s.openBody loc condition kinds) := by
  have hhead := hs.newNode .loopHead
  have hnodes : Extends T s (s.newNode .loopHead).2.spare :=
    ((extends_newNode .loopHead hs).trans hs (extends_newNode .normal hhead)).trans hs
      (extends_newNode .normal (hhead.newNode .normal))
  have hopen : Extends T s s.openHead :=
    hnodes.jump (hasNode_head hs) (Or.inr (Int.le_refl _)) (untouched_head hs) (Int.le_refl _)
  exact hopen.branch (untouched_openHead_body hs) (untouched_openHead_after hs) (by omega) (by omega)

/-! ### Edges from nodes that have been left -/

section Connect
variable {source : Option Int} {target : Int}

theorem current_connect (s : State) (source : Option Int) (target : Int) :
    (s.connect source target).current = s.current := by
  cases source <;> rfl

theorem exits_connect (s : State) (source : Option Int) (target : Int) :
    (s.connect source target).exits = s.exits := by
  cases source <;> rfl

theorem size_connectFrom (s : State) (source : Option Int) (target : Int) :
    (s.connect source target).size = s.size := by
  cases source with
  | none => rfl
  | some c => exact size_connect s.proc c target

theorem header_connectFrom (s : State) (source : Option Int) (target : Int) :
    (s.connect source target).header = s.header := by
  cases source with
  | none => rfl
  | some c => exact header_connect s.proc c target

theorem code_connect (s : State) (source : Option Int) (target n : Int) :
    (s.connect source target).code n = s.code n := by
  cases source with
  | none => rfl
  | some c => exact Procedure.instrsAt_connect

theorem hasNode_connectFrom (s : State) (source : Option Int) (target n : Int) :
    (s.connect source target).proc.hasNode n = s.proc.hasNode n := by
  cases source with
  | none => rfl
  | some c => exact Procedure.hasNode_connect

theorem succs_connect_of_ne (hn : source ≠ some n) :
    (s.connect source target).succs n = s.succs n := by
  cases source with
  | none => rfl
  | some c => exact Procedure.successors_connect_of_ne fun h => hn (h ▸ rfl)

theorem mem_succs_connect (hsource : ∀ c, source = some c → s.proc.hasNode c = true)
    (htarget : s.proc.hasNode target = true) {m : Int} :
    m ∈ (s.connect source target).succs n ↔ m ∈ s.succs n ∨ source = some n ∧ m = target := by
  cases source with
  | none => simp [connect]
  | some c =>
    have hsuccs := Procedure.successors_connect (n := n) (hsource c rfl) htarget
    have hmem : m ∈ (s.connect (some c) target).succs n ↔
        m ∈ if n = c then insertNew (s.succs n) target else s.succs n := by
      rw [← hsuccs]
      rfl
    rw [hmem, Option.some.injEq, eq_comm (a := c)]
    split
    · rename_i heq
      simp [mem_insertNew, heq]
    · rename_i hne
      simp [hne]

theorem Untouched.connect (h : Untouched s n) (hn : source ≠ some n) :
    Untouched (s.connect source target) n := by
  refine ⟨h.nonneg, ?_, ?_, ?_, ?_, ?_⟩
  · rw [size_connectFrom]
    exact h.lt
  · rw [code_connect]
    exact h.code
  · rw [succs_connect_of_ne hn]
    exact h.succs
  · rw [exits_connect]
    exact h.exits
  · rw [current_connect]
    exact h.current

/-- An edge from a node that is not current any more. -/
theorem Extends.connect (h : Extends T s t) (hstopped : t.current = none)
    (hsource : ∀ c, source = some c → t.proc.hasNode c = true ∧ (s.current = some c ∨ s.size ≤ c))
    (htarget : t.proc.hasNode target = true) (hnew : s.size ≤ target) :
    Extends T s (t.connect source target) := by
  have hgood : Good (t.connect source target) := by
    refine ⟨h.good.of_same (hasNode_connectFrom t source target) (size_connectFrom t source target)
      (exits_connect t source target), ?_⟩
    intro c hc
    rw [current_connect, hstopped] at hc
    cases hc
  have hother : ∀ n, n < s.size → s.current ≠ some n → source ≠ some n := by
    intro n hn hcurrent heq
    rcases (hsource n heq).2 with hc | hle
    · exact hcurrent hc
    · omega
  refine ⟨⟨hgood, ?_, ?_, ?_, (header_connectFrom t source target).trans h.header⟩, ?_⟩
  · rw [size_connectFrom]
    exact h.size
  · intro n hn hcurrent
    refine (h.fixed n hn hcurrent).trans ⟨code_connect t source target n, ?_, ?_, ?_⟩
    · exact succs_connect_of_ne (hother n hn hcurrent)
    · rw [exits_connect]
    · rw [current_connect, hstopped]
      nofun
  · intro c hc
    rw [code_connect]
    exact h.code c hc
  · intro n m hm
    rw [size_connectFrom]
    rcases (mem_succs_connect (fun c hc => (hsource c hc).1) htarget).mp hm with hm | ⟨_, rfl⟩
    · exact h.edges n m hm
    · exact Or.inr (Or.inr ⟨hnew, ((h.good.nodes m).mp htarget).2⟩)

theorem Extends.moveTo {next : Int} (h : Extends T s t) (hnext : Untouched t next)
    (hnew : s.size ≤ next) : Extends T s (t.moveTo next) := by
  have hgood : Good (t.moveTo next) := by
    refine ⟨⟨h.good.nodes, h.good.nonneg, h.good.exits⟩, ?_⟩
    intro c hc
    obtain rfl : next = c := Option.some.inj hc
    exact ⟨hnext.nonneg, hnext.lt, hnext.succs, hnext.exits⟩
  refine ⟨⟨hgood, h.size, ?_, h.code, h.header⟩, h.edges⟩
  intro n hn hcurrent
  have hfixed := h.fixed n hn hcurrent
  refine ⟨hfixed.code, hfixed.succs, hfixed.exits, ?_⟩
  intro heq
  have hnext : next = n := Option.some.inj heq
  omega

end Connect

theorem Untouched.stop_jump (h : Untouched s n) (hs : Good s) {target next : Int}
    (htarget : s.proc.hasNode target = true) : Untouched (s.jump target next).stop n := by
  refine h.of_fixed ?_ (Int.le_of_eq (size_jump s target next).symm)
  exact (grows_stop_jump hs htarget).fixed n h.lt h.current

end State

/-! ### Guarded blocks -/

section Guarded
variable (catalog : Catalog) (loop : Option Loop)

/-- The node where a guarded block and its handlers meet is made, and the block leads to it. -/
def openJoin (t : State) : State := ((t.newNode .join).2.jump t.size t.size).stop

/-- A handler starts: from where the guarded block starts, and from where it ends. -/
def enterHandler (before bodyEnd : Option Int) (w : State) : State :=
  (((w.newNode .exception).2.connect before w.size).connect bodyEnd w.size).moveTo w.size

/-- One handler, up to the node where all paths meet. -/
def lowerHandler (before bodyEnd : Option Int) (join : Int) (w : State) (handler : List Stmt) :
    State :=
  ((lowerBlock catalog loop handler (enterHandler before bodyEnd w)).jump join join).stop

/-- The guarded statements, without an error. -/
def protect (body orElse : List Stmt) (s : State) : State :=
  lowerBlock catalog loop orElse (lowerBlock catalog loop body s)

/-- The guarded statements and some handlers, where the nodes `before` and `bodyEnd` and the join
are those of the guarded statements. -/
def handled (body orElse : List Stmt) (handlers : List (List Stmt)) (s : State) : State :=
  handlers.foldl (lowerHandler catalog loop s.current (protect catalog loop body orElse s).current
    (protect catalog loop body orElse s).size) (openJoin (protect catalog loop body orElse s))

/-- The guarded statements and all handlers, before the final block. -/
def guarded (body orElse : List Stmt) (handlers : List (List Stmt)) (s : State) : State :=
  if handlers.isEmpty then protect catalog loop body orElse s
  else (handled catalog loop body orElse handlers s).moveTo (protect catalog loop body orElse s).size

variable (before bodyEnd : Option Int) (join : Int)

theorem lowerHandlers_cons (w : State) (handler : List Stmt) (handlers : List (List Stmt)) :
    lowerHandlers catalog loop before bodyEnd join (handler :: handlers) w =
      lowerHandlers catalog loop before bodyEnd join handlers
        ((lowerBlock catalog loop handler (enterHandler before bodyEnd w)).connectCurrent join) := by
  rw [lowerHandlers]
  rfl

theorem enterHandler_stop (w : State) :
    enterHandler before bodyEnd w.stop = enterHandler before bodyEnd w := by
  cases before <;> cases bodyEnd <;> rfl

/-- Which node is current before the handlers does not matter. -/
theorem lowerHandlers_moveTo (handlers : List (List Stmt)) (w : State) :
    (lowerHandlers catalog loop before bodyEnd join handlers w).moveTo join =
      (handlers.foldl (lowerHandler catalog loop before bodyEnd join) w.stop).moveTo join := by
  induction handlers generalizing w with
  | nil =>
    rw [lowerHandlers]
    rfl
  | cons handler handlers ih =>
    rw [lowerHandlers_cons, ih, List.foldl_cons, lowerHandler, enterHandler_stop]
    rfl

theorem lowerStmt_try (body orElse : List Stmt) (handlers : List (List Stmt)) (final : List Stmt)
    (s : State) : lowerStmt catalog loop (.try_ body orElse handlers final) s =
      lowerBlock catalog loop final (guarded catalog loop body orElse handlers s) := by
  rw [lowerStmt, guarded, protect]
  cases handlers with
  | nil => rfl
  | cons handler handlers =>
    simp only [List.isEmpty_cons, Bool.false_eq_true, if_false]
    exact congrArg (lowerBlock catalog loop final)
      (lowerHandlers_moveTo catalog loop _ _ _ (handler :: handlers) _)

end Guarded

/-! ### Statements -/

/-- The nodes of the innermost loop that a statement may lead to. -/
def loopTargets (loop : Option Loop) (m : Int) : Prop :=
  ∃ l, loop = some l ∧ (m = l.head ∨ m = l.after)

/-- The same, or the node where paths meet. -/
def targets (loop : Option Loop) (join m : Int) : Prop := m = join ∨ loopTargets loop m

section Statements
variable {loop : Option Loop} {s t w : State}

theorem Within.lt (h : Within loop s) (hs : Good s) {m : Int} (hm : loopTargets loop m) :
    m < s.size := by
  obtain ⟨l, hl, rfl | rfl⟩ := hm
  · exact ((hs.nodes _).mp (h l hl).1).2
  · exact ((hs.nodes _).mp (h l hl).2).2

theorem extends_goTo {pick : Loop → Int} (hs : Good s)
    (hpick : ∀ l, loop = some l → s.proc.hasNode (pick l) = true)
    (htarget : ∀ l, pick l = l.head ∨ pick l = l.after) :
    Extends (loopTargets loop) s (goTo pick loop s) := by
  cases loop with
  | none => exact extends_stop hs
  | some l => exact (Extends.refl hs).stop_jump (hpick l rfl) (Or.inl ⟨l, rfl, htarget l⟩) hs _

theorem extends_simple (catalog : Catalog) {T : Int → Prop} {stmt : Stmt}
    (hsimple : isSimple stmt = true) (loop : Option Loop) (hs : Good s) :
    Extends T s (lowerStmt catalog loop stmt s) := by
  rw [lowerStmt_simple catalog hsimple loop]
  exact extends_emits hs (emits_simple catalog hsimple)

/-- The node where the clauses of a branch meet is new, seen from before the branch. -/
theorem targets_new {join : Int} (hjoin : Untouched t join)
    (hgrows : Grows t w) (hnew : s.size ≤ join) (m : Int) (hm : targets loop join m) :
    loopTargets loop m ∨ s.size ≤ m ∧ m < w.size := by
  rcases hm with rfl | hm
  · exact Or.inr ⟨hnew, (hgrows.untouched hjoin).lt⟩
  · exact Or.inl hm

/-- The end of a loop whose body has been lowered. -/
theorem extends_closeLoop {T : Int → Prop} (hs : Good s) (hopen : Extends T s t)
    (hafter : Untouched t (s.size + 2))
    (hbody : Extends (loopTargets (some ⟨s.size, s.size + 2⟩)) t w) :
    Extends T s (w.jump s.size (s.size + 2)) := by
  have hafter' := hbody.toGrows.untouched hafter
  have hlt := hafter'.lt
  have hnonneg := hs.nonneg
  have hgrown : Extends T s w := by
    apply hopen.under hs hbody
    rintro m ⟨l, hl, hm⟩
    obtain rfl := Option.some.inj hl
    simp only at hm
    exact Or.inr (by omega)
  exact hgrown.jump ((hgrown.good.nodes _).mpr (by omega)) (Or.inr (Int.le_refl _)) hafter'
    (by omega)

/-- The end of a clause whose body has been lowered. -/
theorem extends_closeClause {join : Int} (hs : Good s) (loc : Location) (condition : Exp)
    (hjoin : Untouched s join) (hbody : Extends (loopTargets loop) (s.openClause loc condition) t) :
    Extends (targets loop join) s (t.jump join (s.size + 1)) := by
  have hopen : Extends (targets loop join) s (s.openClause loc condition) :=
    extends_openClause hs loc condition
  have hgrown := hopen.under hs hbody fun _ hm => Or.inl (Or.inr hm)
  have hjoin' := hgrown.toGrows.untouched hjoin
  have hno := hbody.toGrows.untouched (untouched_openClause hs loc condition)
  exact hgrown.jump (hjoin'.hasNode hgrown.good) (Or.inl (Or.inl rfl)) hno (by omega)

/-- A function in a block has a graph of its own. -/
theorem extends_define (catalog : Catalog) (f : Function) {T : Int → Prop} (hs : Good s) :
    Extends T s (lowerFunction catalog none f s) := by
  obtain ⟨name, params, loc, isStatic, body⟩ := f
  rw [lowerFunction]
  exact ⟨⟨⟨⟨hs.nodes, hs.nonneg, hs.exits⟩, hs.current⟩, Int.le_refl _,
    fun _ _ hn => ⟨rfl, rfl, Iff.rfl, hn⟩, fun _ _ => List.prefix_rfl, rfl⟩, fun _ _ => Or.inl⟩

theorem extends_openJoin {T : Int → Prop} (hs : Good s) (h : Extends T s t) :
    Extends T s (openJoin t) := by
  have hnew := h.trans hs (extends_newNode .join h.good)
  have hjoin := untouched_newNode .join h.good
  exact hnew.stop_jump (hjoin.hasNode hnew.good) (Or.inr h.size) hs _

theorem untouched_openJoin (hs : Good s) : Untouched (openJoin s) s.size := by
  have hjoin := untouched_newNode .join hs
  exact hjoin.stop_jump (hs.newNode .join) (hjoin.hasNode (hs.newNode .join))

/-- An edge may be drawn from the node, which the growth from `s` to `w` has left. -/
def Reopens (s w : State) (source : Option Int) : Prop :=
  ∀ c, source = some c → w.proc.hasNode c = true ∧ (s.current = some c ∨ s.size ≤ c)

theorem Reopens.mono {source : Option Int} (h : Reopens s w source)
    (hnodes : ∀ n, w.proc.hasNode n = true → t.proc.hasNode n = true) : Reopens s t source :=
  fun c hc => ⟨hnodes c (h c hc).1, (h c hc).2⟩

theorem Reopens.ne_size {source : Option Int} (h : Reopens s w source) (hw : Good w) :
    source ≠ some w.size := by
  intro heq
  have hlt := ((hw.nodes _).mp (h _ heq).1).2
  omega

/-- Between two handlers of a guarded block that starts at `s`. -/
structure Handling (T : Int → Prop) (s : State) (before bodyEnd : Option Int) (join : Int)
    (w : State) : Prop where
  grown : Extends T s w
  stopped : w.current = none
  reopens : Reopens s w before ∧ Reopens s w bodyEnd
  meets : Untouched w join
  new : s.size ≤ join
  apart : before ≠ some join ∧ bodyEnd ≠ some join

section Handling
variable {T : Int → Prop} {before bodyEnd : Option Int} {join : Int}

theorem handling_openJoin (hs : Good s) (h : Extends T s t) :
    Handling T s s.current t.current t.size (openJoin t) := by
  have hopen := extends_openJoin hs h
  have hnodes : ∀ n, t.proc.hasNode n = true → (openJoin t).proc.hasNode n = true := by
    intro n hn
    exact (extends_openJoin (T := T) h.good (.refl h.good)).toGrows.hasNode h.good hn
  refine ⟨hopen, rfl, ⟨?_, ?_⟩, untouched_openJoin h.good, h.size, ?_, ?_⟩
  · intro c hc
    exact ⟨hnodes c (h.toGrows.hasNode hs (hs.hasNode hc)), Or.inl hc⟩
  · intro c hc
    refine ⟨hnodes c (h.good.hasNode hc), ?_⟩
    exact (h.toGrows.region_current hc).imp_right And.left
  · intro hc
    have hlt := (hs.current _ hc).2.1
    have hsize := h.size
    omega
  · intro hc
    have hlt := (h.good.current _ hc).2.1
    omega

theorem Handling.extends_enterHandler (h : Handling T s before bodyEnd join w) (hs : Good s) :
    Extends T s (enterHandler before bodyEnd w) := by
  have hgood := h.grown.good
  have hnew := h.grown.trans hs (extends_newNode .exception hgood)
  have hstart := untouched_newNode .exception hgood
  have hold : ∀ n, w.proc.hasNode n = true → (w.newNode .exception).2.proc.hasNode n = true :=
    fun n hn => (grows_newNode .exception hgood).hasNode hgood hn
  have hfirst : Extends T s ((w.newNode .exception).2.connect before w.size) :=
    hnew.connect h.stopped (h.reopens.1.mono hold) (hstart.hasNode hnew.good) h.grown.size
  have hstart' : Untouched ((w.newNode .exception).2.connect before w.size) w.size :=
    hstart.connect (h.reopens.1.ne_size hgood)
  have hsecond := hfirst.connect ((current_connect _ _ _).trans h.stopped)
    (h.reopens.2.mono fun n hn => (hasNode_connectFrom _ _ _ n).trans (hold n hn))
    (hstart'.hasNode hfirst.good) h.grown.size
  exact hsecond.moveTo (hstart'.connect (h.reopens.2.ne_size hgood)) h.grown.size

theorem Handling.untouched_enterHandler (h : Handling T s before bodyEnd join w) :
    Untouched (enterHandler before bodyEnd w) join := by
  have hlt := h.meets.lt
  have hnew := (grows_newNode .exception h.grown.good).untouched h.meets
  have hfirst : Untouched ((w.newNode .exception).2.connect before w.size) join :=
    hnew.connect h.apart.1
  have hsecond : Untouched (((w.newNode .exception).2.connect before w.size).connect bodyEnd w.size)
      join := hfirst.connect h.apart.2
  refine ⟨hsecond.nonneg, hsecond.lt, hsecond.code, hsecond.succs, hsecond.exits, ?_⟩
  intro heq
  have hsize : w.size = join := Option.some.inj heq
  omega

theorem size_enterHandler (before bodyEnd : Option Int) (w : State) :
    (enterHandler before bodyEnd w).size = w.size + 1 :=
  (size_connectFrom _ bodyEnd _).trans
    ((size_connectFrom _ before _).trans (size_newNode .exception w))

theorem hasNode_enterHandler (hw : Good w) {n : Int} (hn : w.proc.hasNode n = true) :
    (enterHandler before bodyEnd w).proc.hasNode n = true :=
  (hasNode_connectFrom _ bodyEnd _ n).trans
    ((hasNode_connectFrom _ before _ n).trans ((grows_newNode .exception hw).hasNode hw hn))

/-- One handler after the others. -/
theorem Handling.next (h : Handling T s before bodyEnd join w) (hs : Good s)
    (hblock : Extends T (enterHandler before bodyEnd w) t) :
    Handling T s before bodyEnd join (t.jump join join).stop := by
  have henter := h.extends_enterHandler hs
  have hgrown := henter.trans hs hblock
  have hjoin : Untouched t join := hblock.toGrows.untouched h.untouched_enterHandler
  have hnode : t.proc.hasNode join = true := hjoin.hasNode hblock.good
  have hnodes : ∀ n, w.proc.hasNode n = true → (t.jump join join).stop.proc.hasNode n = true := by
    intro n hn
    refine (hasNode_jump t join join n).trans ?_
    exact hblock.toGrows.hasNode henter.good (hasNode_enterHandler h.grown.good hn)
  exact ⟨hgrown.stop_jump hnode (Or.inr h.new) hs join, rfl, ⟨h.reopens.1.mono hnodes,
    h.reopens.2.mono hnodes⟩, hjoin.stop_jump hblock.good hnode, h.new, h.apart⟩

end Handling

variable (catalog : Catalog)

mutual

theorem extends_lowerStmt : ∀ (stmt : Stmt) (loop : Option Loop) {s : State}, Good s →
    Within loop s → Extends (loopTargets loop) s (lowerStmt catalog loop stmt s)
  | .call .., loop, _, hs, _ => extends_simple catalog rfl loop hs
  | .declare .., loop, _, hs, _ => extends_simple catalog rfl loop hs
  | .assign .., loop, _, hs, _ => extends_simple catalog rfl loop hs
  | .assignEach .., loop, _, hs, _ => extends_simple catalog rfl loop hs
  | .augment .., loop, _, hs, _ => extends_simple catalog rfl loop hs
  | .return_ loc v, loop, s, hs, _ => by
    have hgive : Extends (loopTargets loop) s (giveBack catalog loc v s) :=
      extends_emits hs (emits_giveBack catalog loc v)
    rw [lowerStmt_return]
    exact hgive.trans hs (extends_leave hgive.good)
  | .branch clauses orElse, loop, s, hs, hloop => by
    have hnew : Extends (loopTargets loop) s (s.newNode .join).2 := extends_newNode .join hs
    have hjoin := untouched_newNode .join hs
    have hclauses := extends_lowerClauses clauses loop hnew.good (hloop.grows hs hnew.toGrows) hjoin
    have hgrown := hnew.under hs hclauses (targets_new hjoin hclauses.toGrows (Int.le_refl _))
    have helse := hgrown.trans hs
      (extends_lowerBlock orElse loop hgrown.good (hloop.grows hs hgrown.toGrows))
    have hjoin' := (extends_lowerBlock orElse loop hgrown.good
      (hloop.grows hs hgrown.toGrows)).toGrows.untouched (hclauses.toGrows.untouched hjoin)
    rw [lowerStmt_branch]
    exact helse.jump (hjoin'.hasNode helse.good) (Or.inr (Int.le_refl _)) hjoin' (Int.le_refl _)
  | .while_ loc condition body, loop, s, hs, hloop => by
    have hopen : Extends (loopTargets loop) s (s.openBody loc condition (.whileTrue, .whileFalse)) :=
      extends_openBody hs loc condition _
    have hbody := extends_lowerBlock body (some ⟨s.size, s.size + 2⟩) hopen.good
      (within_openBody hs loc condition _)
    rw [lowerStmt_while]
    exact extends_closeLoop hs hopen (untouched_openBody hs loc condition _) hbody
  | .for_ loc targets iterable body, loop, s, hs, hloop => by
    have hopen : Extends (loopTargets loop) s
        (s.openBody loc (.const (.bool true)) (.forEnter, .forExit)) := extends_openBody hs loc _ _
    have htake : Extends (loopTargets loop) _ (takeNext loc targets iterable
        (s.openBody loc (.const (.bool true)) (.forEnter, .forExit))) :=
      extends_emits hopen.good (emits_takeNext loc targets iterable)
    have hwithin := (within_openBody hs loc (.const (.bool true)) (.forEnter, .forExit)).grows
      hopen.good htake.toGrows
    have hbody := extends_lowerBlock body (some ⟨s.size, s.size + 2⟩) htake.good hwithin
    rw [lowerStmt_for]
    exact extends_closeLoop hs (hopen.trans hs htake)
      (htake.toGrows.untouched (untouched_openBody hs loc _ _)) hbody
  | .try_ body orElse handlers final, loop, s, hs, hloop => by
    have hbody := extends_lowerBlock body loop hs hloop
    have hprotect : Extends (loopTargets loop) s (protect catalog loop body orElse s) :=
      hbody.trans hs (extends_lowerBlock orElse loop hbody.good (hloop.grows hs hbody.toGrows))
    have hguarded : Extends (loopTargets loop) s (guarded catalog loop body orElse handlers s) := by
      have hhandled := handling_lowerHandlers handlers loop hs hloop (handling_openJoin hs hprotect)
      unfold guarded
      split
      · exact hprotect
      · exact hhandled.grown.moveTo hhandled.meets hhandled.new
    rw [lowerStmt_try]
    exact hguarded.trans hs
      (extends_lowerBlock final loop hguarded.good (hloop.grows hs hguarded.toGrows))
  | .with_ loc items body, loop, s, hs, hloop => by
    have henter : Extends (loopTargets loop) s (enterAll catalog loc items s) :=
      extends_emits hs (emits_enterAll catalog loc items)
    rw [lowerStmt_with]
    exact henter.trans hs (extends_lowerBlock body loop henter.good (hloop.grows hs henter.toGrows))
  | .raise, loop, s, hs, _ => by
    rw [lowerStmt]
    exact extends_leave hs
  | .break_, loop, s, hs, hloop => by
    rw [lowerStmt_break]
    exact extends_goTo hs (fun l hl => (hloop l hl).2) fun _ => Or.inr rfl
  | .continue_, loop, s, hs, hloop => by
    rw [lowerStmt_continue]
    exact extends_goTo hs (fun l hl => (hloop l hl).1) fun _ => Or.inl rfl
  | .define f, loop, s, hs, _ => by
    rw [lowerStmt]
    exact extends_define catalog f hs

theorem extends_lowerBlock : ∀ (stmts : List Stmt) (loop : Option Loop) {s : State}, Good s →
    Within loop s → Extends (loopTargets loop) s (lowerBlock catalog loop stmts s)
  | [], loop, s, hs, _ => by
    rw [lowerBlock]
    exact .refl hs
  | stmt :: stmts, loop, s, hs, hloop => by
    have hfirst := extends_lowerStmt stmt loop hs hloop
    rw [lowerBlock]
    exact hfirst.trans hs
      (extends_lowerBlock stmts loop hfirst.good (hloop.grows hs hfirst.toGrows))

theorem extends_lowerClauses : ∀ (clauses : List Clause) (loop : Option Loop) {join : Int}
    {s : State}, Good s → Within loop s → Untouched s join →
      Extends (targets loop join) s (lowerClauses catalog loop join clauses s)
  | [], loop, join, s, hs, _, _ => by
    rw [lowerClauses]
    exact .refl hs
  | .mk condition loc body :: clauses, loop, join, s, hs, hloop, hjoin => by
    have hopen := grows_openClause hs loc condition
    have hbody := extends_lowerBlock body loop hopen.good (hloop.grows hs hopen)
    have hjump := extends_closeClause hs loc condition hjoin hbody
    rw [lowerClauses_cons]
    exact hjump.trans hs (extends_lowerClauses clauses loop hjump.good
      (hloop.grows hs hjump.toGrows) (hjump.toGrows.untouched hjoin))

theorem handling_lowerHandlers : ∀ (handlers : List (List Stmt)) (loop : Option Loop)
    {before bodyEnd : Option Int} {join : Int} {s w : State}, Good s → Within loop s →
      Handling (loopTargets loop) s before bodyEnd join w →
      Handling (loopTargets loop) s before bodyEnd join
        (handlers.foldl (lowerHandler catalog loop before bodyEnd join) w)
  | [], _, _, _, _, _, _, _, _, h => h
  | handler :: handlers, loop, before, bodyEnd, join, s, w, hs, hloop, h => by
    have henter := h.extends_enterHandler hs
    have hblock := extends_lowerBlock handler loop henter.good (hloop.grows hs henter.toGrows)
    exact handling_lowerHandlers handlers loop hs hloop (h.next hs hblock)

end

end Statements

end ActorOwnership.Lowering
