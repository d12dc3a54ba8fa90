import ActorOwnership.Proofs.Realises

/-! The graph of a structured body has exactly the paths of its runs. -/

namespace ActorOwnership.Lowering
open Surface State Behaviour
set_option autoImplicit false

variable {P : Procedure} {s t : State} {loop : Option Loop} {B : Behaviour} {xs : List Instr}

/-! ### Statements -/

theorem within_openBody (hs : Good s) (loc : Location) (condition : Exp)
    (kinds : BranchKind × BranchKind) :
    Within (some ⟨s.size, s.size + 2⟩) (s.openBody loc condition kinds) := by
  intro l hl
  obtain rfl := Option.some.inj hl
  have hgood := (grows_openBody hs loc condition kinds).good
  have hafter := untouched_openBody hs loc condition kinds
  have hnonneg := hs.nonneg
  have hlt := hafter.lt
  exact ⟨(hgood.nodes s.size).mpr ⟨by omega, by omega⟩, hafter.hasNode hgood⟩

section Statements
variable (catalog : Catalog)

theorem realises_simple {stmt : Stmt} (hsimple : isSimple stmt = true) (loop : Option Loop)
    (hs : Good s) :
    Realises loop s (lowerStmt catalog loop stmt s) (stmtRuns catalog stmt s.temps) := by
  rw [lowerStmt_simple catalog hsimple loop, stmtRuns_simple catalog hsimple]
  exact realises_emits loop hs (emits_simple catalog hsimple)

theorem realises_return (loop : Option Loop) (loc : Location) (v : Option Operand) (hs : Good s) :
    Realises loop s (lowerStmt catalog loop (.return_ loc v) s)
      (stmtRuns catalog (.return_ loc v) s.temps) := by
  have hgive := realises_emits loop hs (emits_giveBack catalog loc v)
  rw [lowerStmt_return]
  refine (hgive.andThen hs (realises_leave hgive.grows.good)).congr ?_
  intro xs e
  have hemitted : emitted (lowerStmt catalog none (.return_ loc v)) s.temps =
      emitted (giveBack catalog loc v) s.temps := by
    rw [emitted, lowerStmt_return]
    rfl
  rw [stmtRuns, hemitted]
  constructor
  · rintro (⟨⟨_, he⟩, hne⟩ | ⟨ys, zs, rfl, ⟨rfl, _⟩, ⟨rfl, rfl⟩⟩)
    · exact absurd he hne
    · exact ⟨List.append_nil _, rfl⟩
  · rintro ⟨rfl, rfl⟩
    exact Or.inr ⟨_, [], (List.append_nil _).symm, ⟨rfl, rfl⟩, ⟨rfl, rfl⟩⟩

theorem realises_nothing (hs : Good s) : Realises loop s s (just [] .next) :=
  realises_emits loop (f := fun s => s) hs emits_id

mutual

theorem realises_lowerStmt : ∀ (stmt : Stmt) (loop : Option Loop) {s : State},
    isStructured stmt = true → Good s → Within loop s →
      Realises loop s (lowerStmt catalog loop stmt s) (stmtRuns catalog stmt s.temps)
  | .call .., loop, _, _, hs, _ => realises_simple catalog rfl loop hs
  | .declare .., loop, _, _, hs, _ => realises_simple catalog rfl loop hs
  | .assign .., loop, _, _, hs, _ => realises_simple catalog rfl loop hs
  | .assignEach .., loop, _, _, hs, _ => realises_simple catalog rfl loop hs
  | .augment .., loop, _, _, hs, _ => realises_simple catalog rfl loop hs
  | .return_ loc v, loop, _, _, hs, _ => realises_return catalog loop loc v hs
  | .branch clauses orElse, loop, s, hstruct, hs, hloop => by
    rw [isStructured, Bool.and_eq_true] at hstruct
    have hnew := grows_newNode .join hs
    rw [lowerStmt_branch, stmtRuns]
    apply Joins.realises hs
    apply joins_lowerClauses clauses orElse loop hstruct.1 _ hnew.good (hloop.grows hs hnew)
      (untouched_newNode .join hs)
    exact fun hs hloop => realises_lowerBlock orElse loop hstruct.2 hs hloop
  | .while_ loc condition body, loop, s, hstruct, hs, hloop => by
    rw [isStructured] at hstruct
    have hopen := grows_openBody hs loc condition (.whileTrue, .whileFalse)
    have hbody := realises_lowerBlock body _ hstruct hopen.good
      (within_openBody hs loc condition (.whileTrue, .whileFalse))
    rw [temps_openBody] at hbody
    rw [lowerStmt_while, stmtRuns]
    exact Realises.repeat hs hbody
  | .for_ loc targets iterable body, loop, s, hstruct, hs, hloop => by
    rw [isStructured] at hstruct
    have hopen := grows_openBody hs loc (.const (.bool true)) (.forEnter, .forExit)
    have hwithin := within_openBody hs loc (.const (.bool true)) (.forEnter, .forExit)
    have htake := realises_emits (some ⟨s.size, s.size + 2⟩) hopen.good
      (emits_takeNext loc targets iterable)
    have hbody := realises_lowerBlock body _ hstruct htake.grows.good
      (hwithin.grows hopen.good htake.grows)
    rw [(emits_takeNext loc targets iterable).temps_eq] at hbody
    have hiteration := htake.andThen hopen.good hbody
    rw [temps_openBody] at hiteration
    rw [lowerStmt_for, stmtRuns]
    exact Realises.repeat hs hiteration
  | .with_ loc items body, loop, s, hstruct, hs, hloop => by
    rw [isStructured] at hstruct
    have henter := realises_emits loop hs (emits_enterAll catalog loc items)
    have hbody := realises_lowerBlock body loop hstruct henter.grows.good
      (hloop.grows hs henter.grows)
    rw [(emits_enterAll catalog loc items).temps_eq] at hbody
    rw [lowerStmt_with, stmtRuns]
    exact henter.andThen hs hbody
  | .raise, loop, s, _, hs, _ => by
    rw [lowerStmt, stmtRuns]
    exact realises_leave hs
  | .break_, loop, s, _, hs, hloop => by
    rw [lowerStmt_break, stmtRuns]
    exact realises_goTo hs (by decide) (fun l hl => (hloop l hl).2) fun _ _ _ => Iff.rfl
  | .continue_, loop, s, _, hs, hloop => by
    rw [lowerStmt_continue, stmtRuns]
    exact realises_goTo hs (by decide) (fun l hl => (hloop l hl).1) fun _ _ _ => Iff.rfl
  | .try_ .., _, _, hstruct, _, _ => by
    rw [isStructured] at hstruct
    cases hstruct
  | .define _, _, _, hstruct, _, _ => by
    rw [isStructured] at hstruct
    cases hstruct

theorem realises_lowerBlock : ∀ (stmts : List Stmt) (loop : Option Loop) {s : State},
    blockStructured stmts = true → Good s → Within loop s →
      Realises loop s (lowerBlock catalog loop stmts s) (blockRuns catalog stmts s.temps)
  | [], loop, s, _, hs, _ => by
    rw [lowerBlock, blockRuns]
    exact realises_nothing hs
  | stmt :: stmts, loop, s, hstruct, hs, hloop => by
    rw [blockStructured, Bool.and_eq_true] at hstruct
    have hfirst := realises_lowerStmt stmt loop hstruct.1 hs hloop
    have hrest := realises_lowerBlock stmts loop hstruct.2 hfirst.grows.good
      (hloop.grows hs hfirst.grows)
    have htemps : (lowerStmt catalog loop stmt s).temps =
        counted (lowerStmt catalog none stmt) s.temps :=
      temps_lowerStmt catalog stmt loop none hstruct.1 rfl
    rw [htemps] at hrest
    rw [lowerBlock, blockRuns]
    exact hfirst.andThen hs hrest

theorem joins_lowerClauses : ∀ (clauses : List Clause) (orElse : List Stmt) (loop : Option Loop)
    {join : Int} {s : State}, clausesStructured clauses = true →
      (∀ {t : State}, Good t → Within loop t →
        Realises loop t (lowerBlock catalog loop orElse t) (blockRuns catalog orElse t.temps)) →
      Good s → Within loop s → Untouched s join →
      Joins loop join s (lowerBlock catalog loop orElse (lowerClauses catalog loop join clauses s))
        (clauseRuns catalog clauses (blockRuns catalog orElse) s.temps)
  | [], orElse, loop, join, s, _, helse, hs, hloop, hjoin => by
    rw [lowerClauses, clauseRuns]
    exact (helse hs hloop).joins hs hjoin
  | .mk condition loc body :: clauses, orElse, loop, join, s, hstruct, helse, hs, hloop, hjoin => by
    rw [clausesStructured, Bool.and_eq_true] at hstruct
    have hopen := grows_openClause hs loc condition
    have hbody := realises_lowerBlock body loop hstruct.1 hopen.good (hloop.grows hs hopen)
    have hgrows := hopen.trans hs hbody.grows
    have hjoin' := hgrows.untouched hjoin
    have hno := hbody.grows.untouched (untouched_openClause hs loc condition)
    have hlt := hjoin.lt
    have hjump := hgrows.jump (hjoin'.hasNode hgrows.good) hno (by omega)
    have hrest := joins_lowerClauses clauses orElse loop hstruct.2 helse hjump.good
      (hloop.grows hs hjump) (hjump.untouched hjoin)
    have htemps : (lowerBlock catalog loop body (s.openClause loc condition)).temps =
        counted (lowerBlock catalog none body) s.temps :=
      temps_lowerBlock catalog body loop none hstruct.1 (temps_openClause s loc condition)
    rw [temps_jump, htemps] at hrest
    rw [temps_openClause] at hbody
    rw [lowerClauses_cons, clauseRuns]
    exact hrest.clause hs hjoin hbody

end

end Statements

/-! ### Functions -/

/-- The graph `q` is `p` with an edge to `e` from each node of `S`. -/
structure Wired (p q : Procedure) (S : Int → Prop) (e : Int) : Prop where
  nodes : ∀ n, q.hasNode n = p.hasNode n
  code : ∀ n, q.instrsAt n = p.instrsAt n
  succs : ∀ n m, q.LeadsTo n m ↔ p.LeadsTo n m ∨ S n ∧ m = e
  name : q.name = p.name
  entry : q.entry = p.entry
  exit : q.exit = p.exit

section Wired
variable {p q r : Procedure} {S S' : Int → Prop} {e id : Int}

theorem wired_none (p : Procedure) (e : Int) : Wired p p (fun _ => False) e :=
  ⟨fun _ => rfl, fun _ => rfl, fun _ _ => by simp, rfl, rfl, rfl⟩

theorem Wired.congr (h : Wired p q S e) (hS : ∀ n, S n ↔ S' n) : Wired p q S' e := by
  obtain rfl : S = S' := funext fun n => propext (hS n)
  exact h

theorem Wired.trans (h : Wired p q S e) (h' : Wired q r S' e) :
    Wired p r (fun n => S n ∨ S' n) e := by
  refine ⟨fun n => (h'.nodes n).trans (h.nodes n), fun n => (h'.code n).trans (h.code n), ?_,
    h'.name.trans h.name, h'.entry.trans h.entry, h'.exit.trans h.exit⟩
  intro n m
  rw [h'.succs, h.succs, or_assoc, ← or_and_right]

theorem wired_connect (hid : p.hasNode id = true) (he : p.hasNode e = true) :
    Wired p (p.connect id e) (fun n => n = id) e := by
  refine ⟨fun n => Procedure.hasNode_connect, fun n => Procedure.instrsAt_connect, ?_, ?_, ?_, ?_⟩
  · intro n m
    unfold Procedure.LeadsTo
    rw [Procedure.successors_connect hid he]
    by_cases hn : n = id
    · simp [hn, mem_insertNew]
    · simp [hn]
  all_goals
    unfold Procedure.connect
    split <;> rfl

theorem wired_foldl (ids : List Int) (s : State) (he : s.proc.hasNode e = true)
    (hids : ∀ id ∈ ids, s.proc.hasNode id = true) :
    Wired s.proc (ids.foldl (fun s id => s.connect (some id) e) s).proc (fun n => n ∈ ids) e := by
  induction ids generalizing s with
  | nil => exact (wired_none s.proc e).congr fun n => by simp
  | cons id ids ih =>
    have hfirst : Wired s.proc (s.connect (some id) e).proc (fun n => n = id) e :=
      wired_connect (hids id List.mem_cons_self) he
    have hrest := ih (s.connect (some id) e) ((hfirst.nodes e).trans he) fun k hk =>
      (hfirst.nodes k).trans (hids k (List.mem_cons_of_mem id hk))
    exact (hfirst.trans hrest).congr fun n => List.mem_cons.symm

end Wired

/-- The graph with a new node that is the exit. -/
def withExit (s : State) : State :=
  { (s.newNode .exit).2 with proc := { (s.newNode .exit).2.proc with exit := s.size } }

/-- All edges into the exit. -/
def closed (s : State) : State :=
  s.exits.foldl (fun t id => t.connect (some id) s.size) ((withExit s).connectCurrent s.size)

theorem closeFunction_eq (s : State) : closeFunction s =
    { closed s with program := (closed s).program.addProcedure (closed s).proc } := by
  have hexits : ((withExit s).connectCurrent s.size).exits = s.exits := by
    unfold connectCurrent connect
    split <;> rfl
  unfold closed
  rw [← hexits]
  rfl

theorem wired_closed (hs : Good s) : Wired (withExit s).proc (closed s).proc
    (fun n => s.current = some n ∨ n ∈ s.exits) s.size := by
  have hnodes : ∀ n, s.proc.hasNode n = true → (withExit s).proc.hasNode n = true :=
    fun n hn => (grows_newNode .exit hs).hasNode hs hn
  have hexit : (withExit s).proc.hasNode s.size = true :=
    (untouched_newNode .exit hs).hasNode (hs.newNode .exit)
  have hcurrent : Wired (withExit s).proc ((withExit s).connectCurrent s.size).proc
      (fun n => s.current = some n) s.size := by
    have hkeep : (withExit s).current = s.current := rfl
    unfold connectCurrent connect
    rw [hkeep]
    cases hc : s.current with
    | none => exact (wired_none _ _).congr fun n => by simp
    | some c =>
      exact (wired_connect (hnodes c (hs.hasNode hc)) hexit).congr fun n => by simp [eq_comm]
  apply hcurrent.trans
  apply wired_foldl
  · rw [hcurrent.nodes]
    exact hexit
  · intro n hn
    rw [hcurrent.nodes]
    exact hnodes n ((hs.nodes n).mpr (hs.exits n hn))

section Closed
variable (hs : Good s)
include hs

theorem exit_closed : (closed s).proc.exit = s.size := (wired_closed hs).exit

theorem hasNode_exit_closed : (closed s).proc.hasNode (closed s).proc.exit = true := by
  rw [exit_closed hs, (wired_closed hs).nodes]
  exact (untouched_newNode .exit hs).hasNode (hs.newNode .exit)

theorem code_closed (n : Int) : (closed s).proc.instrsAt n = s.code n :=
  ((wired_closed hs).code n).trans (code_newNode .exit hs.toSized)

theorem leadsTo_closed (n m : Int) : (closed s).proc.LeadsTo n m ↔
    m ∈ s.succs n ∨ (s.current = some n ∨ n ∈ s.exits) ∧ m = s.size := by
  have hsuccs : (withExit s).proc.LeadsTo n m ↔ m ∈ s.succs n := by
    rw [← succs_newNode .exit hs.toSized]
    rfl
  rw [(wired_closed hs).succs, hsuccs]

/-- The current path leads to the exit, too. -/
theorem completes_closed : Completes (closed s).proc s fun n => n < s.size := by
  intro n hn
  refine ⟨?_, ?_, ?_⟩
  · rw [exit_closed hs]
    omega
  · intro hcurrent
    refine ⟨code_closed hs n, ?_⟩
    intro m
    rw [leadsTo_closed hs, exit_closed hs]
    simp [hcurrent]
  · intro _
    simp only [code_closed hs, List.prefix_rfl]

theorem successors_exit_closed : (closed s).proc.successors (closed s).proc.exit = [] := by
  apply List.eq_nil_iff_forall_not_mem.mpr
  intro m hm
  rcases (leadsTo_closed hs _ m).mp hm with hm | ⟨hc | hx, _⟩
  · rw [exit_closed hs, hs.succs_new (Int.le_refl _)] at hm
    cases hm
  · rw [exit_closed hs] at hc
    have := (hs.current _ hc).2.1
    omega
  · rw [exit_closed hs] at hx
    have := (hs.exits _ hx).2
    omega

theorem rest_exit_closed (xs : List Instr) :
    (closed s).proc.Rest ⟨(closed s).proc.exit, 0⟩ xs ↔ xs = [] := by
  apply Procedure.rest_exit
  · rw [exit_closed hs, code_closed hs]
    exact hs.code_new (Int.le_refl _)
  · exact successors_exit_closed hs

theorem ahead_closed (hsome : s.current ≠ none) (xs : List Instr) :
    Ahead (closed s).proc s xs ↔ xs = [] := by
  obtain ⟨c, hc⟩ := Option.ne_none_iff_exists'.mp hsome
  obtain ⟨_, hlt, hsuccs, _⟩ := hs.current c hc
  have hleads : ∀ m, (closed s).proc.LeadsTo c m ↔ m = (closed s).proc.exit := by
    intro m
    rw [leadsTo_closed hs, exit_closed hs, hsuccs]
    simp [hc]
  rw [ahead_of_kept hc (completes_closed hs c hlt).1 (code_closed hs c)]
  simp only [hleads, exists_eq_left]
  exact rest_exit_closed hs xs

end Closed

section Opened
variable (name : String) (owner : Option String) (params : List (String × TypeNote))
  (loc : Location) (isStatic : Bool) (s : State)

theorem good_openFunction : Good (openFunction name owner params loc isStatic s) := by
  have hnodes : (openFunction name owner params loc isStatic s).proc.nodes =
      [{ id := 0, kind := .entry }] := rfl
  have hsize : (openFunction name owner params loc isStatic s).size = 1 := rfl
  have hexits : (openFunction name owner params loc isStatic s).exits = [] := rfl
  refine ⟨⟨?_, ?_, ?_⟩, ?_⟩
  · intro n
    simp only [Procedure.hasNode, hnodes, hsize, List.any_cons, List.any_nil, Bool.or_false,
      beq_iff_eq]
    omega
  · rw [hsize]
    omega
  · simp [hexits]
  · intro c hc
    obtain rfl : 0 = c := Option.some.inj hc
    rw [hsize, hexits]
    exact ⟨by omega, by omega, rfl, List.not_mem_nil⟩

/-- A method has the name of its class in front. -/
def qualifiedName (owner : Option String) (name : String) : String :=
  match owner with
  | some c => c ++ "." ++ name
  | none => name

theorem header_openFunction :
    (openFunction name owner params loc isStatic s).header = (qualifiedName owner name, 0) := rfl

end Opened

/-- The run of a whole body: it comes to the end, or leaves the procedure before. -/
def CompleteRun (catalog : Catalog) (body : List Stmt) (n : Nat) (xs : List Instr) : Prop :=
  blockRuns catalog body n xs .next ∨ blockRuns catalog body n xs .left

theorem followed_complete {K : List Instr → Prop} (hK : ∀ ys, B ys .next → ∀ zs, K zs ↔ zs = [])
    (hexit : ∀ zs, P.Rest ⟨P.exit, 0⟩ zs ↔ zs = []) :
    B.Followed (After P none K) xs ↔ B xs .next ∨ B xs .left := by
  constructor
  · rintro ⟨ys, e, zs, hB, hA, rfl⟩
    cases e with
    | next =>
      obtain rfl := (hK ys hB zs).mp hA
      exact Or.inl (by simpa using hB)
    | broken =>
      obtain ⟨l, hl, _⟩ := hA
      cases hl
    | continued =>
      obtain ⟨l, hl, _⟩ := hA
      cases hl
    | left =>
      obtain rfl := (hexit zs).mp hA
      exact Or.inr (by simpa using hB)
  · rintro (hB | hB)
    · exact ⟨xs, .next, [], hB, (hK xs hB []).mpr rfl, (List.append_nil xs).symm⟩
    · exact ⟨xs, .left, [], hB, (hexit []).mpr rfl, (List.append_nil xs).symm⟩

/-- The graph of a body has the paths of its complete runs, and no others. -/
theorem reads_closed (catalog : Catalog) (body : List Stmt) (hbody : blockStructured body = true)
    (hs : Good s) {n : Int} (hn : s.current = some n) (hcode : s.code n = []) (xs : List Instr) :
    (closed (lowerBlock catalog none body s)).proc.Reads ⟨n, 0⟩ xs ↔
      CompleteRun catalog body s.temps xs := by
  have hrealises := realises_lowerBlock catalog body none hbody hs nofun
  have hgood := hrealises.grows.good
  have hcurrent : s.current ≠ none := by
    rw [hn]
    nofun
  have hcompletes : Completes (closed (lowerBlock catalog none body s)).proc
      (lowerBlock catalog none body s) (Region s (lowerBlock catalog none body s)) :=
    (completes_closed hgood).mono fun n hn => Region.lt hs hrealises.grows.size hn
  rw [Procedure.reads_iff_rest (hasNode_exit_closed hgood), ← ahead_start hn hcode,
    hrealises.ahead _ hcompletes hcurrent]
  apply followed_complete
  · intro ys hB zs
    exact ahead_closed hgood (hrealises.reached ys hB hcurrent) zs
  · exact rest_exit_closed hgood

theorem find?_addProcedure (g : Program) (p : Procedure) :
    (g.addProcedure p).find? p.name = some p := by
  unfold Program.addProcedure Program.find?
  cases hany : g.procedures.any (fun q => q.name == p.name) with
  | false =>
    have hnone : g.procedures.find? (fun q => q.name == p.name) = none := by
      rw [List.find?_eq_none]
      rw [List.any_eq_false] at hany
      exact hany
    simp [hnone]
  | true =>
    obtain ⟨q, hq, hname⟩ := List.any_eq_true.mp hany
    have hkey : ((fun q : Procedure => q.name == p.name) ∘ fun q =>
        if q.name == p.name then p else q) = fun q => q.name == p.name := by
      funext q
      simp only [Function.comp]
      split
      · simp_all
      · rfl
    have hsome : (g.procedures.find? fun q => q.name == p.name).isSome = true :=
      List.find?_isSome.mpr ⟨q, hq, hname⟩
    obtain ⟨r, hr⟩ := Option.isSome_iff_exists.mp hsome
    have hrname := List.find?_some hr
    simp only [if_true, List.find?_map, hkey, hr, Option.map_some, hrname]

end ActorOwnership.Lowering
