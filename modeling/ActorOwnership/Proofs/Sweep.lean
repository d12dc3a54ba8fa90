import ActorOwnership.Ownership.Sweep
import ActorOwnership.Proofs.Steady

/-! Sweeps with the rules for hand-offs end without an error, and what they have reported stays
reported. An answer on liveness that a sweep keeps is the answer that the table gives. -/

namespace ActorOwnership.Sweep
set_option autoImplicit false

open SummaryTable (Built)

/-! ### Safe steps -/

/-- The question whether a field is live at the hand-off. -/
def query (w : Sweep) (x : Symbol) : StateM SummaryTable Bool :=
  Liveness.isReadBeforeReset w.context x w.procedure.name (some w.point.statement) true

structure Sound (w : Sweep) (s : State) : Prop where
  built : Built w.context s.table
  live : ∀ x b, s.live.lookup x = some b → (w.query x).run s.table = (b, s.table)

structure Extends (s s' : State) : Prop where
  table : s.table <+: s'.table
  violations : s.violations <+: s'.violations

theorem Extends.rfl (s : State) : Extends s s := ⟨List.prefix_rfl, List.prefix_rfl⟩

theorem Extends.trans {s t u : State} (h : Extends s t) (h' : Extends t u) : Extends s u :=
  ⟨h.table.trans h'.table, h.violations.trans h'.violations⟩

/-- From sound states the step ends without an error, in a sound state that keeps all it had. -/
def Safe (w : Sweep) {α : Type} (m : M α) : Prop :=
  ∀ s, Sound w s → ∃ a s', m.run.run s = (.ok a, s') ∧ Sound w s' ∧ Extends s s'

section Rules
variable {w : Sweep} {α β : Type}

theorem run_bind_ok {m : M α} {k : α → M β} {s s' : State} {a : α}
    (h : m.run.run s = (.ok a, s')) : (m >>= k).run.run s = (k a).run.run s' := by
  rw [ExceptT.run_bind, run_bind, h]

theorem safe_pure (a : α) : Safe w (pure a) := fun s hs => ⟨a, s, rfl, hs, .rfl s⟩

theorem Safe.bind {m : M α} {k : α → M β} (hm : Safe w m) (hk : ∀ a, Safe w (k a)) :
    Safe w (m >>= k) := by
  intro s hs
  obtain ⟨a, s₁, hrun, hs₁, hext⟩ := hm s hs
  obtain ⟨b, s₂, hrun', hs₂, hext'⟩ := hk a s₁ hs₁
  exact ⟨b, s₂, (run_bind_ok hrun).trans hrun', hs₂, hext.trans hext'⟩

theorem safe_rule (hpass : w.pass = .givesUp) : Safe w w.rule := by
  unfold rule
  rw [hpass, if_neg (by decide)]
  exact safe_pure ()

theorem steady_query (hc : w.context.Coherent) (x : Symbol) : Steady w.context (w.query x) :=
  Liveness.steady_isReadBeforeReset hc _ _ _

theorem Sound.with_table {s : State} (hc : w.context.Coherent) (hs : Sound w s)
    {u : SummaryTable} (hu : Built w.context u) (hearlier : s.table <+: u) :
    Sound w { s with table := u } := by
  refine ⟨hu, ?_⟩
  intro x b hx
  have hagain := (steady_query hc x).repeats s.table u hu
  rw [hs.live x b hx] at hagain
  exact hagain hearlier

theorem safe_withTable (hc : w.context.Coherent) {m : StateM SummaryTable α}
    (hm : Steady w.context m) : Safe w (withTable m) := by
  intro s hs
  refine ⟨(m.run s.table).1, { s with table := (m.run s.table).2 }, rfl, ?_, ?_⟩
  · exact hs.with_table hc (hm.built hc hs.built) (hm.grows _)
  · exact ⟨hm.grows _, List.prefix_rfl⟩

/-- The answer of a sweep on liveness is the one of the table that it leaves. -/
theorem isLive_run (hc : w.context.Coherent) (x : Symbol) {s : State} (hs : Sound w s) :
    ∃ b s', (w.isLive x).run.run s = (.ok b, s') ∧ Sound w s' ∧ Extends s s' ∧
      (w.query x).run s'.table = (b, s'.table) := by
  have hsteady := steady_query hc x
  cases hx : s.live.lookup x with
  | some b =>
    refine ⟨b, s, ?_, hs, .rfl s, hs.live x b hx⟩
    have hget : (get : M State).run.run s = (.ok s, s) := rfl
    rw [isLive, run_bind_ok hget]
    simp only [hx]
    rfl
  | none =>
    -- the answer is remembered, and it stays right on every later table
    obtain ⟨u, hu⟩ : ∃ u, u = ((w.query x).run s.table).2 := ⟨_, rfl⟩
    obtain ⟨b, hb⟩ : ∃ b, b = ((w.query x).run s.table).1 := ⟨_, rfl⟩
    have hbuilt : Built w.context u := hu ▸ hsteady.built hc hs.built
    have hearlier : s.table <+: u := hu ▸ hsteady.grows _
    have hagain : (w.query x).run u = (b, u) := by
      rw [hb]
      exact hsteady.repeats s.table u hbuilt (hu ▸ List.prefix_rfl)
    have hs' := hs.with_table hc hbuilt hearlier
    refine ⟨b, { s with table := u, live := (x, b) :: s.live }, ?_, ⟨hbuilt, ?_⟩,
      ⟨hearlier, List.prefix_rfl⟩, hagain⟩
    · have hget : (get : M State).run.run s = (.ok s, s) := rfl
      rw [isLive, run_bind_ok hget]
      simp only [hx]
      rw [hu, hb]
      rfl
    · intro y b' hy
      simp only [List.lookup_cons] at hy
      split at hy
      · rename_i heq
        rw [eq_of_beq heq, ← Option.some.inj hy]
        exact hagain
      · exact hs'.live y b' hy

theorem safe_isLive (hc : w.context.Coherent) (x : Symbol) : Safe w (w.isLive x) := by
  intro s hs
  obtain ⟨b, s', hrun, hs', hext, _⟩ := isLive_run hc x hs
  exact ⟨b, s', hrun, hs', hext⟩

theorem safe_report (trace : Trace) (id : StatementId) (x : Symbol) :
    Safe w (w.report trace id x) := by
  intro s hs
  exact ⟨(), _, rfl, ⟨hs.built, hs.live⟩, ⟨List.prefix_rfl, List.prefix_append _ _⟩⟩

end Rules

/-! ### Sweeps are safe -/

section Sweeps
variable {w : Sweep} (hc : w.context.Coherent) (hpass : w.pass = .givesUp)
include hc

theorem safe_check (trace : Trace) (id : StatementId) (x : Symbol) :
    Safe w (w.check trace id x) := by
  unfold check
  split
  · refine (safe_isLive hc x).bind ?_
    intro b
    cases b with
    | true => exact safe_report trace id x
    | false => exact safe_pure ()
  · exact safe_pure ()

theorem safe_checkAll (trace : Trace) (id : StatementId) (xs : List Symbol) :
    Safe w (w.checkAll trace id xs) := by
  induction xs with
  | nil => exact safe_pure ()
  | cons x xs ih => exact (safe_check hc trace id x).bind fun _ => ih

theorem safe_anyLive (xs : List Symbol) : Safe w (w.anyLive xs) := by
  induction xs with
  | nil => exact safe_pure false
  | cons x xs ih =>
    refine (safe_isLive hc x).bind ?_
    intro b
    cases b with
    | true => exact safe_pure true
    | false => exact ih

theorem safe_checkArguments (trace : Trace) (id : StatementId) (callee : Summary)
    (args : List (Exp × Nat)) : Safe w (w.checkArguments trace id callee args) := by
  induction args with
  | nil => exact safe_pure ()
  | cons arg args ih =>
    obtain ⟨e, k⟩ := arg
    unfold checkArguments
    split
    · exact (safe_pure ()).bind fun _ => ih
    · rename_i x _
      split
      · refine (safe_anyLive hc _).bind ?_
        intro b
        cases b with
        | true => exact (safe_report trace id x).bind fun _ => ih
        | false => exact (safe_pure ()).bind fun _ => ih
      · exact (safe_pure ()).bind fun _ => ih

include hpass

theorem safe_followCall (trace : Trace) (id : StatementId) (v : Invocation) :
    Safe w (w.followCall trace id v) := by
  unfold followCall
  split
  · exact safe_pure _
  · refine (safe_withTable hc (.request hc _)).bind fun callee => ?_
    refine (safe_rule hpass).bind fun _ => ?_
    exact (safe_checkArguments hc trace id callee _).bind fun _ => safe_pure _

theorem safe_checkCall (trace : Trace) (id : StatementId) (v : Invocation) :
    Safe w (w.checkCall trace id v) :=
  (safe_followCall hc hpass trace id v).bind fun _ => safe_checkAll hc trace id _

theorem safe_checkPart (trace : Trace) (id : StatementId) (e : Exp) :
    Safe w (w.checkPart trace id e) := by
  unfold checkPart
  split
  · exact safe_checkCall hc hpass _ id _
  · exact safe_checkAll hc trace id _

theorem safe_checkParts (trace : Trace) (id : StatementId) (es : List Exp) :
    Safe w (w.checkParts trace id es) := by
  induction es with
  | nil => exact safe_pure ()
  | cons e es ih => exact (safe_checkPart hc hpass trace id e).bind fun _ => ih

theorem safe_checkAssignment (trace : Trace) (id : StatementId) (written : Option Symbol)
    (value : Exp) : Safe w (w.checkAssignment trace id written value) :=
  (safe_rule hpass).bind fun _ => (safe_checkAll hc trace id _).bind fun _ =>
    safe_checkParts hc hpass trace id _

theorem safe_checkHandOff (trace : Trace) (id : StatementId) :
    Safe w (w.checkHandOff trace id) := by
  refine (safe_rule hpass).bind fun _ => ?_
  split
  · refine (safe_isLive hc _).bind ?_
    intro b
    cases b with
    | true => exact safe_report trace id _
    | false => exact safe_pure ()
  · exact safe_pure ()

theorem safe_checkStatement (trace : Trace) (id : StatementId) (a : Action) :
    Safe w (w.checkStatement trace id a) := by
  unfold checkStatement
  split
  · exact safe_checkAssignment hc hpass trace id _ _
  · exact safe_checkAssignment hc hpass trace id _ _
  · exact safe_checkAssignment hc hpass trace id _ _
  · exact safe_checkHandOff hc hpass trace id
  · split
    · exact safe_checkHandOff hc hpass trace id
    · exact safe_checkCall hc hpass trace id _
  · exact safe_pure ()

theorem safe_checkStatements (trace : Trace) (sts : List (StatementId × Instr)) :
    Safe w (w.checkStatements trace sts) := by
  induction sts with
  | nil => exact safe_pure ()
  | cons st sts ih => exact (safe_checkStatement hc hpass trace st.1 _).bind fun _ => ih

end Sweeps

/-! ### What is reported -/

/-- The step reports the violation, provided that the table stays within `u`. -/
def Reports (w : Sweep) (u : SummaryTable) {α : Type} (m : M α) (v : Violation) : Prop :=
  ∀ s a s', Sound w s → m.run.run s = (.ok a, s') → s'.table <+: u → v ∈ s'.violations

namespace Reports
variable {w : Sweep} {u : SummaryTable} {v : Violation} {α β : Type} {m : M α} {k : α → M β}

theorem bind_left (hm : Safe w m) (hr : Reports w u m v) (hk : ∀ a, Safe w (k a)) :
    Reports w u (m >>= k) v := by
  intro s b s' hs hrun hu
  obtain ⟨a, s₁, hrun₁, hs₁, _⟩ := hm s hs
  obtain ⟨b', s₂, hrun₂, _, hext⟩ := hk a s₁ hs₁
  rw [run_bind_ok hrun₁, hrun₂] at hrun
  cases hrun
  exact hext.violations.subset (hr s a s₁ hs hrun₁ (hext.table.trans hu))

theorem bind_right (hm : Safe w m) (hr : ∀ a, Reports w u (k a) v) : Reports w u (m >>= k) v := by
  intro s b s' hs hrun hu
  obtain ⟨a, s₁, hrun₁, hs₁, _⟩ := hm s hs
  rw [run_bind_ok hrun₁] at hrun
  exact hr a s₁ b s' hs₁ hrun hu

end Reports

section Reported
variable {w : Sweep} (hc : w.context.Coherent) (hpass : w.pass = .givesUp) {u : SummaryTable}
  (hu : Built w.context u) {x : Symbol} (hlive : ((w.query x).run u).1 = true)
include hc hu hlive

/-- A symbol that is live on the final table was live when the sweep asked. -/
theorem reports_live (trace : Trace) (id : StatementId) :
    Reports w u (w.isLive x >>= fun b => if b then w.report trace id x else pure ())
      ⟨trace.addAccess (w.procedure.locationOf id), x⟩ := by
  intro s a s' hs hrun hearlier
  obtain ⟨b, s₁, hrun₁, hs₁, _, hasked⟩ := isLive_run hc x hs
  rw [run_bind_ok hrun₁] at hrun
  cases b with
  | true =>
    cases hrun
    simp
  | false =>
    have htable : s₁.table = s'.table := by
      cases hrun
      rfl
    have hagain := (steady_query hc x).repeats s₁.table u hu
    rw [hasked] at hagain
    rw [hagain (htable ▸ hearlier)] at hlive
    cases hlive

theorem reports_check {trace : Trace} {id : StatementId} (hfield : x.isField = true)
    (hreach : w.reachesPoint x id = true) :
    Reports w u (w.check trace id x) ⟨trace.addAccess (w.procedure.locationOf id), x⟩ := by
  unfold check
  rw [if_pos (by rw [hreach, hfield]; rfl)]
  exact reports_live hc hu hlive trace id

theorem reports_checkAll {trace : Trace} {id : StatementId} (hfield : x.isField = true)
    (hreach : w.reachesPoint x id = true) {xs : List Symbol} (hx : x ∈ xs) :
    Reports w u (w.checkAll trace id xs) ⟨trace.addAccess (w.procedure.locationOf id), x⟩ := by
  induction xs with
  | nil => cases hx
  | cons y ys ih =>
    rcases List.mem_cons.mp hx with rfl | hx
    · exact (reports_check hc hu hlive hfield hreach).bind_left (safe_check hc trace id x)
        fun _ => safe_checkAll hc trace id ys
    · exact .bind_right (safe_check hc trace id y) fun _ => ih hx

include hpass

/-- Loading a live field into a variable is reported if its value may be given away. -/
theorem reports_checkAssignment {trace : Trace} {id : StatementId} (hfield : x.isField = true)
    (hreach : w.reachesPoint x id = true) (written : Option Symbol) {base : Exp} {name : String}
    (hx : w.flow.scope.resolve (.field base name) = some x) :
    Reports w u (w.checkAssignment trace id written (.field base name))
      ⟨trace.addAccess (w.procedure.locationOf id), x⟩ := by
  refine .bind_right (safe_rule hpass) fun _ => ?_
  refine .bind_right (safe_checkAll hc trace id _) fun _ => ?_
  have hall : Reports w u (w.checkAll trace id (w.flow.scope.resolve (.field base name)).toList)
      ⟨trace.addAccess (w.procedure.locationOf id), x⟩ :=
    reports_checkAll hc hu hlive hfield hreach (by rw [hx]; simp)
  exact hall.bind_left (safe_checkAll hc trace id _) fun _ => safe_pure ()

/-- The hand-off itself is reported if the field that it gives away is live. -/
theorem reports_checkHandOff {trace : Trace} (hfield : x.isField = true)
    (hx : w.point.symbol = x) :
    Reports w u (w.checkHandOff trace w.point.statement)
      ⟨trace.addAccess (w.procedure.locationOf w.point.statement), x⟩ := by
  refine .bind_right (safe_rule hpass) fun _ => ?_
  rw [hx, if_pos (by simpa using hfield)]
  exact reports_live hc hu hlive trace _

end Reported

theorem reports_checkStatements {w : Sweep} (hc : w.context.Coherent) (hpass : w.pass = .givesUp)
    {u : SummaryTable} {v : Violation} {trace : Trace} {sts : List (StatementId × Instr)}
    {st : StatementId × Instr} (hst : st ∈ sts)
    (hv : Reports w u (w.checkStatement trace st.1 st.2.action) v) :
    Reports w u (w.checkStatements trace sts) v := by
  induction sts with
  | nil => cases hst
  | cons st' sts ih =>
    have hsafe := safe_checkStatement hc hpass trace st'.1 st'.2.action
    rcases List.mem_cons.mp hst with rfl | hst
    · exact hv.bind_left hsafe fun _ => safe_checkStatements hc hpass trace sts
    · exact .bind_right hsafe fun _ => ih hst

/-- The state after a sweep has all that the statements of the slice report. -/
structure Swept (w : Sweep) (trace : Trace) (s s' : State) : Prop where
  sound : Sound w s'
  extends_ : Extends s s'
  reported : ∀ u v st, st ∈ (Slice.of w.procedure w.point.statement).flatMap Prod.snd →
    Reports w u (w.checkStatement trace st.1 st.2.action) v → s'.table <+: u → v ∈ s'.violations

/-- The sweep once the summary and the field that is given away have been asked for. -/
def sweepSlice (w : Sweep) (trace : Trace) : M (List Violation × List Int) := do
  w.checkStatements trace ((Slice.of w.procedure w.point.statement).flatMap Prod.snd)
  return ((← get).violations, (Slice.of w.procedure w.point.statement).map Prod.fst)

theorem perform_start {w : Sweep} (hc : w.context.Coherent) (trace : Trace) {s : State}
    (hs : Sound w s) : ∃ s₁, Sound w s₁ ∧ Extends s s₁ ∧
      (w.perform trace).run.run s = (w.sweepSlice trace).run.run s₁ := by
  obtain ⟨_, s₁, hrun₁, hs₁, hext₁⟩ := safe_withTable hc (.request hc w.procedure.name) s hs
  by_cases hfield : w.point.symbol.isField = true
  · obtain ⟨_, s₂, hrun₂, hs₂, hext₂⟩ := safe_isLive hc w.point.symbol s₁ hs₁
    refine ⟨s₂, hs₂, hext₁.trans hext₂, ?_⟩
    rw [perform, run_bind_ok hrun₁, if_pos hfield, run_bind_ok hrun₂, sweepSlice]
  · refine ⟨s₁, hs₁, hext₁, ?_⟩
    rw [perform, run_bind_ok hrun₁, if_neg hfield, sweepSlice]

theorem sweepSlice_run {w : Sweep} {trace : Trace} {s s' : State}
    (h : (w.checkStatements trace
      ((Slice.of w.procedure w.point.statement).flatMap Prod.snd)).run.run s = (.ok (), s')) :
    (w.sweepSlice trace).run.run s =
      (.ok (s'.violations, (Slice.of w.procedure w.point.statement).map Prod.fst), s') := by
  rw [sweepSlice, run_bind_ok h]
  rfl

theorem perform_run {w : Sweep} (hc : w.context.Coherent) (hpass : w.pass = .givesUp)
    (trace : Trace) {s : State} (hs : Sound w s) :
    ∃ ids s', (w.perform trace).run.run s = (.ok (s'.violations, ids), s') ∧
      Swept w trace s s' := by
  obtain ⟨s₁, hs₁, hext₁, hrun₁⟩ := perform_start hc trace hs
  obtain ⟨_, s₂, hrun₂, hs₂, hext₂⟩ := safe_checkStatements hc hpass trace
    ((Slice.of w.procedure w.point.statement).flatMap Prod.snd) s₁ hs₁
  refine ⟨_, s₂, hrun₁.trans (sweepSlice_run hrun₂), hs₂, hext₁.trans hext₂, ?_⟩
  intro u v st hst hv hu
  exact reports_checkStatements hc hpass hst hv s₁ _ s₂ hs₁ hrun₂ hu

end ActorOwnership.Sweep
