import ActorOwnership.Proofs.Slice
import ActorOwnership.Proofs.Sweep

/-! Every violation that a sweep reports is justified. Its trace leads to one of the examined
statements, and its symbol is a live field that may alias the value given away there, or an argument
that may alias it and that a callee stores in a live field. -/

namespace ActorOwnership
set_option autoImplicit false

open SummaryTable (Built)

/-! ### Calls of a statement -/

/-- The value of an expression may be that of the part, or have it as an element. -/
inductive Exp.Holds (part : Exp) : Exp → Prop where
  | here : Exp.Holds part part
  | element {es : List Exp} {e : Exp} : e ∈ es → Exp.Holds part e → Exp.Holds part (.aggregate es)
  | yes {condition yes no : Exp} : Exp.Holds part yes → Exp.Holds part (.ternary condition yes no)
  | no {condition yes no : Exp} : Exp.Holds part no → Exp.Holds part (.ternary condition yes no)

namespace Action

/-- The value that an action writes to a variable or through an access path. -/
def written? : Action → Option Exp
  | .declare _ _ init => init
  | .assign _ value => some value
  | .store _ value => some value
  | _ => none

/-- The call is the action itself, or may be the value that it writes. -/
inductive Makes (a : Action) (v : Invocation) : Prop where
  | call {ret : Option String} : a = .call ret v → Makes a v
  | value {e : Exp} : a.written? = some e → Exp.Holds (.call v.func v.args v.receiver) e → Makes a v

end Action

theorem Summary.mem_fieldsWrittenFrom {s : Summary} {k : Nat} {field : Symbol} :
    field ∈ s.fieldsWrittenFrom k ↔ ∃ positions, (field, positions) ∈ s.stores ∧ k ∈ positions := by
  simp only [fieldsWrittenFrom, sortSymbols, List.mem_mergeSort, List.mem_map, List.mem_filter,
    List.any_eq_true, decide_eq_true_eq, Int.natCast_inj, exists_eq_right, Prod.exists,
    exists_and_right]

namespace Sweep

mutual

theorem holds_of_mem_valueParts (e : Exp) {part : Exp} (h : part ∈ valueParts e) :
    Exp.Holds part e := by
  cases e with
  | aggregate elements =>
    rw [valueParts] at h
    obtain ⟨e, he, hpart⟩ := holds_of_mem_valuePartsAll elements h
    exact .element he hpart
  | ternary condition yes no =>
    rw [valueParts, List.mem_append] at h
    rcases h with h | h
    · exact .yes (holds_of_mem_valueParts yes h)
    · exact .no (holds_of_mem_valueParts no h)
  | var name =>
    rw [valueParts, List.mem_singleton] at h
    exact h ▸ .here
  | field base name =>
    rw [valueParts, List.mem_singleton] at h
    exact h ▸ .here
  | index base key =>
    rw [valueParts, List.mem_singleton] at h
    exact h ▸ .here
  | call func args receiver =>
    rw [valueParts, List.mem_singleton] at h
    exact h ▸ .here
  | _ => simp [valueParts] at h

theorem holds_of_mem_valuePartsAll (es : List Exp) {part : Exp} (h : part ∈ valuePartsAll es) :
    ∃ e ∈ es, Exp.Holds part e := by
  cases es with
  | nil => simp [valuePartsAll] at h
  | cons e es =>
    rw [valuePartsAll, List.mem_append] at h
    rcases h with h | h
    · exact ⟨e, List.mem_cons_self, holds_of_mem_valueParts e h⟩
    · obtain ⟨e', he', hpart⟩ := holds_of_mem_valuePartsAll es h
      exact ⟨e', List.mem_cons_of_mem e he', hpart⟩

end

/-! ### Justifications -/

/-- On the table a field is read after the hand-off before it is replaced. -/
def LiveOn (w : Sweep) (u : SummaryTable) (x : Symbol) : Prop :=
  ((Liveness.isReadBeforeReset w.context x w.procedure.name (some w.point.statement) true).run
    u).1 = true

/-- Why a symbol may be reported at a statement. -/
inductive Justifies (w : Sweep) (u : SummaryTable) (st : StatementId × Instr) (x : Symbol) :
    Prop where
  /-- The live field is what the hand-off itself gives away. -/
  | handOff : st.1 = w.point.statement → x = w.point.symbol → x.isField = true → w.LiveOn u x →
      Justifies w u st x
  /-- The live field may alias what is given away. -/
  | alias : x.isField = true → w.LiveOn u x →
      w.flow.flowsInto x w.point.symbol st.1 w.point.statement = true → Justifies w u st x
  /-- The argument may alias what is given away, and the callee stores it in a live field. -/
  | argument {v : Invocation} {q : Procedure} {k : Nat} {arg : Exp} {callee : Summary}
      {positions : List Nat} {field : Symbol} :
      st.2.action.Makes v → w.context.program.resolveCallee v w.procedure = some q →
        v.args[k]? = some arg → w.flow.scope.resolve arg = some x →
          w.flow.flowsInto x w.point.symbol st.1 w.point.statement = true →
            u.find? q.name = some callee → (field, positions) ∈ callee.stores → k ∈ positions →
              w.LiveOn u field → Justifies w u st x

/-- The trace of a report at a statement: the trace of the sweep, perhaps with a call in front, and
the statement as the only access. -/
def Traced (w : Sweep) (trace : Trace) (id : StatementId) (t : Trace) : Prop :=
  t = trace ∨ t = trace.insertCall w.procedure.name (w.procedure.locationOf id)

structure Justified (w : Sweep) (trace : Trace) (st : StatementId × Instr) (u : SummaryTable)
    (v : Violation) : Prop where
  place : ∃ t, w.Traced trace st.1 t ∧ v.trace = t.addAccess (w.procedure.locationOf st.1)
  reason : w.Justifies u st v.symbol

/-- From tables beyond `t` on, all that the step adds is justified, and stays so on later tables. -/
def Adds (w : Sweep) (t : SummaryTable) (J : SummaryTable → Violation → Prop) {α : Type}
    (m : M α) : Prop :=
  ∀ s a s', Sound w s → t <+: s.table → m.run.run s = (.ok a, s') → ∀ v ∈ s'.violations,
    v ∈ s.violations ∨ ∀ u, Built w.context u → s'.table <+: u → J u v

section Rules
variable {w : Sweep} {t : SummaryTable} {J : SummaryTable → Violation → Prop} {α β : Type}

theorem adds_pure (a : α) : Adds w t J (pure a) := by
  intro s b s' _ _ hrun v hv
  cases hrun
  exact Or.inl hv

theorem Adds.bind {m : M α} {k : α → M β} (hsafe : Safe w m) (hm : Adds w t J m)
    (hksafe : ∀ a, Safe w (k a)) (hk : ∀ a, Adds w t J (k a)) : Adds w t J (m >>= k) := by
  intro s b s' hs ht hrun v hv
  obtain ⟨a, s₁, hrun₁, hs₁, hext⟩ := hsafe s hs
  obtain ⟨b', s₂, hrun₂, _, hext'⟩ := hksafe a s₁ hs₁
  rw [run_bind_ok hrun₁, hrun₂] at hrun
  cases hrun
  rcases hk a s₁ b s' hs₁ (ht.trans hext.table) hrun₂ v hv with hv | hlater
  · rcases hm s a s₁ hs ht hrun₁ v hv with hv | hlater
    · exact Or.inl hv
    · exact Or.inr fun u hu hearlier => hlater u hu (hext'.table.trans hearlier)
  · exact Or.inr hlater

theorem Adds.weaken {J' : SummaryTable → Violation → Prop} {m : M α} (h : Adds w t J m)
    (hJ : ∀ u v, J u v → J' u v) : Adds w t J' m := by
  intro s a s' hs ht hrun v hv
  refine (h s a s' hs ht hrun v hv).imp_right ?_
  exact fun hlater u hu hearlier => hJ u v (hlater u hu hearlier)

/-- The step reports nothing, and its answer and the table that it leaves are related by `Q`. -/
def Answers (w : Sweep) (m : M α) (Q : α → SummaryTable → Prop) : Prop :=
  ∀ s, Sound w s → ∃ a s', m.run.run s = (.ok a, s') ∧ Sound w s' ∧ Extends s s' ∧
    s'.violations = s.violations ∧ Q a s'.table

theorem Adds.after {m : M α} {k : α → M β} {Q : α → SummaryTable → Prop} (hm : Answers w m Q)
    (hk : ∀ a u, t <+: u → Q a u → Adds w u J (k a)) : Adds w t J (m >>= k) := by
  intro s b s' hs ht hrun v hv
  obtain ⟨a, s₁, hrun₁, hs₁, hext, hquiet, hQ⟩ := hm s hs
  rw [run_bind_ok hrun₁] at hrun
  rw [← hquiet]
  exact hk a s₁.table (ht.trans hext.table) hQ s₁ b s' hs₁ List.prefix_rfl hrun v hv

theorem answers_rule (hpass : w.pass = .givesUp) : Answers w w.rule fun _ _ => True := by
  intro s hs
  unfold rule
  rw [hpass, if_neg (by decide)]
  exact ⟨(), s, rfl, hs, .rfl s, rfl, trivial⟩

/-- The symbol is live on the table, and on every later one. -/
def Settled (w : Sweep) (u : SummaryTable) (x : Symbol) : Prop := (w.query x).run u = (true, u)

theorem Settled.liveOn (hc : w.context.Coherent) {x : Symbol} {u u' : SummaryTable}
    (h : w.Settled u x) (hu' : Built w.context u') (hearlier : u <+: u') : w.LiveOn u' x := by
  have hagain := (steady_query hc x).repeats u u' hu'
  unfold Settled at h
  rw [h] at hagain
  exact congrArg Prod.fst (hagain hearlier)

theorem answers_isLive (hc : w.context.Coherent) (x : Symbol) :
    Answers w (w.isLive x) fun b u => b = true → w.Settled u x := by
  intro s hs
  obtain ⟨b, s', hrun, hs', hext, hasked⟩ := isLive_run hc x hs
  have hquiet : ((w.isLive x).run.run s).2.violations = s.violations := by
    have hget : (get : M State).run.run s = (.ok s, s) := rfl
    rw [isLive, run_bind_ok hget]
    cases hx : s.live.lookup x <;> rfl
  rw [hrun] at hquiet
  refine ⟨b, s', hrun, hs', hext, hquiet, ?_⟩
  rintro rfl
  exact hasked

theorem answers_anyLive (hc : w.context.Coherent) (xs : List Symbol) :
    Answers w (w.anyLive xs) fun b u => b = true → ∃ x ∈ xs, w.Settled u x := by
  induction xs with
  | nil =>
    intro s hs
    exact ⟨false, s, rfl, hs, .rfl s, rfl, by simp⟩
  | cons x xs ih =>
    intro s hs
    obtain ⟨b, s₁, hrun₁, hs₁, hext₁, hquiet₁, hlive⟩ := answers_isLive hc x s hs
    rw [anyLive, run_bind_ok hrun₁]
    cases b with
    | true =>
      exact ⟨true, s₁, rfl, hs₁, hext₁, hquiet₁, fun _ => ⟨x, List.mem_cons_self, hlive rfl⟩⟩
    | false =>
      obtain ⟨b, s₂, hrun₂, hs₂, hext₂, hquiet₂, hsome⟩ := ih s₁ hs₁
      refine ⟨b, s₂, hrun₂, hs₂, hext₁.trans hext₂, hquiet₂.trans hquiet₁, fun hb => ?_⟩
      obtain ⟨y, hy, hlive⟩ := hsome hb
      exact ⟨y, List.mem_cons_of_mem x hy, hlive⟩

theorem answers_request (hc : w.context.Coherent) {name : String} {p : Procedure}
    (hp : w.context.program.find? name = some p) :
    Answers w (withTable (SummaryTable.request w.context name)) fun a u =>
      u.find? name = some a := by
  intro s hs
  obtain ⟨a, s', hrun, hs', hext⟩ := safe_withTable hc (.request hc name) s hs
  cases hrun
  refine ⟨_, _, rfl, hs', hext, rfl, ?_⟩
  obtain ⟨entry, hentry⟩ := SummaryTable.contains_iff.mp
    (SummaryTable.contains_of_request hc hp s.table)
  have hanswer := (SummaryTable.request_served hc name s.table).answers
  rw [SummaryTable.answer_of_find? hentry] at hanswer
  exact hentry.trans (congrArg some hanswer.symm)

end Rules

/-! ### Sweeps add only what is justified -/

section Sweeps
variable {w : Sweep} (hc : w.context.Coherent) (hpass : w.pass = .givesUp) {t : SummaryTable}
  {trace trace' : Trace} {st : StatementId × Instr} (htrace : w.Traced trace st.1 trace')

include htrace

theorem adds_report {x : Symbol}
    (hx : ∀ u, Built w.context u → t <+: u → w.Justifies u st x) :
    Adds w t (w.Justified trace st) (w.report trace' st.1 x) := by
  intro s a s' _ ht hrun v hv
  cases hrun
  rcases List.mem_append.mp hv with hv | hv
  · exact Or.inl hv
  · refine Or.inr fun u hu hearlier => ?_
    rw [List.mem_singleton.mp hv]
    exact ⟨⟨trace', htrace, rfl⟩, hx u hu (ht.trans hearlier)⟩

include hc

theorem adds_live {x : Symbol} (hx : ∀ u, w.LiveOn u x → w.Justifies u st x) :
    Adds w t (w.Justified trace st)
      (w.isLive x >>= fun b => if b then w.report trace' st.1 x else pure ()) := by
  refine .after (answers_isLive hc x) ?_
  intro b u _ hlive
  cases b with
  | true =>
    exact adds_report htrace fun u' hu' hearlier => hx u' ((hlive rfl).liveOn hc hu' hearlier)
  | false => exact adds_pure ()

theorem adds_check (x : Symbol) :
    Adds w t (w.Justified trace st) (w.check trace' st.1 x) := by
  unfold check
  split
  · rename_i hcond
    rw [Bool.and_eq_true] at hcond
    exact adds_live hc htrace fun u hlive => .alias hcond.2 hlive hcond.1
  · exact adds_pure ()

theorem adds_checkAll (xs : List Symbol) :
    Adds w t (w.Justified trace st) (w.checkAll trace' st.1 xs) := by
  induction xs with
  | nil => exact adds_pure ()
  | cons x xs ih =>
    exact (adds_check hc htrace x).bind (safe_check hc _ _ x) (fun _ => safe_checkAll hc _ _ xs)
      fun _ => ih

/-- An argument is reported only if the callee, whose summary is in the table, stores it in a live
field. -/
theorem adds_checkArguments {v : Invocation} (hv : st.2.action.Makes v) {q : Procedure}
    (hq : w.context.program.resolveCallee v w.procedure = some q) {callee : Summary}
    (hcallee : t.find? q.name = some callee) {args : List (Exp × Nat)}
    (hargs : ∀ x ∈ args, v.args[x.2]? = some x.1) :
    Adds w t (w.Justified trace st) (w.checkArguments trace' st.1 callee args) := by
  induction args generalizing t with
  | nil => exact adds_pure ()
  | cons arg args ih =>
    obtain ⟨e, k⟩ := arg
    have hrest : ∀ x ∈ args, v.args[x.2]? = some x.1 :=
      fun x hx => hargs x (List.mem_cons_of_mem _ hx)
    have hsafe := safe_checkArguments hc trace' st.1 callee args
    have hskip : Adds w t (w.Justified trace st)
        (pure () >>= fun _ => w.checkArguments trace' st.1 callee args) :=
      (adds_pure ()).bind (safe_pure ()) (fun _ => hsafe) fun _ => ih hcallee hrest
    unfold checkArguments
    split
    · exact hskip
    · rename_i x hx
      split
      · rename_i hreach
        refine .after (answers_anyLive hc _) ?_
        intro b u hu hstored
        have hcallee' := SummaryTable.find?_of_earlier hu hcallee
        cases b with
        | false =>
          exact (adds_pure ()).bind (safe_pure ()) (fun _ => hsafe) fun _ => ih hcallee' hrest
        | true =>
          refine (adds_report htrace ?_).bind (safe_report _ _ x) (fun _ => hsafe)
            fun _ => ih hcallee' hrest
          intro u' hu' hearlier
          obtain ⟨field, hfield, hlive⟩ := hstored rfl
          obtain ⟨positions, hpositions, hk⟩ := Summary.mem_fieldsWrittenFrom.mp hfield
          exact .argument hv hq (hargs _ List.mem_cons_self) hx hreach
            (SummaryTable.find?_of_earlier hearlier hcallee') hpositions hk
            (hlive.liveOn hc hu' hearlier)
      · exact hskip

include hpass

theorem adds_followCall {v : Invocation} (hv : st.2.action.Makes v) :
    Adds w t (w.Justified trace st) (w.followCall trace' st.1 v) := by
  unfold followCall
  split
  · exact adds_pure _
  · rename_i q hq
    refine .after (answers_request hc (Context.find?_self_of_resolveCallee hq)) ?_
    intro callee u _ hcallee
    have hargs : ∀ x ∈ v.args.zipIdx, v.args[x.2]? = some x.1 := fun x hx =>
      List.mem_zipIdx_iff_getElem?.mp hx
    refine .after (answers_rule hpass) fun _ u' hu' _ => ?_
    have hcallee' := SummaryTable.find?_of_earlier hu' hcallee
    exact (adds_checkArguments hc htrace hv hq hcallee' hargs).bind
      (safe_checkArguments hc _ _ _ _) (fun _ => safe_pure _) fun _ => adds_pure _

theorem adds_checkCall {v : Invocation} (hv : st.2.action.Makes v) :
    Adds w t (w.Justified trace st) (w.checkCall trace' st.1 v) :=
  (adds_followCall hc hpass htrace hv).bind (safe_followCall hc hpass _ _ v)
    (fun _ => safe_checkAll hc _ _ _) fun _ => adds_checkAll hc htrace _

end Sweeps

section Statements
variable {w : Sweep} (hc : w.context.Coherent) (hpass : w.pass = .givesUp) {t : SummaryTable}
  {trace : Trace} {st : StatementId × Instr}
include hc hpass

theorem adds_checkPart {e : Exp}
    (he : ∀ func args receiver, e = .call func args receiver →
      st.2.action.Makes ⟨func, args, receiver⟩) :
    Adds w t (w.Justified trace st) (w.checkPart trace st.1 e) := by
  unfold checkPart
  split
  · exact adds_checkCall hc hpass (Or.inr rfl) (he _ _ _ rfl)
  · exact adds_checkAll hc (Or.inl rfl) _

theorem adds_checkParts {es : List Exp}
    (hes : ∀ func args receiver, .call func args receiver ∈ es →
      st.2.action.Makes ⟨func, args, receiver⟩) :
    Adds w t (w.Justified trace st) (w.checkParts trace st.1 es) := by
  induction es with
  | nil => exact adds_pure ()
  | cons e es ih =>
    refine (adds_checkPart hc hpass ?_).bind (safe_checkPart hc hpass _ _ e)
      (fun _ => safe_checkParts hc hpass _ _ es) fun _ => ih ?_
    · rintro func args receiver rfl
      exact hes func args receiver List.mem_cons_self
    · intro func args receiver hmem
      exact hes func args receiver (List.mem_cons_of_mem e hmem)

theorem adds_checkAssignment {value : Exp} (hvalue : st.2.action.written? = some value)
    (written : Option Symbol) :
    Adds w t (w.Justified trace st) (w.checkAssignment trace st.1 written value) := by
  refine .after (answers_rule hpass) fun _ u _ _ => ?_
  refine (adds_checkAll hc (Or.inl rfl) _).bind (safe_checkAll hc _ _ _)
    (fun _ => safe_checkParts hc hpass _ _ _) fun _ => ?_
  apply adds_checkParts hc hpass
  intro func args receiver hmem
  exact .value hvalue (holds_of_mem_valueParts value hmem)

theorem adds_checkHandOff : Adds w t (w.Justified trace st) (w.checkHandOff trace st.1) := by
  refine .after (answers_rule hpass) fun _ u _ _ => ?_
  split
  · rename_i hcond
    rw [Bool.and_eq_true, decide_eq_true_eq] at hcond
    exact adds_live hc (Or.inl rfl) fun u hlive => .handOff hcond.1 rfl hcond.2 hlive
  · exact adds_pure ()

theorem adds_checkStatement :
    Adds w t (w.Justified trace st) (w.checkStatement trace st.1 st.2.action) := by
  cases haction : st.2.action with
  | declare name type init =>
    cases init with
    | none => exact adds_pure ()
    | some init => exact adds_checkAssignment hc hpass (by rw [haction, Action.written?]) _
  | assign name value => exact adds_checkAssignment hc hpass (by rw [haction, Action.written?]) _
  | store target value => exact adds_checkAssignment hc hpass (by rw [haction, Action.written?]) _
  | handOff ret v givenUp description => exact adds_checkHandOff hc hpass
  | call ret v =>
    rw [checkStatement]
    split
    · exact adds_checkHandOff hc hpass
    · exact adds_checkCall hc hpass (Or.inl rfl) (.call haction)
  | assume_ condition holds kind => exact adds_pure ()
  | return_ value => exact adds_pure ()
  | unspecified => exact adds_pure ()

/-- Whatever statements are checked, one of them justifies each violation. -/
theorem adds_checkStatements (sts : List (StatementId × Instr)) :
    Adds w t (fun u v => ∃ st ∈ sts, w.Justified trace st u v) (w.checkStatements trace sts) := by
  induction sts with
  | nil => exact adds_pure ()
  | cons st sts ih =>
    have hfirst : Adds w t (fun u v => ∃ st' ∈ st :: sts, w.Justified trace st' u v)
        (w.checkStatement trace st.1 st.2.action) :=
      (adds_checkStatement hc hpass).weaken fun u v h => ⟨st, List.mem_cons_self, h⟩
    have hrest : Adds w t (fun u v => ∃ st' ∈ st :: sts, w.Justified trace st' u v)
        (w.checkStatements trace sts) := by
      apply ih.weaken
      rintro u v ⟨st', hst', h⟩
      exact ⟨st', List.mem_cons_of_mem st hst', h⟩
    exact hfirst.bind (safe_checkStatement hc hpass _ _ _)
      (fun _ => safe_checkStatements hc hpass _ sts) fun _ => hrest

theorem adds_perform :
    Adds w t (fun u v => ∃ st ∈ (Slice.of w.procedure w.point.statement).flatMap Prod.snd,
      w.Justified trace st u v) (w.perform trace) := by
  have hslice : ∀ u, Adds w u (fun u v =>
      ∃ st ∈ (Slice.of w.procedure w.point.statement).flatMap Prod.snd, w.Justified trace st u v)
      (do
        w.checkStatements trace ((Slice.of w.procedure w.point.statement).flatMap Prod.snd)
        return ((← get).violations, (Slice.of w.procedure w.point.statement).map Prod.fst) :
          M (List Violation × List Int)) := by
    intro u
    refine (adds_checkStatements hc hpass _).bind (safe_checkStatements hc hpass _ _)
      (fun _ s hs => ⟨_, s, rfl, hs, .rfl s⟩) fun _ => ?_
    intro s a s' _ _ hrun v hv
    cases hrun
    exact Or.inl hv
  have hrequest : Answers w (withTable (SummaryTable.request w.context w.procedure.name))
      fun _ _ => True := by
    intro s hs
    obtain ⟨a, s', hrun, hs', hext⟩ := safe_withTable hc (.request hc w.procedure.name) s hs
    cases hrun
    exact ⟨_, _, rfl, hs', hext, rfl, trivial⟩
  unfold perform
  refine .after hrequest fun _ u _ _ => ?_
  split
  · exact .after (answers_isLive hc _) fun _ u' _ _ => hslice u'
  · exact hslice u

end Statements

end Sweep

/-! ### Runs -/

theorem HandOffPoint.of_sweep {h : HandOffPoint} {c : Context} {pass : Pass} {w : Sweep}
    (hw : h.sweep c pass = .ok w) :
    w.context = c ∧ w.pass = pass ∧ w.point = h ∧ w.procedure.contains h.statement = true := by
  unfold sweep at hw
  split at hw
  · cases hw
  · split at hw
    · rename_i hcontains
      cases hw
      exact ⟨rfl, rfl, rfl, hcontains⟩
    · cases hw

theorem Sweep.Traced.frames {w : Sweep} {h : HandOffPoint} {id : StatementId} {t : Trace}
    (ht : w.Traced (h.initialTrace w.procedure) id t) :
    t.accesses = [] ∧
      (t.calls = [] ∨ t.calls = [(w.procedure.name, w.procedure.locationOf id)]) := by
  rcases ht with rfl | rfl
  · exact ⟨rfl, Or.inl rfl⟩
  · exact ⟨rfl, Or.inr rfl⟩

/-- The sweep of a point that it accepts gives a result, and each violation is justified by one of
the statements that it examines, all of which lead to the hand-off. -/
theorem run_justified (g : Program) (names : List String) (h : HandOffPoint) {w : Sweep}
    (hw : h.sweep (.ofProgram g) .givesUp = .ok w) :
    ∃ vs ids s', h.run (.ofProgram g) .givesUp none (.asked (.ofProgram g) names) =
      (.ok (vs, ids), s') ∧
      ∀ v ∈ vs, ∃ st ∈ (Slice.of w.procedure h.statement).flatMap Prod.snd,
        (∃ xs, Walk w.procedure w.procedure.Precedes ⟨st.1.node, st.1.index.toNat⟩ xs
          ⟨h.statement.node, h.statement.index.toNat⟩) ∧
        v.trace.accesses = [w.procedure.locationOf st.1] ∧
        (v.trace.calls = [] ∨
          v.trace.calls = [(w.procedure.name, w.procedure.locationOf st.1)]) ∧
        w.Justifies s'.table st v.symbol := by
  obtain ⟨hcontext, hpass, hpoint, hcontains⟩ := HandOffPoint.of_sweep hw
  have hc : w.context.Coherent := hcontext ▸ Context.coherent_ofProgram g
  have hsound : w.Sound { table := .asked (.ofProgram g) names } := by
    refine ⟨?_, by simp⟩
    rw [hcontext]
    exact SummaryTable.built_asked (Context.coherent_ofProgram g) names
  obtain ⟨ids, s', hrun, hswept⟩ :=
    Sweep.perform_run hc hpass (h.initialTrace w.procedure) hsound
  refine ⟨s'.violations, ids, s', ?_, ?_⟩
  · rw [HandOffPoint.run, hw]
    exact hrun
  intro v hv
  rcases Sweep.adds_perform (t := []) hc hpass _ _ _ hsound List.nil_prefix hrun v hv with
    hv | hlater
  · cases hv
  obtain ⟨st, hst, ⟨t, ht, htrace⟩, hreason⟩ := hlater s'.table hswept.sound.built List.prefix_rfl
  obtain ⟨haccesses, hcalls⟩ := ht.frames
  rw [hpoint] at hst
  refine ⟨st, hst, ?_, ?_, ?_, hreason⟩
  · obtain ⟨i, hi⟩ := Procedure.contains_iff.mp hcontains
    obtain ⟨n, j, hstatement, hj⟩ := Procedure.exists_of_instrAt? hi
    rw [hstatement] at hst ⊢
    have hlen : j ≤ (w.procedure.instrsAt n).length :=
      Nat.le_of_lt (List.getElem?_eq_some_iff.mp hj).1
    obtain ⟨m, k, heq, _, hwalk⟩ := Slice.walk_of_mem hlen hst
    rw [heq]
    simpa using hwalk
  · rw [htrace, Trace.addAccess, haccesses]
    rfl
  · rw [htrace]
    exact hcalls

/-- Keeps its parameter by a call within a list, and hands it off while the field is still read. -/
def keeper : Procedure :=
  methodOf "A.m" ["y"]
    [{ id := 0, instrs :=
        [⟨.unknown, .assign "x" (.aggregate
            [.call (.const (.text "keep")) [.var "y"] (some (.var "self"))])⟩,
          sendCall (.var "y"), printCall (selfField "f")] }]

def keeping : Program where
  procedures := [keeper, methodOf "A.keep" ["z"]
    [{ id := 0, instrs := [⟨.unknown, .store (selfField "f") (.var "z")⟩] }]]

def keptPoint : HandOffPoint := ⟨⟨"y", .parameter, "A.m"⟩, ⟨"A.m", 0, 1⟩, "A.m"⟩

/-- The parameter is reported, and the list is what justifies it. -/
theorem run_justified_keeping :
    ∃ w v s', keptPoint.sweep (.ofProgram keeping) .givesUp = .ok w ∧
      keptPoint.run (.ofProgram keeping) .givesUp none [] = (.ok ([v], [0]), s') ∧
      v.symbol = ⟨"y", .parameter, "A.m"⟩ ∧
      ∃ st ∈ (Slice.of keeper keptPoint.statement).flatMap Prod.snd,
        v.trace.accesses = [keeper.locationOf st.1] ∧ w.Justifies s'.table st v.symbol := by
  have hresult : ((keptPoint.run (.ofProgram keeping) .givesUp none []).1.toOption.map fun r =>
      (r.1.map Violation.symbol, r.2)) = some ([⟨"y", .parameter, "A.m"⟩], [0]) := by
    decide +kernel
  have hw : keptPoint.sweep (.ofProgram keeping) .givesUp =
      .ok ⟨.ofProgram keeping, .givesUp, keptPoint, Flow.ofScope ⟨keeper, []⟩⟩ := rfl
  obtain ⟨vs, ids, s', hrun, hall⟩ := run_justified keeping [] keptPoint hw
  rw [SummaryTable.asked, List.foldl_nil] at hrun
  rw [hrun] at hresult
  simp only [Except.toOption, Option.map_some, Option.some.injEq, Prod.mk.injEq] at hresult
  obtain ⟨hvs, rfl⟩ := hresult
  obtain ⟨v, rfl, hv⟩ := List.map_eq_singleton_iff.mp hvs
  obtain ⟨st, hst, _, haccesses, _, hreason⟩ := hall v List.mem_cons_self
  exact ⟨_, v, s', hw, hrun, hv, st, hst, haccesses, hreason⟩

end ActorOwnership
