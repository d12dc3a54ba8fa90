import ActorOwnership.Proofs.Incoming
import ActorOwnership.Proofs.Request

/-! What summaries say of positions, in terms of chains of calls. In a program without recursion a
position is summarised as given up, or as stored in a field, exactly if the value that comes in
there is passed on from call to call until a statement hands it off, or stores it. -/

namespace ActorOwnership
set_option autoImplicit false

/-! ### Chains -/

namespace Flow

/-- The statement hands off what comes in at a position. -/
def HandsOffAt (f : Flow) (st : StatementId × Instr) (i : Nat) : Prop :=
  ∃ part ∈ st.2.action.givenUpArgs.flatMap Summary.handedParts,
    f.HasIncoming (f.valueSetOf part st.1) i

/-- The statement writes a field, strongly or weakly, with what comes in at a position. -/
def StoresAt (f : Flow) (field : Symbol) (st : StatementId × Instr) (i : Nat) : Prop :=
  field.isField = true ∧ ∃ e ∈ f.scope.effectsOf st.2.action, e.symbol = field ∧
    f.HasIncoming (f.origins.of ⟨field, some st.1⟩) i

def isAnyCall (_ : Flow) (_ : Invocation) : Bool := true

def isOwnCall (f : Flow) (v : Invocation) : Bool := v.receiver.any f.scope.isSelf

end Flow

namespace Context

/-- A call in `a.1`, one of those that count, passes what comes in at position `a.2` on as argument
`b.2` of `b.1`. -/
def PassesOn (c : Context) (counts : Flow → Invocation → Bool) (a b : String × Nat) : Prop :=
  ∃ f st v q arg, c.flow? a.1 = some f ∧ st ∈ f.scope.procedure.statements ∧
    c.callAt? f st.2 = some (v, q) ∧ counts f v = true ∧ q.name = b.1 ∧
    v.args[b.2]? = some arg ∧ f.HasIncoming (f.valueSetOf arg st.1) a.2

/-- No procedure calls itself, directly or by way of others. -/
def Acyclic (c : Context) : Prop := ∀ name, ¬ Relation.TransGen c.Calls name name

/-- Procedures that can be ranked so that calls go up do not call themselves. -/
theorem acyclic_of_rank {g : Program} (rank : String → Nat)
    (h : ∀ p ∈ g.procedures, ∀ st ∈ p.statements, ∀ v, st.2.action.invocation? = some v →
      ∀ q, g.resolveCallee v p = some q → rank p.name < rank q.name) :
    (Context.ofProgram g).Acyclic := by
  have hcall : ∀ a b, (Context.ofProgram g).Calls a b → rank a < rank b := by
    rintro a b ⟨f, hflow, hb⟩
    obtain ⟨p, hp, rfl⟩ := (coherent_ofProgram g).flow?_eq_some.mp hflow
    obtain ⟨st, hst, hname⟩ := List.mem_filterMap.mp hb
    obtain ⟨⟨v, q⟩, hcall, rfl⟩ := Option.map_eq_some_iff.mp hname
    obtain ⟨v', hv, hq⟩ := Option.bind_eq_some_iff.mp hcall
    obtain ⟨q', hq, heq⟩ := Option.map_eq_some_iff.mp hq
    cases heq
    rw [← Program.find?_name hp]
    exact h p (List.mem_of_find?_eq_some hp) st hst v hv q hq
  have hrank : ∀ a b, Relation.TransGen (Context.ofProgram g).Calls a b → rank a < rank b := by
    intro a b hab
    induction hab with
    | single h => exact hcall _ _ h
    | tail _ h ih => exact Nat.lt_trans ih (hcall _ _ h)
  intro name hname
  exact Nat.lt_irrefl _ (hrank name name hname)

/-- In particular if names get longer along the calls, which can be checked. -/
theorem acyclic_of_lengths {g : Program}
    (h : (g.procedures.all fun p => p.statements.all fun st =>
      st.2.action.invocation?.all fun v => (g.resolveCallee v p).all fun q =>
        p.name.length < q.name.length) = true) : (Context.ofProgram g).Acyclic := by
  apply acyclic_of_rank String.length
  simp only [List.all_eq_true, Option.all_eq_true, decide_eq_true_eq] at h
  exact h

/-- A chain of calls passes what comes in at a position on to a statement that does something with
it. -/
def ChainTo (c : Context) (counts : Flow → Invocation → Bool)
    (here : Flow → StatementId × Instr → Nat → Prop) (a : String × Nat) : Prop :=
  ∃ b f st, Relation.ReflTransGen (c.PassesOn counts) a b ∧ c.flow? b.1 = some f ∧
    st ∈ f.scope.procedure.statements ∧ here f st b.2

end Context

/-! ### What statements and calls add -/

section Folds
variable {α β γ : Type} {step : β → α → β}

theorem foldl_keeps {f : β → γ} (h : ∀ s x, f (step s x) = f s) (xs : List α) (s : β) :
    f (xs.foldl step s) = f s := by
  induction xs generalizing s with
  | nil => rfl
  | cons x xs ih => rw [List.foldl_cons, ih, h]

theorem foldl_iff {P : β → Prop} {A : α → Prop} {xs : List α}
    (h : ∀ s, ∀ x ∈ xs, P (step s x) ↔ P s ∨ A x) (s : β) :
    P (xs.foldl step s) ↔ P s ∨ ∃ x ∈ xs, A x := by
  induction xs generalizing s with
  | nil => simp
  | cons x xs ih =>
    rw [List.foldl_cons, ih fun s y hy => h s y (List.mem_cons_of_mem x hy),
      h s x List.mem_cons_self, or_assoc, List.exists_mem_cons_iff]

end Folds

namespace Summary

/-- A property of positions that spreads from callees to callers: a summary has it for those that a
statement gives it to, and for those whose values calls pass on to positions that have it. -/
structure Spreads (counts : Flow → Invocation → Bool)
    (here : Flow → StatementId × Instr → Nat → Prop) (has : Summary → Nat → Prop) : Prop where
  blank : ∀ p i, ¬ has (blank p) i
  resets : ∀ s xs i, has { s with resets := xs } i ↔ has s i
  statement : ∀ (sc : Scope) (s : Summary), ∀ st ∈ sc.procedure.statements, ∀ i,
    has (s.addStatement (.ofScope sc) st.1 st.2.action) i ↔ has s i ∨ here (.ofScope sc) st i
  callee : ∀ (sc : Scope) s id v callee i, has (addCallee s (.ofScope sc) id v callee) i ↔
    has s i ∨ counts (.ofScope sc) v = true ∧ ∃ k arg, has callee k ∧ v.args[k]? = some arg ∧
      (Flow.ofScope sc).HasIncoming ((Flow.ofScope sc).valueSetOf arg id) i

variable {flow : Flow}

theorem fact?_of_mem {sc : Scope} {st : StatementId × Instr} (h : st ∈ sc.procedure.statements) :
    (Flow.ofScope sc).fact? st.1 = some (Fact.ofStatement sc st) := by
  rw [Flow.fact?_ofScope, Procedure.mem_statements.mp h, Option.map_some]

theorem givenUpParams_addEffects (s : Summary) (f : Fact) :
    (s.addEffects flow f).givenUpParams = s.givenUpParams := by
  apply foldl_keeps
  intro s e
  simp only [addEffect, addStore]
  split <;> split <;> rfl

theorem givenUpParams_addReads (s : Summary) (f : Fact) :
    (s.addReads f).givenUpParams = s.givenUpParams := by
  apply foldl_keeps
  intro s x
  rfl

/-- Positions of a callee, seen from the arguments of a call. -/
theorem mem_passed {sc : Scope} {v : Invocation} {positions : List Nat} {id : StatementId}
    {i : Nat} :
    i ∈ (positions.filterMap fun k => v.args[k]?).flatMap (positionsOf (.ofScope sc) id) ↔
      ∃ k arg, k ∈ positions ∧ v.args[k]? = some arg ∧
        (Flow.ofScope sc).HasIncoming ((Flow.ofScope sc).valueSetOf arg id) i := by
  rw [List.mem_flatMap]
  constructor
  · rintro ⟨arg, harg, hi⟩
    obtain ⟨k, hk, harg⟩ := List.mem_filterMap.mp harg
    exact ⟨k, arg, hk, harg, Flow.mem_positionsOf.mp hi⟩
  · rintro ⟨k, arg, hk, harg, hi⟩
    exact ⟨arg, List.mem_filterMap.mpr ⟨k, hk, harg⟩, Flow.mem_positionsOf.mpr hi⟩

theorem mem_addGivenUp {s : Summary} {id : StatementId} {parts : List Exp} {i : Nat} :
    i ∈ (s.addGivenUp flow id parts).givenUpParams ↔
      i ∈ s.givenUpParams ∨ i ∈ parts.flatMap (positionsOf flow id) :=
  mem_union

theorem spreads_givenUp :
    Spreads Flow.isAnyCall Flow.HandsOffAt fun s i => i ∈ s.givenUpParams where
  blank p i := List.not_mem_nil
  resets s xs i := Iff.rfl
  statement sc s st hst i := by
    simp only [addStatement, fact?_of_mem hst]
    have hown : ((s.addReads (.ofStatement sc st)).addEffects (.ofScope sc)
        (.ofStatement sc st)).givenUpParams = s.givenUpParams := by
      rw [givenUpParams_addEffects, givenUpParams_addReads]
    cases haction : st.2.action with
    | handOff ret v givenUp description =>
      simp only [mem_addGivenUp, hown, Flow.HandsOffAt, haction, positionsOf, List.mem_flatMap,
        Flow.mem_positionsOf]
    | return_ value =>
      cases value <;> simp [Flow.HandsOffAt, haction, Action.givenUpArgs, addReturn, hown]
    | _ => simp [Flow.HandsOffAt, haction, Action.givenUpArgs, hown]
  callee sc s id v callee i := by
    have hkeep : (s.addCallee (.ofScope sc) id v callee).givenUpParams =
        (s.addGivenUp (.ofScope sc) id
          (callee.givenUpParams.filterMap fun k => v.args[k]?)).givenUpParams := by
      simp only [addCallee]
      split
      · apply foldl_keeps
        intro s x
        unfold addStore
        split <;> rfl
      · rfl
    simp only [hkeep, mem_addGivenUp, mem_passed, Flow.isAnyCall, true_and]

/-- What comes in at a position may be stored in a field. -/
def Stores (field : Symbol) (s : Summary) (i : Nat) : Prop :=
  ∃ positions, (field, positions) ∈ s.stores ∧ i ∈ positions

theorem stores_addStore {x field : Symbol} {s : Summary} {positions : List Nat} {i : Nat} :
    (s.addStore x positions).Stores field i ↔ s.Stores field i ∨ x = field ∧ i ∈ positions := by
  unfold addStore
  split
  · rename_i hnil
    simp [List.isEmpty_iff.mp hnil]
  unfold Stores updateEntry
  split
  · rename_i hany
    constructor
    · rintro ⟨ps, hps, hi⟩
      obtain ⟨entry, hentry, heq⟩ := List.mem_map.mp hps
      split at heq
      · rename_i hkey
        cases heq
        rcases mem_union.mp hi with hi | hi
        · exact Or.inl ⟨entry.2, hentry, hi⟩
        · exact Or.inr ⟨(eq_of_beq hkey).symm, hi⟩
      · exact Or.inl ⟨ps, heq ▸ hentry, hi⟩
    · rintro (⟨ps, hps, hi⟩ | ⟨rfl, hi⟩)
      · by_cases hkey : field = x
        · refine ⟨union ps positions, List.mem_map.mpr ⟨_, hps, ?_⟩, mem_union.mpr (Or.inl hi)⟩
          simp [hkey]
        · refine ⟨ps, List.mem_map.mpr ⟨_, hps, ?_⟩, hi⟩
          simp [hkey]
      · obtain ⟨entry, hentry, hkey⟩ := List.any_eq_true.mp hany
        refine ⟨union entry.2 positions, List.mem_map.mpr ⟨entry, hentry, ?_⟩,
          mem_union.mpr (Or.inr hi)⟩
        rw [if_pos hkey, eq_of_beq hkey]
  · constructor
    · rintro ⟨ps, hps, hi⟩
      rcases List.mem_append.mp hps with hps | hps
      · exact Or.inl ⟨ps, hps, hi⟩
      · cases List.mem_singleton.mp hps
        exact Or.inr ⟨rfl, by simpa using hi⟩
    · rintro (⟨ps, hps, hi⟩ | ⟨rfl, hi⟩)
      · exact ⟨ps, List.mem_append.mpr (Or.inl hps), hi⟩
      · exact ⟨_, List.mem_append.mpr (Or.inr List.mem_cons_self), mem_union.mpr (Or.inr hi)⟩

theorem stores_addEffects {field : Symbol} {s : Summary} {f : Fact} {i : Nat} :
    (s.addEffects flow f).Stores field i ↔ s.Stores field i ∨
      field.isField = true ∧ ∃ e ∈ f.effects, e.symbol = field ∧
        i ∈ flow.parameterPositions (flow.origins.of ⟨field, some f.statement⟩) := by
  have hstep : ∀ s e, (addEffect flow f.statement s e).Stores field i ↔ s.Stores field i ∨
      e.symbol = field ∧
        i ∈ flow.parameterPositions (flow.origins.of ⟨e.symbol, some f.statement⟩) := by
    intro s e
    have hwrite : (if e.strong then
        { s with fieldWrites := updateEntry s.fieldWrites e.symbol [] (· ++ [f.statement]) }
      else s).Stores field i ↔ s.Stores field i := by
      split <;> rfl
    rw [addEffect, stores_addStore, hwrite]
  unfold addEffects
  rw [foldl_iff (P := fun s => s.Stores field i) fun s e _ => hstep s e]
  refine or_congr_right ⟨?_, ?_⟩
  · rintro ⟨e, he, rfl, hi⟩
    obtain ⟨he, hfield⟩ := List.mem_filter.mp he
    exact ⟨hfield, e, he, rfl, hi⟩
  · rintro ⟨hfield, e, he, rfl, hi⟩
    exact ⟨e, List.mem_filter.mpr ⟨he, hfield⟩, rfl, hi⟩

theorem stores_addReads (s : Summary) (f : Fact) : (s.addReads f).stores = s.stores := by
  apply foldl_keeps
  intro s x
  rfl

theorem spreads_stores (field : Symbol) :
    Spreads Flow.isOwnCall (fun f => f.StoresAt field) (Stores field) where
  blank p i := by
    rintro ⟨ps, hps, _⟩
    cases hps
  resets s xs i := Iff.rfl
  statement sc s st hst i := by
    simp only [addStatement, fact?_of_mem hst]
    have hown : ((s.addReads (.ofStatement sc st)).addEffects (.ofScope sc)
        (.ofStatement sc st)).Stores field i ↔
          s.Stores field i ∨ (Flow.ofScope sc).StoresAt field st i := by
      have hreads : (s.addReads (.ofStatement sc st)).Stores field i ↔ s.Stores field i := by
        rw [Stores, stores_addReads]
        rfl
      rw [stores_addEffects, hreads]
      refine or_congr_right (and_congr_right fun _ => exists_congr fun e => ?_)
      refine and_congr_right fun he => and_congr_right ?_
      rintro rfl
      exact Flow.mem_positions_of_effect he
    cases st.2.action with
    | return_ value => cases value <;> exact hown
    | _ => exact hown
  callee sc s id v callee i := by
    have hgiven : (s.addGivenUp (.ofScope sc) id
        (callee.givenUpParams.filterMap fun k => v.args[k]?)).Stores field i ↔ s.Stores field i :=
      Iff.rfl
    simp only [addCallee, Flow.isOwnCall]
    split
    · rename_i hself
      refine (foldl_iff (P := (Stores field · i)) (fun _ x _ => ?_) _).trans
        (or_congr hgiven (b := ∃ x ∈ callee.stores, x.1 = field ∧ ∃ k arg, k ∈ x.2 ∧
          v.args[k]? = some arg ∧
            (Flow.ofScope sc).HasIncoming ((Flow.ofScope sc).valueSetOf arg id) i) ⟨?_, ?_⟩)
      · rw [stores_addStore, mem_passed]
      · rintro ⟨⟨x, ps⟩, hps, rfl, k, arg, hk, hi⟩
        exact ⟨hself, k, arg, ⟨ps, hps, hk⟩, hi⟩
      · rintro ⟨_, k, arg, ⟨ps, hps, hk⟩, hi⟩
        exact ⟨(field, ps), hps, rfl, k, arg, hk, hi⟩
    · rename_i hself
      rw [hgiven]
      exact ⟨Or.inl, fun h => h.resolve_right fun h => hself h.1⟩

/-! ### Summaries of procedures -/

namespace Spreads
variable {counts : Flow → Invocation → Bool} {here : Flow → StatementId × Instr → Nat → Prop}
  {has : Summary → Nat → Prop} {c : Context}

/-- What one statement adds, be it by itself or by its call. -/
def Adds (c : Context) (counts : Flow → Invocation → Bool)
    (here : Flow → StatementId × Instr → Nat → Prop) (has : String → Nat → Prop) (f : Flow)
    (i : Nat) (st : StatementId × Instr) : Prop :=
  here f st i ∨ ∃ v q k arg, c.callAt? f st.2 = some (v, q) ∧ counts f v = true ∧ has q.name k ∧
    v.args[k]? = some arg ∧ f.HasIncoming (f.valueSetOf arg st.1) i

theorem gatherStep_iff (h : Spreads counts here has) {sc : Scope} {answer : String → Summary}
    {st : StatementId × Instr} (hst : st ∈ sc.procedure.statements) (x : Summary × List Symbol)
    (i : Nat) :
    has (gatherStep c (.ofScope sc) answer x st).1 i ↔
      has x.1 i ∨ Adds c counts here (fun q => has (answer q)) (.ofScope sc) i st := by
  unfold Adds
  cases hcall : c.callAt? (.ofScope sc) st.2 with
  | none =>
    rw [gatherStep_plain hcall, h.statement sc _ st hst]
    simp
  | some w =>
    obtain ⟨v, q⟩ := w
    rw [gatherStep_call hcall, h.callee, h.statement sc _ st hst, or_assoc]
    refine or_congr_right (or_congr_right ⟨?_, ?_⟩)
    · rintro ⟨hcounts, k, arg, hk⟩
      exact ⟨v, q, k, arg, rfl, hcounts, hk⟩
    · rintro ⟨v', q', k, arg, heq, hcounts, hk⟩
      cases heq
      exact ⟨hcounts, k, arg, hk⟩

theorem buildWith_iff (h : Spreads counts here has) (sc : Scope) (answer : String → Summary)
    (i : Nat) :
    has (buildWith c (.ofScope sc) answer) i ↔ ∃ st ∈ sc.procedure.statements,
      Adds c counts here (fun q => has (answer q)) (.ofScope sc) i st := by
  rw [buildWith, h.resets]
  refine (foldl_iff (P := fun x : Summary × List Symbol => has x.1 i) ?_ _).trans
    (or_iff_right (h.blank sc.procedure i))
  intro x st hst
  exact h.gatherStep_iff hst x i

/-- A statement of a procedure adds a position exactly if it does something with it itself, or
passes it on to a position that its callee has. -/
theorem exists_adds_iff {name : String} {f : Flow} (hflow : c.flow? name = some f)
    {has : String → Nat → Prop} {i : Nat} :
    (∃ st ∈ f.scope.procedure.statements, Adds c counts here has f i st) ↔
      (∃ st ∈ f.scope.procedure.statements, here f st i) ∨
        ∃ b, c.PassesOn counts (name, i) b ∧ has b.1 b.2 := by
  constructor
  · rintro ⟨st, hst, hhere | ⟨v, q, k, arg, hcall, hcounts, hk, harg, hi⟩⟩
    · exact Or.inl ⟨st, hst, hhere⟩
    · exact Or.inr ⟨(q.name, k), ⟨f, st, v, q, arg, hflow, hst, hcall, hcounts, rfl, harg, hi⟩, hk⟩
  · rintro (⟨st, hst, hhere⟩ | ⟨⟨b, k⟩, ⟨f', st, v, q, arg, hflow', hst, hcall, hcounts, rfl, harg,
      hi⟩, hk⟩)
    · exact ⟨st, hst, Or.inl hhere⟩
    · obtain rfl := Option.some.inj (hflow.symm.trans hflow')
      exact ⟨st, hst, Or.inr ⟨v, q, k, arg, hcall, hcounts, hk, harg, hi⟩⟩

theorem chainTo_iff {name : String} {f : Flow} (hflow : c.flow? name = some f) {i : Nat} :
    c.ChainTo counts here (name, i) ↔ (∃ st ∈ f.scope.procedure.statements, here f st i) ∨
      ∃ b, c.PassesOn counts (name, i) b ∧ c.ChainTo counts here b := by
  constructor
  · rintro ⟨b, f', st, hchain, hflow', hst, hhere⟩
    rcases hchain.cases_head with rfl | ⟨b', hpass, hchain⟩
    · obtain rfl := Option.some.inj (hflow.symm.trans hflow')
      exact Or.inl ⟨st, hst, hhere⟩
    · exact Or.inr ⟨b', hpass, b, f', st, hchain, hflow', hst, hhere⟩
  · rintro (⟨st, hst, hhere⟩ | ⟨b', hpass, b, f', st, hchain, hrest⟩)
    · exact ⟨(name, i), f, st, .refl, hflow, hst, hhere⟩
    · exact ⟨b, f', st, .head hpass hchain, hrest⟩

theorem calls_of_passesOn {a b : String × Nat} (h : c.PassesOn counts a b) : c.Calls a.1 b.1 := by
  obtain ⟨f, st, v, q, arg, hflow, hst, hcall, _, hname, _⟩ := h
  exact ⟨f, hflow, hname ▸ Context.name_mem_calleesOf hst hcall⟩

/-- Without recursion the entries of a table are right, since those of the callees come first. -/
theorem iff_chainTo (h : Spreads counts here has) (hc : c.Coherent)
    (hacyclic : c.Acyclic) {t : SummaryTable} (ht : SummaryTable.Built c t) {name : String}
    {s : Summary} (hs : t.find? name = some s) (i : Nat) :
    has s i ↔ c.ChainTo counts here (name, i) := by
  induction ht generalizing name s i with
  | empty => cases hs
  | @extend t last flow ht hflow hlast hcallees ih =>
    rw [SummaryTable.find?_extend hflow, Option.or_eq_some_iff] at hs
    rcases hs with hs | ⟨_, hs⟩
    · exact ih hs i
    split at hs
    · rename_i hname
      subst hname
      cases hs
      have hanswer : ∀ b, c.PassesOn counts (last, i) b →
          (has (t.answer c b.1) b.2 ↔ c.ChainTo counts here b) := by
        intro b hpass
        obtain ⟨f, hf, hb⟩ := calls_of_passesOn hpass
        obtain rfl := Option.some.inj (hflow.symm.trans hf)
        rcases hcallees b.1 hb with hin | hback
        · obtain ⟨sb, hsb⟩ := SummaryTable.contains_iff.mp hin
          rw [SummaryTable.answer_of_find? hsb]
          exact ih hsb b.2
        · exact absurd (Relation.TransGen.head' ⟨_, hflow, hb⟩ hback) (hacyclic last)
      obtain ⟨p, _, rfl⟩ := hc.flow?_eq_some.mp hflow
      rw [h.buildWith_iff, chainTo_iff hflow]
      refine (exists_adds_iff hflow).trans (or_congr_right (exists_congr fun b => ?_))
      exact and_congr_right (hanswer b)
    · cases hs

end Spreads

end Summary

/-! ### Positions in summaries -/

/-- Without recursion, a position is given up exactly if a chain of calls leads to a statement that
hands off what comes in there, and stored in a field exactly if a chain of calls on the same object
leads to one that writes it there, whatever summaries were asked for before. -/
theorem summary_iff_chain (g : Program) (hacyclic : (Context.ofProgram g).Acyclic)
    (names : List String) {name : String} {p : Procedure} (hp : g.find? name = some p) (i : Nat) :
    let c := Context.ofProgram g
    let s := ((SummaryTable.request c name).run (.asked c names)).1
    (i ∈ s.givenUpParams ↔ c.ChainTo Flow.isAnyCall Flow.HandsOffAt (name, i)) ∧
      ∀ field : Symbol, (∃ positions, (field, positions) ∈ s.stores ∧ i ∈ positions) ↔
        c.ChainTo Flow.isOwnCall (fun f => f.StoresAt field) (name, i) := by
  intro c s
  have hc : c.Coherent := Context.coherent_ofProgram g
  obtain ⟨hrequests, hanswer⟩ := SummaryTable.request_served hc name (.asked c names)
  have hbuilt := hrequests.built_outside hc (SummaryTable.built_asked hc names)
  obtain ⟨entry, hentry⟩ := SummaryTable.contains_iff.mp
    (SummaryTable.contains_of_request hc hp (.asked c names))
  have hs : s = entry := hanswer.trans (SummaryTable.answer_of_find? hentry)
  rw [hs]
  refine ⟨?_, fun field => ?_⟩
  · exact Summary.spreads_givenUp.iff_chainTo hc hacyclic hbuilt hentry i
  · exact (Summary.spreads_stores field).iff_chainTo hc hacyclic hbuilt hentry i

/-- `post` passes its parameter on, by way of a copy and at another position, to `deliver`, which
keeps it in a field and hands it off within a new message. -/
def posting : Program where
  procedures :=
    [methodOf "A.post" ["x"]
        [{ id := 0, instrs := [selfCall "relay" [.var "x"]] }],
      methodOf "A.relay" ["y"]
        [{ id := 0, instrs := [⟨.unknown, .assign "z" (.var "y")⟩,
            selfCall "deliver" [.const (.int 1), .var "z"]] }],
      methodOf "A.deliver" ["k", "w"]
        [{ id := 0, instrs := [⟨.unknown, .store (selfField "last") (.var "w")⟩,
            sendCall (.call (.var "Message") [.var "k", .var "w"] none)] }]]

theorem acyclic_posting : (Context.ofProgram posting).Acyclic :=
  Context.acyclic_of_lengths (by decide +kernel)

theorem summary_iff_chain_posting :
    ((SummaryTable.request (.ofProgram posting) "A.post").run
      (.asked (.ofProgram posting) ["A.deliver"])).1 =
        { procedure := "A.post", className := some "A",
          stores := [(⟨"last", .field, "A"⟩, [0])], givenUpParams := [0],
          resets := [⟨"last", .field, "A"⟩] } ∧
      (Context.ofProgram posting).ChainTo Flow.isAnyCall Flow.HandsOffAt ("A.post", 0) ∧
      (Context.ofProgram posting).ChainTo Flow.isOwnCall
        (fun f => f.StoresAt ⟨"last", .field, "A"⟩) ("A.post", 0) := by
  have hs : ((SummaryTable.request (.ofProgram posting) "A.post").run
      (.asked (.ofProgram posting) ["A.deliver"])).1 =
        { procedure := "A.post", className := some "A",
          stores := [(⟨"last", .field, "A"⟩, [0])], givenUpParams := [0],
          resets := [⟨"last", .field, "A"⟩] } := by decide +kernel
  have hp : posting.find? "A.post" = some _ := rfl
  obtain ⟨hup, hstore⟩ := summary_iff_chain posting acyclic_posting ["A.deliver"] hp 0
  rw [hs] at hup hstore
  refine ⟨hs, hup.mp List.mem_cons_self, (hstore _).mp ?_⟩
  exact ⟨[0], List.mem_cons_self, List.mem_cons_self⟩

end ActorOwnership
