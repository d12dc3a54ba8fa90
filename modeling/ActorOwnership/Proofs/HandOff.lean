import ActorOwnership.Proofs.Discovery
import ActorOwnership.Proofs.Liveness
import ActorOwnership.Proofs.Origin
import ActorOwnership.Proofs.Slice

/-! No hand-off of a live field is missed, whether direct or through a chain of copies. -/

namespace ActorOwnership
set_option autoImplicit false

/-! ### Copies -/

/-- The variable that an action gives a new value, and that value. -/
def Action.binding? : Action → Option (String × Exp)
  | .declare name _ (some init) => some (name, init)
  | .assign name value => some (name, value)
  | _ => none

/-- Some way leads from `a` to `b` on which no statement replaces the value of `x`. -/
def Scope.Keeps (s : Scope) (x : String) (a b : Position) : Prop :=
  ∃ xs, Walk s.procedure s.procedure.LeadsTo a xs b ∧
    ∀ t ∈ xs, (Flow.ofScope s).resets (s.symbolOf x) t = false

/-- The value that the statement `start` has loaded from a field of the receiver is in the variable
at the point: it was loaded into a variable, and perhaps copied on to others. -/
inductive Carried (s : Scope) (field : String) (start : StatementId) :
    String → Position → Prop where
  | load {n : Int} {k : Nat} {i : Instr} {x me : String} {b : Position} :
      start = ⟨s.procedure.name, n, k⟩ → s.procedure.instrAt? start = some i →
        i.action.binding? = some (x, .field (.var me) field) → s.isSelfName me = true →
          s.Keeps x ⟨n, k + 1⟩ b → Carried s field start x b
  | copy {n : Int} {k : Nat} {i : Instr} {x y : String} {b : Position} :
      Carried s field start y ⟨n, k⟩ → s.procedure.instrAt? ⟨s.procedure.name, n, k⟩ = some i →
        i.action.binding? = some (x, .var y) → s.Keeps x ⟨n, k + 1⟩ b → Carried s field start x b

namespace Scope
variable {s : Scope}

theorem effectsOf_binding {a : Action} {x : String} {e : Exp} (h : a.binding? = some (x, e)) :
    s.effectsOf a = [⟨s.symbolOf x, true, s.flowing e⟩] := by
  cases a with
  | declare name type init =>
    cases init with
    | none => cases h
    | some init =>
      cases h
      rfl
  | assign name value =>
    cases h
    rfl
  | _ => cases h

theorem resolve_selfField {me : String} (h : s.isSelfName me = true) (field : String) :
    s.resolve (.field (.var me) field) = some (s.fieldOf field) := by
  simp [resolve, h]

theorem flowing_selfField {me : String} (h : s.isSelfName me = true) (field : String) :
    s.flowing (.field (.var me) field) = [s.fieldOf field] := by
  rw [flowing, resolve_selfField h]

end Scope

namespace Flow
variable {s : Scope}

theorem holding_of_walk {xs : List StatementId} {a b : Position}
    (hw : Walk s.procedure s.procedure.Precedes a xs b) {d : Definition} (hd : d ∈ holding s a)
    (hkeep : ∀ t ∈ xs, (ofScope s).resets d.symbol t = false) : d ∈ holding s b := by
  induction hw with
  | here => exact hd
  | step _ hi ih =>
    have hbefore := ih fun t ht => hkeep t (List.mem_append.mpr (Or.inl ht))
    have hlast := hkeep _ (List.mem_append.mpr (Or.inr (List.mem_singleton.mpr rfl)))
    rw [resets, fact?_ofScope, hi, Option.map_some, Option.any_some] at hlast
    rw [holding_succ hi]
    exact Fact.mem_apply.mpr (Or.inl ⟨hbefore, hlast⟩)
  | move _ hn he _ ih => exact holding_move hn he (ih hkeep)

theorem holding_of_keeps (hsym : s.procedure.Symmetric) {n : Int} {k : Nat} {i : Instr}
    (hi : s.procedure.instrAt? ⟨s.procedure.name, n, k⟩ = some i) {x : String} {e : Exp}
    (hbind : i.action.binding? = some (x, e)) {b : Position} (hkeep : s.Keeps x ⟨n, k + 1⟩ b) :
    (⟨s.symbolOf x, some ⟨s.procedure.name, n, k⟩⟩ : Definition) ∈ holding s b := by
  obtain ⟨xs, hw, hclear⟩ := hkeep
  refine holding_of_walk (hw.mono fun m n => (hsym m n).mp) ?_ hclear
  rw [holding_succ hi]
  refine Fact.mem_apply.mpr (Or.inr ⟨⟨s.symbolOf x, true, s.flowing e⟩, ?_, rfl⟩)
  simp only [Fact.ofStatement, Scope.effectsOf_binding hbind]
  exact List.mem_singleton.mpr rfl

theorem origins_of_carried (hsym : s.procedure.Symmetric) {field x : String} {n : Int} {k : Nat}
    {b : Position} (h : Carried s field ⟨s.procedure.name, n, k⟩ x b) {d : Definition}
    (hd : d ∈ (holding s ⟨n, k⟩).of (s.fieldOf field)) :
    ∃ t, (⟨s.symbolOf x, some t⟩ : Definition) ∈ holding s b ∧
      (ofScope s).origins.of d ⊆ (ofScope s).origins.of ⟨s.symbolOf x, some t⟩ := by
  induction h with
  | @load n' k' i x me b hstart hi hbind hself hkeep =>
    simp only [StatementId.mk.injEq, true_and, Int.natCast_inj] at hstart
    obtain ⟨rfl, rfl⟩ := hstart
    refine ⟨_, holding_of_keeps hsym hi hbind hkeep, ?_⟩
    refine origins_of_source hi (e := ⟨s.symbolOf x, true, [s.fieldOf field]⟩) ?_
      (List.mem_singleton.mpr rfl) hd
    rw [Scope.effectsOf_binding hbind, Scope.flowing_selfField hself]
    exact List.mem_singleton.mpr rfl
  | @copy n' k' i x y b hcarried hi hbind hkeep ih =>
    obtain ⟨t, hheld, horigins⟩ := ih
    refine ⟨_, holding_of_keeps hsym hi hbind hkeep, ?_⟩
    refine List.Subset.trans horigins ?_
    refine origins_of_source hi (e := ⟨s.symbolOf x, true, [s.symbolOf y]⟩) ?_
      (List.mem_singleton.mpr rfl) (Reach.mem_of.mpr (Or.inl ⟨hheld, rfl⟩))
    rw [Scope.effectsOf_binding hbind, Scope.flowing]
    exact List.mem_singleton.mpr rfl

end Flow

theorem Carried.start {s : Scope} {field x : String} {start : StatementId} {b : Position}
    (h : Carried s field start x b) :
    ∃ n k i me y xs, start = ⟨s.procedure.name, n, (k : Nat)⟩ ∧
      s.procedure.instrAt? start = some i ∧
      i.action.binding? = some (y, .field (.var me) field) ∧ s.isSelfName me = true ∧
      Walk s.procedure s.procedure.LeadsTo ⟨n, k + 1⟩ xs b := by
  induction h with
  | load hstart hi hbind hself hkeep =>
    obtain ⟨xs, hw, _⟩ := hkeep
    exact ⟨_, _, _, _, _, xs, hstart, hi, hbind, hself, hw⟩
  | copy _ hi _ hkeep ih =>
    obtain ⟨n, k, i, me, y, xs, hstart, hi', hbind, hself, hw⟩ := ih
    obtain ⟨ys, hw', _⟩ := hkeep
    exact ⟨n, k, i, me, y, _, hstart, hi', hbind, hself, (hw.step hi).trans hw'⟩

theorem Carried.flowsInto {s : Scope} (hsym : s.procedure.Symmetric) {field x : String}
    {start : StatementId} {n : Int} {k : Nat} {i : Instr} (h : Carried s field start x ⟨n, k⟩)
    (hi : s.procedure.instrAt? ⟨s.procedure.name, n, k⟩ = some i) :
    (Flow.ofScope s).flowsInto (s.fieldOf field) (s.symbolOf x) start
      ⟨s.procedure.name, n, k⟩ = true := by
  obtain ⟨m, j, i', me, y, xs, rfl, hi', hbind, _, _⟩ := h.start
  obtain ⟨d, hd⟩ : ∃ d, d ∈ (Flow.holding s ⟨m, j⟩).of (s.fieldOf field) := by
    by_cases hsome : ∃ d ∈ Flow.holding s ⟨m, j⟩, d.symbol = s.fieldOf field
    · obtain ⟨d, hd, heq⟩ := hsome
      exact ⟨d, Reach.mem_of.mpr (Or.inl ⟨hd, heq⟩)⟩
    · exact ⟨_, Reach.mem_of.mpr (Or.inr ⟨rfl, fun d hd heq => hsome ⟨d, hd, heq⟩⟩)⟩
  obtain ⟨t, hheld, horigins⟩ := Flow.origins_of_carried hsym h hd
  have hdef : (Flow.ofScope s).defines (s.fieldOf field) ⟨s.procedure.name, m, j⟩ = false := by
    rw [Flow.defines, Flow.fact?_ofScope, hi', Option.map_some, Option.any_some, Fact.defines,
      Fact.ofStatement, Scope.effectsOf_binding hbind]
    simpa using Scope.symbolOf_ne_fieldOf y field
  refine Flow.flowsInto_of_common (Procedure.contains_iff.mpr ⟨i', hi'⟩)
    (Procedure.contains_iff.mpr ⟨i, hi⟩) (d := d) ?_ ?_
  · rw [hdef, Flow.mem_valueSet, Flow.stateAt_false hi']
    exact ⟨d, hd, Flow.mem_origins_self d⟩
  · rw [Flow.mem_valueSet, Flow.stateAt_false hi]
    exact ⟨_, Reach.mem_of.mpr (Or.inl ⟨hheld, rfl⟩), horigins (Flow.mem_origins_self d)⟩

theorem Sweep.checkStatement_binding {w : Sweep} {trace : Trace} {id : StatementId} {a : Action}
    {y : String} {e : Exp} (h : a.binding? = some (y, e)) :
    w.checkStatement trace id a =
      w.checkAssignment trace id (some (w.flow.scope.symbolOf y)) e := by
  cases a with
  | declare name type init =>
    cases init with
    | none => cases h
    | some init =>
      cases h
      rfl
  | assign name value =>
    cases h
    rfl
  | _ => cases h

theorem Action.eq_handOff {a : Action} {arg : Exp} (h : arg ∈ a.givenUpArgs) :
    ∃ ret v positions description, a = .handOff ret v positions description := by
  cases a with
  | handOff ret v positions description => exact ⟨ret, v, positions, description, rfl⟩
  | _ => cases h

/-! ### Findings -/

section Program
variable {g : Program} {p : Procedure} (hp : p ∈ g.procedures)
include hp

theorem HandOffPoint.mem_discover_of_part {t : SummaryTable}
    (ht : SummaryTable.Built (.ofProgram g) t) {h : StatementId} {i : Instr}
    (hi : p.instrAt? h = some i) {arg part : Exp} (harg : arg ∈ i.action.givenUpArgs)
    (hpart : part ∈ Summary.handedParts arg) {x : Symbol}
    (hx : x ∈ (⟨p, g.library⟩ : Scope).flowing part) :
    (⟨x, h, p.name⟩ : HandOffPoint) ∈ ((discover (.ofProgram g)).run t).1 := by
  rw [mem_discover (Context.coherent_ofProgram g) ht]
  refine ⟨Flow.ofScope ⟨p, g.library⟩, List.mem_map_of_mem hp, (h, i),
    Procedure.mem_statements.mpr hi, mem_ofStatement.mpr ⟨arg, ?_, part, hpart, x, hx, rfl⟩⟩
  obtain ⟨ret, v, positions, description, ha⟩ := Action.eq_handOff harg
  rw [ha] at harg ⊢
  exact harg

theorem HandOffPoint.mem_points {h : StatementId} {i : Instr} (hi : p.instrAt? h = some i)
    {arg : Exp} (harg : arg ∈ i.action.givenUpArgs)
    (hcall : ∀ func args receiver, arg ≠ .call func args receiver) {x : Symbol}
    (hx : x ∈ (⟨p, g.library⟩ : Scope).flowing arg) :
    (⟨x, h, p.name⟩ : HandOffPoint) ∈ (Analysis.ofProgram g "gives-up").points := by
  rw [Analysis.ofProgram, Analysis.ofContext_givesUp]
  refine mem_discover_of_part hp .empty hi harg ?_ hx
  cases arg with
  | call func args receiver => exact absurd rfl (hcall func args receiver)
  | _ => exact List.mem_singleton.mpr rfl

/-- What a statement of the slice of a point reports is among the findings. -/
theorem Analysis.exists_finding (hg : g.Distinct) {h : HandOffPoint}
    (hpoint : h ∈ (ofProgram g "gives-up").points) (hproc : h.procedure = p.name)
    {os : List Outcome} (hos : (ofProgram g "gives-up").outcomes = .ok os)
    {st : StatementId × Instr} (hst : st ∈ (Slice.of p h.statement).flatMap Prod.snd)
    {loc : Location} {x : Symbol}
    (hreport : Sweep.Reports ⟨.ofProgram g, .givesUp, h, Flow.ofScope ⟨p, g.library⟩⟩
      (closingTable (.ofProgram g))
      (Sweep.checkStatement ⟨.ofProgram g, .givesUp, h, Flow.ofScope ⟨p, g.library⟩⟩
        (h.initialTrace p) st.1 st.2.action) ⟨(h.initialTrace p).addAccess loc, x⟩) :
    ∃ fd ∈ Outcome.findings g os, fd.symbol = x.render ∧ fd.location = loc.render := by
  obtain ⟨os', hos', hpoints, _, hdone⟩ := outcomes_done hg
  rw [hos, Except.ok.injEq] at hos'
  subst hos'
  rw [← hpoints] at hpoint
  obtain ⟨o, ho, rfl⟩ := List.mem_map.mp hpoint
  obtain ⟨f, s, s', hflow, hresult, hswept, hearlier⟩ := hdone o ho
  have hf : f = Flow.ofScope ⟨p, g.library⟩ := by
    have hflow' : (Context.ofProgram g).flow? p.name = some (Flow.ofScope ⟨p, g.library⟩) :=
      Context.flow?_of_mem hg (List.mem_map_of_mem hp)
    rw [hproc, hflow'] at hflow
    exact (Option.some.inj hflow).symm
  subst hf
  exact Outcome.exists_finding ho hresult (hswept.reported _ _ st hst hreport hearlier) rfl

end Program

theorem Liveness.isField_of_live {c : Context} {x : Symbol} {name : String}
    {after : Option StatementId} {escalate : Bool} {t : SummaryTable}
    (h : ((isReadBeforeReset c x name after escalate).run t).1 = true) : x.isField = true := by
  unfold isReadBeforeReset at h
  split at h
  · assumption
  · cases h

/-- The analysis of a program with distinct procedure names records no error at any point, and it
finds every field that is still live after a hand-off that gives it away directly, or gives away a
variable to which it was copied along some way through the graph. -/
theorem handOff_found (g : Program) (hg : g.Distinct) :
    ∃ os fs, (Analysis.ofProgram g "gives-up").outcomes = .ok os ∧
      Analysis.findings g "gives-up" = .ok fs ∧
      os.map Outcome.point = (Analysis.ofProgram g "gives-up").points ∧
      (∀ o ∈ os, o.error? = none) ∧
      ∀ p ∈ g.procedures, ∀ h i, p.instrAt? h = some i → ∀ arg ∈ i.action.givenUpArgs, ∀ x,
        ((Liveness.isReadBeforeReset (.ofProgram g) x p.name (some h) true).run
          (Analysis.closingTable (.ofProgram g))).1 = true →
        ((∀ func args receiver, arg ≠ .call func args receiver) →
          x ∈ (⟨p, g.library⟩ : Scope).flowing arg →
            ∃ fd ∈ fs, fd.symbol = x.render ∧ fd.location = (p.locationOf h).render) ∧
        (p.Symmetric → ∀ field start y, x = (⟨p, g.library⟩ : Scope).fieldOf field →
          arg = .var y → Carried ⟨p, g.library⟩ field start y ⟨h.node, h.index.toNat⟩ →
            ∃ fd ∈ fs, fd.symbol = x.render ∧ fd.location = (p.locationOf start).render) := by
  have hc := Context.coherent_ofProgram g
  obtain ⟨os, hos, hpoints, hbuilt, hdone⟩ := Analysis.outcomes_done hg
  refine ⟨os, Outcome.findings g os, hos, ?_, hpoints, ?_, ?_⟩
  · rw [Analysis.findings, hos]
    rfl
  · intro o ho
    obtain ⟨_, _, _, _, hresult, _⟩ := hdone o ho
    rw [Outcome.error?, hresult]
  intro p hp h i hi arg harg x hlive
  have hfield := Liveness.isField_of_live hlive
  obtain ⟨n, k, rfl, _⟩ := Procedure.exists_of_instrAt? hi
  refine ⟨?_, ?_⟩
  · -- given away directly: the hand-off itself is the statement that reports
    intro hcall hx
    have hpoint := HandOffPoint.mem_points hp hi harg hcall hx
    refine Analysis.exists_finding hp hg hpoint rfl hos (Slice.mem_of_le hi (Nat.le_refl k)) ?_
    obtain ⟨ret, v, positions, description, ha⟩ := Action.eq_handOff harg
    let w : Sweep := ⟨.ofProgram g, .givesUp, ⟨x, ⟨p.name, n, k⟩, p.name⟩,
      Flow.ofScope ⟨p, g.library⟩⟩
    have hreport : w.Reports (Analysis.closingTable (.ofProgram g))
        (w.checkHandOff (w.point.initialTrace p) w.point.statement) _ :=
      Sweep.reports_checkHandOff (w := w) hc rfl hbuilt hlive hfield rfl
    simp only [ha]
    exact hreport
  · -- given away in a variable: the load reports, and it is in the slice of the hand-off
    rintro hsym field start y rfl rfl hcarried
    rw [Int.toNat_natCast] at hcarried
    have hpoint := HandOffPoint.mem_points hp hi harg (by simp)
      (x := (⟨p, g.library⟩ : Scope).symbolOf y) (by simp [Scope.flowing])
    have hflows := hcarried.flowsInto hsym hi
    obtain ⟨m, j, i', me, y', xs, rfl, hi', hbind, hself, hw⟩ := hcarried.start
    have hslice := Slice.mem_of_walk hi' (hw.mono fun m n => (hsym m n).mp)
    refine Analysis.exists_finding hp hg hpoint rfl hos hslice ?_
    let w : Sweep := ⟨.ofProgram g, .givesUp, ⟨(⟨p, g.library⟩ : Scope).symbolOf y,
      ⟨p.name, n, k⟩, p.name⟩, Flow.ofScope ⟨p, g.library⟩⟩
    have hreport : w.Reports (Analysis.closingTable (.ofProgram g))
        (w.checkAssignment (w.point.initialTrace p) ⟨p.name, m, j⟩
          (some (w.flow.scope.symbolOf y')) (.field (.var me) field)) _ :=
      Sweep.reports_checkAssignment (w := w) hc rfl hbuilt hlive hfield hflows _
        (Scope.resolve_selfField hself field)
    rw [← Sweep.checkStatement_binding hbind] at hreport
    exact hreport

/-- A loop that gives up a field directly and through two copies; the second copy is made behind the
hand-off, on the way round. -/
def carryLoop : Procedure :=
  methodOf "A.m" []
    [{ id := 0, succs := [1]
       instrs := [⟨⟨"a", 1, 0, none, none⟩, .assign "x" (selfField "f")⟩] },
      { id := 1, preds := [0, 1], succs := [1]
        instrs :=
          [⟨⟨"a", 2, 0, none, none⟩, .handOff none ⟨.const (.text "send"),
              [selfField "f", .var "y"], none⟩ [0, 1] ""⟩,
            ⟨⟨"a", 3, 0, none, none⟩, .assign "y" (.var "x")⟩, printCall (selfField "f")] }]

theorem handOff_found_carryLoop :
    ∃ fs, Analysis.findings { procedures := [carryLoop] } "gives-up" = .ok fs ∧
      (∃ fd ∈ fs, fd.symbol = "A.f" ∧ fd.location = "a:2") ∧
      ∃ fd ∈ fs, fd.symbol = "A.f" ∧ fd.location = "a:1" := by
  let g : Program := { procedures := [carryLoop] }
  have hc := Context.coherent_ofProgram g
  have hdistinct : g.Distinct := List.nodup_singleton _
  have hlive : ((Liveness.isReadBeforeReset (.ofProgram g) ⟨"f", .field, "A"⟩ "A.m"
      (some ⟨"A.m", 1, 0⟩) true).run (Analysis.closingTable (.ofProgram g))).1 = true := by
    obtain ⟨_, _, _, hbuilt, _⟩ := Analysis.outcomes_done hdistinct
    refine Liveness.isReadBeforeReset_of_search hc hbuilt rfl fun u hu => ?_
    refine Liveness.search_ne_false_of_run (m := 1) (j := 1) hc hu rfl rfl ?_
    refine ⟨[⟨"A.m", 1, 1⟩], "A.m", 1, 2, [], .step .here rfl rfl rfl, ?_,
      hc.reads rfl rfl List.mem_cons_self, by simp⟩
    intro s hs
    rw [List.mem_singleton.mp hs]
    exact hc.not_replaces rfl rfl rfl
  obtain ⟨_, fs, _, hfs, _, _, hfound⟩ := handOff_found g hdistinct
  have hfound := hfound _ (List.mem_singleton.mpr rfl) ⟨"A.m", 1, 0⟩ _ rfl
  refine ⟨fs, hfs, ?_, ?_⟩
  · exact (hfound _ List.mem_cons_self _ hlive).1 (by simp [selfField]) List.mem_cons_self
  · refine (hfound _ (List.mem_cons_of_mem _ List.mem_cons_self) _ hlive).2 ?_ "f" ⟨"A.m", 0, 0⟩ "y"
      rfl rfl ?_
    · decide
    · have hload : Carried ⟨carryLoop, []⟩ "f" ⟨"A.m", 0, 0⟩ "x" ⟨1, 1⟩ := by
        refine .load (n := 0) (k := 0) rfl rfl rfl rfl
          ⟨_, .step (.move .here rfl List.mem_cons_self rfl) rfl, ?_⟩
        intro t ht
        rw [List.mem_singleton.mp ht, Flow.resets, Flow.fact?_ofScope]
        rfl
      refine hload.copy rfl rfl ⟨_, .move (.step .here rfl) rfl List.mem_cons_self rfl, ?_⟩
      intro t ht
      rw [List.mem_singleton.mp ht, Flow.resets, Flow.fact?_ofScope]
      rfl

end ActorOwnership
