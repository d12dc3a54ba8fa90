import ActorOwnership.Proofs.Calls

/-! Which of the symbols that flow into a written value are looked at when the statement is swept. The
value is taken apart into collections and the two outcomes of conditionals; of each part that is left,
an access path shows the symbol that it starts from, and a call of the library shows all that its
result may hold. What is an operand of an operator, decides a conditional or is below a path without a
symbol flows into the value as well, and is passed over. -/

namespace ActorOwnership
set_option autoImplicit false

open SummaryTable (Built)

/-! ### Parts of a value -/

namespace Scope
variable {s : Scope}

/-- What a part of a value shows. -/
def exposed (s : Scope) : Exp → List Symbol
  | .call func args receiver => s.callSources ⟨func, args, receiver⟩
  | e => (s.resolve e).toList

/-- What a part of a value has from operands, a condition, or a base that has no symbol. -/
def buried (s : Scope) : Exp → List Symbol
  | .binary _ left right => s.flowing left ++ s.flowing right
  | .unary _ operand => s.flowing operand
  | .ternary condition _ _ => s.flowing condition
  | .field base name => if (s.resolve (.field base name)).isSome then [] else s.flowing base
  | .index base key => if (s.resolve (.index base key)).isSome then [] else s.flowing base
  | _ => []

/-- Some part of the value has the symbol. -/
def FromPart (symbols : Exp → List Symbol) (e : Exp) (x : Symbol) : Prop :=
  ∃ part, Exp.Holds part e ∧ x ∈ symbols part

section Parts
variable {symbols : Exp → List Symbol} {x : Symbol}

theorem FromPart.element {es : List Exp} {e : Exp} (he : e ∈ es) (h : FromPart symbols e x) :
    FromPart symbols (.aggregate es) x := by
  obtain ⟨part, hpart, hx⟩ := h
  exact ⟨part, .element he hpart, hx⟩

theorem FromPart.yes {condition yes no : Exp} (h : FromPart symbols yes x) :
    FromPart symbols (.ternary condition yes no) x := by
  obtain ⟨part, hpart, hx⟩ := h
  exact ⟨part, .yes hpart, hx⟩

theorem FromPart.no {condition yes no : Exp} (h : FromPart symbols no x) :
    FromPart symbols (.ternary condition yes no) x := by
  obtain ⟨part, hpart, hx⟩ := h
  exact ⟨part, .no hpart, hx⟩

end Parts

/-- The two halves of what flows through an access path. -/
theorem path_cases {e base : Exp} {x : Symbol} (hexposed : s.exposed e = (s.resolve e).toList)
    (hburied : s.buried e = if (s.resolve e).isSome then [] else s.flowing base)
    (h : x ∈ match s.resolve e with | some top => [top] | none => s.flowing base) :
    FromPart s.exposed e x ∨ FromPart s.buried e x := by
  cases htop : s.resolve e with
  | some top =>
    rw [htop] at h hexposed
    exact Or.inl ⟨e, .here, by rw [hexposed]; exact h⟩
  | none =>
    rw [htop] at h hburied
    exact Or.inr ⟨e, .here, by rw [hburied]; exact h⟩

mutual

/-- All that flows into a value is shown by a part of it, or buried in one. -/
theorem fromPart_of_flowing : ∀ (e : Exp) {x : Symbol}, x ∈ s.flowing e →
    FromPart s.exposed e x ∨ FromPart s.buried e x
  | .var name, x, h => Or.inl ⟨.var name, .here, by rw [flowing] at h; exact h⟩
  | .const value, x, h => by simp [flowing] at h
  | .unspecified, x, h => by simp [flowing] at h
  | .binary op left right, x, h => by
    rw [flowing, mem_distinct] at h
    exact Or.inr ⟨_, .here, h⟩
  | .unary op operand, x, h => by
    rw [flowing] at h
    exact Or.inr ⟨_, .here, h⟩
  | .field base name, x, h => by
    rw [flowing] at h
    exact path_cases rfl rfl h
  | .index base key, x, h => by
    rw [flowing] at h
    exact path_cases rfl rfl h
  | .call func args receiver, x, h => by
    rw [flowing] at h
    exact Or.inl ⟨_, .here, h⟩
  | .aggregate elements, x, h => by
    rw [flowing, mem_distinct] at h
    obtain ⟨e, he, h | h⟩ := fromPart_of_flowingAll elements h
    · exact Or.inl (h.element he)
    · exact Or.inr (h.element he)
  | .ternary condition yes no, x, h => by
    rw [flowing, mem_distinct, List.mem_append, List.mem_append] at h
    rcases h with (h | h) | h
    · exact Or.inr ⟨_, .here, h⟩
    · exact (fromPart_of_flowing yes h).imp FromPart.yes FromPart.yes
    · exact (fromPart_of_flowing no h).imp FromPart.no FromPart.no

theorem fromPart_of_flowingAll : ∀ (es : List Exp) {x : Symbol}, x ∈ (s.flowingAll es).flatten →
    ∃ e ∈ es, FromPart s.exposed e x ∨ FromPart s.buried e x
  | [], x, h => by simp [flowingAll] at h
  | e :: es, x, h => by
    rw [flowingAll, List.flatten_cons, List.mem_append] at h
    rcases h with h | h
    · exact ⟨e, List.mem_cons_self, fromPart_of_flowing e h⟩
    · obtain ⟨e', he', h⟩ := fromPart_of_flowingAll es h
      exact ⟨e', List.mem_cons_of_mem e he', h⟩

end

/-- The symbol that an action writes to, by name or through an access path. -/
def target? (s : Scope) : Action → Option Symbol
  | .declare name _ _ => some (s.symbolOf name)
  | .assign name _ => some (s.symbolOf name)
  | .store target _ => s.resolve target
  | _ => none

end Scope

/-! ### Sweeping a written value -/

namespace Sweep

theorem valueParts_subset {part e : Exp} (h : Exp.Holds part e) :
    valueParts part ⊆ valueParts e := by
  have hall : ∀ {e : Exp} {es : List Exp}, e ∈ es → valueParts e ⊆ valuePartsAll es := by
    intro e es he
    induction es with
    | nil => cases he
    | cons e' es ih =>
      rw [valuePartsAll]
      rcases List.mem_cons.mp he with rfl | he
      · exact List.subset_append_left _ _
      · exact List.Subset.trans (ih he) (List.subset_append_right _ _)
  induction h with
  | here => exact List.Subset.refl _
  | element he _ ih =>
    rw [valueParts]
    exact List.Subset.trans ih (hall he)
  | yes _ ih =>
    rw [valueParts]
    exact List.Subset.trans ih (List.subset_append_left _ _)
  | no _ ih =>
    rw [valueParts]
    exact List.Subset.trans ih (List.subset_append_right _ _)

/-- A part that shows a symbol is not taken apart any further. -/
theorem mem_valueParts_of_exposed {s : Scope} {part e : Exp} {x : Symbol}
    (hpart : Exp.Holds part e) (hx : x ∈ s.exposed part) : part ∈ valueParts e := by
  apply valueParts_subset hpart
  cases part with
  | var name | field base name | index base key | call func args receiver => simp [valueParts]
  | _ => simp [Scope.exposed, Scope.resolve] at hx

theorem checkStatement_written {w : Sweep} {trace : Trace} {id : StatementId} {a : Action}
    {e : Exp} (h : a.written? = some e) :
    w.checkStatement trace id a = w.checkAssignment trace id (w.flow.scope.target? a) e := by
  cases a with
  | declare name type init =>
    obtain rfl : init = some e := h
    rfl
  | assign name value =>
    cases h
    rfl
  | store target value =>
    cases h
    rfl
  | _ => cases h

/-- The step reports the symbol at the statement, perhaps with a call in front of the trace. -/
def ReportsAt (w : Sweep) (u : SummaryTable) (trace : Trace) (id : StatementId) (x : Symbol)
    (m : M Unit) : Prop :=
  ∃ t, w.Traced trace id t ∧ Reports w u m ⟨t.addAccess (w.procedure.locationOf id), x⟩

theorem ReportsAt.checkParts {w : Sweep} (hc : w.context.Coherent) (hpass : w.pass = .givesUp)
    {u : SummaryTable} {trace : Trace} {id : StatementId} {x : Symbol} {parts : List Exp} {part : Exp}
    (hpart : part ∈ parts) (h : w.ReportsAt u trace id x (w.checkPart trace id part)) :
    w.ReportsAt u trace id x (w.checkParts trace id parts) := by
  obtain ⟨t, ht, hreports⟩ := h
  refine ⟨t, ht, ?_⟩
  induction parts with
  | nil => cases hpart
  | cons part' parts ih =>
    have hsafe := safe_checkPart hc hpass trace id part'
    rcases List.mem_cons.mp hpart with rfl | hpart
    · exact hreports.bind_left hsafe fun _ => safe_checkParts hc hpass trace id parts
    · exact .bind_right hsafe fun _ => ih hpart

section Reported
variable {w : Sweep} (hc : w.context.Coherent) (hpass : w.pass = .givesUp) {u : SummaryTable}
  (hu : Built w.context u) {x : Symbol} (hlive : w.LiveOn u x) {trace : Trace} {id : StatementId}
  (hfield : x.isField = true) (hreach : w.reachesPoint x id = true)

include hc hu hlive hfield hreach

theorem reportsAt_checkPart {part : Exp} (hx : x ∈ w.flow.scope.exposed part)
    (hcalls : ∀ v ∈ part.calls, w.context.program.resolveCallee v w.procedure = none) :
    w.ReportsAt u trace id x (w.checkPart trace id part) := by
  cases part with
  | call func args receiver =>
    -- the call does not lead into the program, so all that its result may hold is looked at
    have hnone := hcalls ⟨func, args, receiver⟩ (Exp.mem_calls_self _)
    refine ⟨_, Or.inr rfl, ?_⟩
    rw [checkPart, checkCall, followCall, hnone]
    exact reports_checkAll hc hu hlive hfield hreach hx
  | _ => exact ⟨trace, Or.inl rfl, reports_checkAll hc hu hlive hfield hreach hx⟩

include hpass

/-- What is written to, and what a part of the value shows, is reported. -/
theorem reportsAt_checkAssignment {target : Option Symbol} {e : Exp}
    (hcalls : ∀ v ∈ e.calls, w.context.program.resolveCallee v w.procedure = none)
    (hx : target = some x ∨ Scope.FromPart w.flow.scope.exposed e x) :
    w.ReportsAt u trace id x (w.checkAssignment trace id target e) := by
  rcases hx with rfl | ⟨part, hpart, hx⟩
  · refine ⟨trace, Or.inl rfl, .bind_right (safe_rule hpass) fun _ => ?_⟩
    apply Reports.bind_left (safe_checkAll hc trace id _)
    · exact reports_checkAll hc hu hlive hfield hreach (Option.mem_toList.mpr rfl)
    · exact fun _ => safe_checkParts hc hpass trace id _
  · have hshown : w.ReportsAt u trace id x (w.checkPart trace id part) :=
      reportsAt_checkPart hc hu hlive hfield hreach hx fun v hv => hcalls v (hpart.calls_subset hv)
    obtain ⟨t, ht, hreports⟩ := hshown.checkParts hc hpass (mem_valueParts_of_exposed hpart hx)
    refine ⟨t, ht, .bind_right (safe_rule hpass) fun _ => ?_⟩
    exact .bind_right (safe_checkAll hc trace id _) fun _ => hreports

end Reported

end Sweep

/-- Every field that flows into a written value, aliases what is given up and is read later is
reported at the statement, unless the statement writes elsewhere, no part of the value shows the field,
and one has it buried. -/
theorem run_reports_exposed (g : Program) (names : List String) (h : HandOffPoint) {w : Sweep}
    (hw : h.sweep (.ofProgram g) .givesUp = .ok w) :
    ∃ vs ids s', h.run (.ofProgram g) .givesUp none (.asked (.ofProgram g) names) =
      (.ok (vs, ids), s') ∧
      ∀ st ∈ (Slice.of w.procedure h.statement).flatMap Prod.snd, ∀ e,
        st.2.action.written? = some e →
        (∀ v ∈ e.calls, g.resolveCallee v w.procedure = none) →
        ∀ x ∈ w.flow.scope.flowing e, x.isField = true →
          w.flow.flowsInto x h.symbol st.1 h.statement = true → w.LiveOn s'.table x →
          (∃ v ∈ vs, v.symbol = x ∧ v.trace.accesses = [w.procedure.locationOf st.1]) ∨
          (w.flow.scope.target? st.2.action ≠ some x ∧
            ¬ Scope.FromPart w.flow.scope.exposed e x ∧
            Scope.FromPart w.flow.scope.buried e x) := by
  obtain ⟨hcontext, hpass, hpoint, _⟩ := HandOffPoint.of_sweep hw
  have hc : w.context.Coherent := hcontext ▸ Context.coherent_ofProgram g
  have hsound : w.Sound { table := .asked (.ofProgram g) names } := by
    refine ⟨?_, by simp⟩
    rw [hcontext]
    exact SummaryTable.built_asked (Context.coherent_ofProgram g) names
  obtain ⟨ids, s', hrun, hswept⟩ :=
    Sweep.perform_run hc hpass (h.initialTrace w.procedure) hsound
  refine ⟨s'.violations, ids, s', by rw [HandOffPoint.run, hw]; exact hrun, ?_⟩
  intro st hst e he hcalls x hx hfield hreach hlive
  by_cases hseen : w.flow.scope.target? st.2.action = some x ∨
      Scope.FromPart w.flow.scope.exposed e x
  · left
    have hshown : w.ReportsAt s'.table (h.initialTrace w.procedure) st.1 x
        (w.checkAssignment (h.initialTrace w.procedure) st.1
          (w.flow.scope.target? st.2.action) e) := by
      apply Sweep.reportsAt_checkAssignment hc hpass hswept.sound.built hlive hfield
      · rw [Sweep.reachesPoint, hpoint]
        exact hreach
      · rw [hcontext]
        exact hcalls
      · exact hseen
    obtain ⟨t, ht, hreports⟩ := hshown
    rw [← Sweep.checkStatement_written he] at hreports
    refine ⟨_, hswept.reported s'.table _ st (hpoint ▸ hst) hreports List.prefix_rfl, rfl, ?_⟩
    rw [Trace.addAccess, ht.frames.1]
    rfl
  · right
    rw [not_or] at hseen
    exact ⟨hseen.1, hseen.2, (Scope.fromPart_of_flowing e hx).resolve_left hseen.2⟩

/-- Hands off a local that holds the value, and reads the field afterwards. -/
def holder (value : Exp) : Procedure :=
  methodOf "A.m" [] [{ id := 0, instrs :=
    [⟨.unknown, .assign "x" value⟩, sendCall (.var "x"), printCall (selfField "f")] }]

def holding (value : Exp) : Program where
  procedures := [holder value]

def heldPoint : HandOffPoint := ⟨⟨"x", .local_, "A.m"⟩, ⟨"A.m", 0, 1⟩, "A.m"⟩

def heldSweep (value : Exp) : Sweep :=
  ⟨.ofProgram (holding value), .givesUp, heldPoint, Flow.ofScope ⟨holder value, []⟩⟩

/-- The field is an operand of the argument of a call, in one outcome of a conditional in a list. -/
def nestedValue : Exp :=
  .aggregate [.ternary .unspecified (.const .none)
    (.call (.const (.text "wrap")) [.binary "or" (selfField "f") (.aggregate [])] none)]

theorem run_reports_exposed_nested :
    ∃ w vs ids s', heldPoint.sweep (.ofProgram (holding nestedValue)) .givesUp = .ok w ∧
      heldPoint.run (.ofProgram (holding nestedValue)) .givesUp none [] = (.ok (vs, ids), s') ∧
      ∃ v ∈ vs, v.symbol = ⟨"f", .field, "A"⟩ := by
  have hlive : (heldSweep nestedValue).LiveOn
      (heldPoint.run (.ofProgram (holding nestedValue)) .givesUp none []).2.table
      ⟨"f", .field, "A"⟩ := by
    unfold Sweep.LiveOn
    decide +kernel
  have hw : heldPoint.sweep (.ofProgram (holding nestedValue)) .givesUp =
      .ok (heldSweep nestedValue) := rfl
  obtain ⟨vs, ids, s', hrun, hall⟩ := run_reports_exposed (holding nestedValue) [] heldPoint hw
  rw [SummaryTable.asked, List.foldl_nil] at hrun
  rw [hrun] at hlive
  refine ⟨_, vs, ids, s', hw, hrun, ?_⟩
  have hst : (⟨"A.m", 0, 0⟩, ⟨.unknown, .assign "x" nestedValue⟩) ∈
      (Slice.of (heldSweep nestedValue).procedure heldPoint.statement).flatMap Prod.snd :=
    List.mem_iff_getElem?.mpr ⟨0, rfl⟩
  have hcases := hall _ hst nestedValue rfl (by decide +kernel) ⟨"f", .field, "A"⟩
    (by decide +kernel) rfl (by decide +kernel) hlive
  rcases hcases with ⟨v, hv, hsymbol, _⟩ | ⟨_, hunseen, _⟩
  · exact ⟨v, hv, hsymbol⟩
  · exact absurd ⟨_, .element List.mem_cons_self (.no .here), by decide +kernel⟩ hunseen

/-- The value lets the field flow into the local that is handed off, and nothing is reported. -/
def Overlooked (value : Exp) : Prop :=
  heldPoint.sweep (.ofProgram (holding value)) .givesUp = .ok (heldSweep value) ∧
    (∀ v ∈ value.calls, (holding value).resolveCallee v (heldSweep value).procedure = none) ∧
    ⟨"f", .field, "A"⟩ ∈ (heldSweep value).flow.scope.flowing value ∧
    (heldSweep value).flow.flowsInto ⟨"f", .field, "A"⟩ heldPoint.symbol ⟨"A.m", 0, 0⟩
      heldPoint.statement = true ∧
    (heldSweep value).LiveOn [] ⟨"f", .field, "A"⟩ ∧
    ∃ ids s', heldPoint.run (.ofProgram (holding value)) .givesUp none [] = (.ok ([], ids), s')

/-- An operand of either kind, a condition, and the base of a path that starts at a call. -/
theorem buried_unreported :
    Overlooked (.binary "or" (selfField "f") (.aggregate [])) ∧
      Overlooked (.unary "not" (selfField "f")) ∧
      Overlooked (.ternary (selfField "f") (.const .none) (.const .none)) ∧
      Overlooked (.field (.call (.const (.text "wrap")) [selfField "f"] none) "y") := by
  have hrun : ∀ {value : Exp}, ((heldPoint.run (.ofProgram (holding value)) .givesUp none
      []).1.toOption.map Prod.fst) = some [] →
      ∃ ids s', heldPoint.run (.ofProgram (holding value)) .givesUp none [] =
        (.ok ([], ids), s') := by
    intro value hresult
    generalize heldPoint.run (.ofProgram (holding value)) .givesUp none [] = r at hresult ⊢
    obtain ⟨⟨error⟩ | ⟨vs, ids⟩, s'⟩ := r
    · cases hresult
    · cases hresult
      exact ⟨ids, s', rfl⟩
  unfold Overlooked Sweep.LiveOn
  refine ⟨?_, ?_, ?_, ?_⟩
  all_goals
    exact ⟨rfl, by decide +kernel, by decide +kernel, by decide +kernel, by decide +kernel,
      hrun (by decide +kernel)⟩

end ActorOwnership
