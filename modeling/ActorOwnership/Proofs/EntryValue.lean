import ActorOwnership.Proofs.Arrival
import ActorOwnership.Proofs.Slice

/-! The value on entry as a last resort. A symbol of which no definition holds counts as having its
value from the entry. This happens in dead code only: at every statement that the entry leads to, each
symbol of the procedure has a definition that holds, because what replaces a symbol also writes it. So
the value on entry is never taken where all ways from the entry replace it. -/

namespace ActorOwnership
set_option autoImplicit false

/-- A path leads from the entry to the node, each node on it being in the predecessor list of the next
one. -/
def Procedure.Reachable (p : Procedure) (n : Int) : Prop :=
  p.hasNode p.entry = true ∧ Relation.ReflTransGen p.Precedes p.entry n

/-- The symbol of a parameter, or one that some statement writes, takes a value from, or reads. -/
inductive Scope.Occurs (s : Scope) (x : Symbol) : Prop where
  | parameter {name : String} : name ∈ s.procedure.paramNames → x = s.symbolOf name → Occurs s x
  | target {t : StatementId} {i : Instr} {e : Effect} : s.procedure.instrAt? t = some i →
      e ∈ s.effectsOf i.action → x = e.symbol → Occurs s x
  | source {t : StatementId} {i : Instr} {e : Effect} : s.procedure.instrAt? t = some i →
      e ∈ s.effectsOf i.action → x ∈ e.sources → Occurs s x
  | read {t : StatementId} {i : Instr} : s.procedure.instrAt? t = some i →
      x ∈ s.readsOf i.action → Occurs s x

namespace Flow
variable {s : Scope} {x : Symbol} {t : StatementId}

theorem mem_symbols_of_fact {i : Instr} (hi : s.procedure.instrAt? t = some i)
    (hx : x ∈ (Fact.ofStatement s (t, i)).symbols) : x ∈ (ofScope s).symbols := by
  have hfact : Fact.ofStatement s (t, i) ∈ allFacts s :=
    List.mem_map_of_mem (Procedure.mem_statements.mpr hi)
  apply mem_distinct.mpr
  exact List.mem_append.mpr (Or.inr (List.mem_flatMap.mpr ⟨_, hfact, hx⟩))

/-- Every symbol that occurs in the procedure is known to the analysis. -/
theorem mem_symbols_of_occurs (h : s.Occurs x) : x ∈ (ofScope s).symbols := by
  cases h with
  | parameter hname hx =>
    apply mem_distinct.mpr
    exact List.mem_append.mpr (Or.inl (List.mem_map.mpr ⟨_, hname, hx.symm⟩))
  | target hi he hx =>
    refine mem_symbols_of_fact hi (List.mem_append.mpr (Or.inl ?_))
    exact List.mem_flatMap.mpr ⟨_, he, hx ▸ List.mem_cons_self⟩
  | source hi he hx =>
    refine mem_symbols_of_fact hi (List.mem_append.mpr (Or.inl ?_))
    exact List.mem_flatMap.mpr ⟨_, he, List.mem_cons_of_mem _ hx⟩
  | read hi hx => exact mem_symbols_of_fact hi (List.mem_append.mpr (Or.inr hx))

theorem exists_holding_of_reachable {n : Int} {k : Nat} (hn : s.procedure.Reachable n)
    (hk : k ≤ (s.procedure.instrsAt n).length) (hx : s.Occurs x) :
    ∃ d ∈ holding s ⟨n, k⟩, d.symbol = x := by
  obtain ⟨xs, hw⟩ := Slice.walk_of_reachable hn.2 hn.1 hk
  exact exists_holding_of_walk (mem_symbols_of_occurs hx) hw

theorem reachOf_eq_filter {r : Reach} (h : ∃ d ∈ r, d.symbol = x) :
    r.of x = r.filter (·.symbol == x) := by
  obtain ⟨d, hd, rfl⟩ := h
  have hmem : d ∈ r.filter (·.symbol == d.symbol) := List.mem_filter.mpr ⟨hd, by simp⟩
  unfold Reach.of
  split
  · rename_i hnil
    rw [hnil] at hmem
    cases hmem
  · rfl

/-- At a point in the middle of reachable code the definitions of a symbol are those that hold, and the
value on entry is one of them only if some walk leads there from the entry without replacing it. -/
theorem of_holding_of_reachable {n : Int} {k : Nat} (hn : s.procedure.Reachable n)
    (hk : k ≤ (s.procedure.instrsAt n).length) (hx : s.Occurs x) :
    (holding s ⟨n, k⟩).of x = (holding s ⟨n, k⟩).filter (·.symbol == x) ∧
      (⟨x, none⟩ ∈ (holding s ⟨n, k⟩).of x → Carries s x ⟨s.procedure.entry, 0⟩ ⟨n, k⟩) := by
  have hof := reachOf_eq_filter (exists_holding_of_reachable hn hk hx)
  refine ⟨hof, fun hentry => ?_⟩
  rw [hof] at hentry
  exact ((mem_holding_iff hk).mp (List.mem_filter.mp hentry).1).2

/-- The value on entry is a last resort in dead code only. Before and after every statement that the
entry leads to, some definition holds of each symbol that occurs in the procedure. The definitions
of the symbol are then the ones that hold, and the value on entry is among them only if some walk
from the entry does not replace it. -/
theorem reaching_of_reachable (s : Scope) {t : StatementId} (ht : s.procedure.contains t = true)
    (hreach : s.procedure.Reachable t.node) {x : Symbol} (hx : s.Occurs x) :
    ∃ before behind, (ofScope s).states.lookup t = some (before, behind) ∧
      (∃ d ∈ before, d.symbol = x) ∧ (∃ d ∈ behind, d.symbol = x) ∧
      ∀ after,
        (ofScope s).reaching x t after = ((ofScope s).stateAt t after).filter (·.symbol == x) ∧
        (⟨x, none⟩ ∈ (ofScope s).reaching x t after →
          Carries s x ⟨s.procedure.entry, 0⟩ (if after then t.behind else t.front)) := by
  obtain ⟨i, hi⟩ := Procedure.contains_iff.mp ht
  obtain ⟨n, k, rfl, hk⟩ := Procedure.exists_of_instrAt? hi
  have hlt : k < (s.procedure.instrsAt n).length := (List.getElem?_eq_some_iff.mp hk).1
  refine ⟨_, _, states_lookup hi, exists_holding_of_reachable hreach (Nat.le_of_lt hlt) hx,
    exists_holding_of_reachable hreach hlt hx, ?_⟩
  intro after
  cases after with
  | false =>
    rw [reaching, stateAt_false hi]
    exact of_holding_of_reachable hreach (Nat.le_of_lt hlt) hx
  | true =>
    rw [reaching, stateAt_true hi]
    exact of_holding_of_reachable hreach hlt hx

/-- A loop that is entered with a new value, and whose predecessor list names a missing node. -/
theorem reaching_of_reachable_detour :
    detour.procedure.contains ⟨"A.m", 1, 0⟩ = true ∧ detour.procedure.Reachable 1 ∧
    detour.Occurs (detour.symbolOf "x") ∧
    ∃ before behind, (ofScope detour).states.lookup ⟨"A.m", 1, 0⟩ = some (before, behind) ∧
      (∃ d ∈ before, d.symbol = detour.symbolOf "x") ∧
      ∃ d ∈ behind, d.symbol = detour.symbolOf "x" := by
  have hreach : detour.procedure.Reachable 1 := ⟨rfl, .single List.mem_cons_self⟩
  have hx : detour.Occurs (detour.symbolOf "x") :=
    .target (t := ⟨"A.m", 0, 0⟩) rfl List.mem_cons_self rfl
  obtain ⟨before, behind, hlookup, hbefore, hbehind, _⟩ :=
    reaching_of_reachable detour (t := ⟨"A.m", 1, 0⟩) rfl hreach hx
  exact ⟨rfl, hreach, hx, before, behind, hlookup, hbefore, hbehind⟩

end Flow

end ActorOwnership
