import Mathlib.Data.Set.Basic
import ActorOwnership.Proofs.Origin

/-! Soundness of the flow of values over whole runs. A run gives each symbol the set of definitions
whose values it holds, its tags. Along every walk from the entry the tags of a symbol stay within
its value set, so that two symbols whose tags meet flow into each other. -/

namespace ActorOwnership
set_option autoImplicit false

/-- The definitions whose values each symbol holds at a point of a run. -/
abbrev Tags := Symbol → Set Definition

namespace Tags

/-- At the entry each symbol holds its incoming value. -/
def initial : Tags := fun x => {⟨x, none⟩}

/-- All effects of a statement at once. A written symbol gets a new definition and the tags of its
sources; its old tags stay unless one of the effects on it is strong. -/
def write (τ : Tags) (id : StatementId) (es : List Effect) : Tags := fun x =>
  {d | (∃ e ∈ es, e.symbol = x ∧ (d = ⟨x, some id⟩ ∨ ∃ y ∈ e.sources, d ∈ τ y)) ∨
    ((∀ e ∈ es, e.symbol = x → e.strong = false) ∧ d ∈ τ x)}

/-- The tags after a sequence of statements that starts at the entry. -/
def after (s : Scope) (xs : List StatementId) : Tags :=
  xs.foldl (fun τ id =>
    τ.write id (((s.procedure.instrAt? id).map fun i => s.effectsOf i.action).getD [])) initial

theorem after_concat {s : Scope} (xs : List StatementId) {id : StatementId} {i : Instr}
    (h : s.procedure.instrAt? id = some i) :
    after s (xs ++ [id]) = (after s xs).write id (s.effectsOf i.action) := by
  simp [after, h]

/-- Each tag is an origin of a definition that holds. A symbol that the procedure does not mention
keeps its incoming value, and no definition of it holds anywhere. -/
def Covered (s : Scope) (τ : Tags) (a : Position) : Prop :=
  ∀ x d, d ∈ τ x →
    (∃ d' ∈ Flow.holding s a, d'.symbol = x ∧ d ∈ (Flow.ofScope s).origins.of d') ∨
      (d = ⟨x, none⟩ ∧ x ∉ Flow.symbolsOf s (Flow.allFacts s))

variable {s : Scope} {τ : Tags}

theorem covered_initial : Covered s initial ⟨s.procedure.entry, 0⟩ := by
  intro x d hd
  have hd' : d = ⟨x, none⟩ := hd
  subst hd'
  by_cases hx : x ∈ Flow.symbolsOf s (Flow.allFacts s)
  · exact Or.inl ⟨⟨x, none⟩, Flow.holding_entry hx, rfl, Flow.mem_origins_self _⟩
  · exact Or.inr ⟨rfl, hx⟩

theorem covered_write {n : Int} {k : Nat} {i : Instr} (hτ : Covered s τ ⟨n, k⟩)
    (hi : s.procedure.instrAt? ⟨s.procedure.name, n, k⟩ = some i) :
    Covered s (τ.write ⟨s.procedure.name, n, k⟩ (s.effectsOf i.action)) ⟨n, k + 1⟩ := by
  intro x d hd
  rw [Flow.holding_succ hi]
  rcases hd with ⟨e, he, rfl, hd⟩ | ⟨hweak, hd⟩
  · refine Or.inl ⟨⟨e.symbol, some ⟨s.procedure.name, n, k⟩⟩, ?_, rfl, ?_⟩
    · exact Fact.mem_apply.mpr (Or.inr ⟨e, he, rfl⟩)
    · rcases hd with rfl | ⟨y, hy, hd⟩
      · exact Flow.mem_origins_self _
      · rcases hτ y d hd with ⟨d', hd', hsym, horigin⟩ | ⟨_, hnot⟩
        · have hof := Reach.mem_of.mpr (Or.inl ⟨hd', hsym⟩)
          exact Flow.origins_of_source hi he hy hof horigin
        · exact absurd (Flow.mem_symbolsOf_of_source hi he (Or.inr hy)) hnot
  · rcases hτ x d hd with ⟨d', hd', rfl, horigin⟩ | hforeign
    · refine Or.inl ⟨d', Fact.mem_apply.mpr (Or.inl ⟨hd', ?_⟩), rfl, horigin⟩
      rw [Fact.resets, List.any_eq_false]
      intro e he hboth
      rw [Bool.and_eq_true, beq_iff_eq] at hboth
      rw [hweak e he hboth.1] at hboth
      exact absurd hboth.2 Bool.false_ne_true
    · exact Or.inr hforeign

theorem covered_move {n m : Int} (hτ : Covered s τ ⟨n, (s.procedure.instrsAt n).length⟩)
    (hn : s.procedure.hasNode n = true) (he : s.procedure.Precedes n m) :
    Covered s τ ⟨m, 0⟩ := by
  intro x d hd
  rcases hτ x d hd with ⟨d', hd', hsym, horigin⟩ | hforeign
  · exact Or.inl ⟨d', Flow.holding_move hn he hd', hsym, horigin⟩
  · exact Or.inr hforeign

theorem covered_of_walk {xs : List StatementId} {a : Position}
    (hw : Walk s.procedure s.procedure.Precedes ⟨s.procedure.entry, 0⟩ xs a) :
    Covered s (after s xs) a := by
  -- a walk grows at its end
  induction hw with
  | here => exact covered_initial
  | step _ hi ih =>
    rw [after_concat _ hi]
    exact covered_write ih hi
  | move _ hn he _ ih => exact covered_move ih hn he

theorem symbol_mem_of_holding {a : Position} (ha : s.procedure.hasNode a.node = true)
    {d : Definition} (hd : d ∈ Flow.holding s a) :
    d.symbol ∈ Flow.symbolsOf s (Flow.allFacts s) := by
  have hmem := Flow.definitions_subset_written (Flow.holding_subset_definitions a ha hd)
  rcases List.mem_append.mp hmem with hmem | hmem
  · obtain ⟨x, hx, rfl⟩ := List.mem_map.mp hmem
    exact hx
  · obtain ⟨w, hw, rfl⟩ := List.mem_map.mp hmem
    obtain ⟨n, k, i, hi, e, he, rfl⟩ := Flow.mem_writes.mp hw
    exact Flow.mem_symbolsOf_of_source hi he (Or.inl rfl)

theorem Covered.origin {a : Position} (hτ : Covered s τ a)
    (ha : s.procedure.hasNode a.node = true) {x : Symbol} {d : Definition} (hd : d ∈ τ x) :
    ∃ d' ∈ (Flow.holding s a).of x, d ∈ (Flow.ofScope s).origins.of d' := by
  rcases hτ x d hd with ⟨d', hd', hsym, horigin⟩ | ⟨rfl, hnot⟩
  · exact ⟨d', Reach.mem_of.mpr (Or.inl ⟨hd', hsym⟩), horigin⟩
  · refine ⟨⟨x, none⟩, Reach.mem_of.mpr (Or.inr ⟨rfl, ?_⟩), Flow.mem_origins_self _⟩
    intro d' hd' hsym
    exact hnot (hsym ▸ symbol_mem_of_holding ha hd')

/-- On arrival at a statement of a walk the tags are within the value sets before it, and just after
it they are within the value sets after it. -/
theorem within_valueSet {xs ys zs : List StatementId} {t : StatementId} {b : Position}
    (hw : Walk s.procedure s.procedure.Precedes ⟨s.procedure.entry, 0⟩ xs b)
    (hxs : xs = ys ++ t :: zs) (x : Symbol) :
    (∀ d ∈ after s ys x, d ∈ (Flow.ofScope s).valueSet x t false) ∧
      ∀ d ∈ after s (ys ++ [t]) x, d ∈ (Flow.ofScope s).valueSet x t true := by
  obtain ⟨n, k, i, rfl, hi, hbefore, _⟩ := hw.split hxs
  have hnode := Procedure.hasNode_of_instrAt? hi
  constructor
  · intro d hd
    rw [Flow.mem_valueSet, Flow.stateAt_false hi]
    exact (covered_of_walk hbefore).origin hnode hd
  · intro d hd
    rw [Flow.mem_valueSet, Flow.stateAt_true hi]
    exact (covered_of_walk (hbefore.step hi)).origin hnode hd

/-- Along every walk from the entry the tags are within the value sets, before and after each
statement. Hence one symbol flows into another whenever their tags meet at two statements of the
same walk. -/
theorem walk_sound (s : Scope) {xs : List StatementId} {b : Position}
    (hw : Walk s.procedure s.procedure.Precedes ⟨s.procedure.entry, 0⟩ xs b) :
    (∀ ys t zs, xs = ys ++ t :: zs → ∀ x,
      (∀ d ∈ after s ys x, d ∈ (Flow.ofScope s).valueSet x t false) ∧
        ∀ d ∈ after s (ys ++ [t]) x, d ∈ (Flow.ofScope s).valueSet x t true) ∧
    (∀ ys u zs ys' v zs', xs = ys ++ u :: zs → xs = ys' ++ v :: zs' → ∀ a b,
      (∃ d, d ∈ after s (if (Flow.ofScope s).defines a u then ys ++ [u] else ys) a ∧
        d ∈ after s ys' b) → (Flow.ofScope s).flowsInto a b u v = true) := by
  refine ⟨fun ys t zs hxs x => within_valueSet hw hxs x, ?_⟩
  rintro ys u zs ys' v zs' hu hv a b ⟨d, hda, hdb⟩
  have hcontains : ∀ {ys t zs}, xs = ys ++ t :: zs → s.procedure.contains t = true := by
    intro ys t zs hxs
    obtain ⟨_, _, i, _, hi, _⟩ := hw.split hxs
    exact Procedure.contains_iff.mpr ⟨i, hi⟩
  have hb := (within_valueSet hw hv b).1 d hdb
  refine Flow.flowsInto_of_common (hcontains hu) (hcontains hv) ?_ hb
  cases hdef : (Flow.ofScope s).defines a u with
  | true =>
    rw [hdef, if_pos rfl] at hda
    exact (within_valueSet hw hu a).2 d hda
  | false =>
    rw [hdef, if_neg Bool.false_ne_true] at hda
    exact (within_valueSet hw hu a).1 d hda

/-- A method that copies a field through two variables in a loop. -/
def copyLoop : Scope where
  procedure := methodOf "A.m" []
    [{ id := 0, instrs := [⟨.unknown, .assign "x" (selfField "f")⟩], succs := [1] },
      { id := 1, preds := [0, 1], succs := [1]
        instrs := [⟨.unknown, .assign "y" (.var "x")⟩, ⟨.unknown, .assign "x" (.var "y")⟩] }]

/-- The field is still in `x` when the loop is entered a second time. -/
theorem walk_sound_copyLoop :
    (Flow.ofScope copyLoop).flowsInto (copyLoop.fieldOf "f") (copyLoop.symbolOf "x")
      ⟨"A.m", 0, 0⟩ ⟨"A.m", 1, 0⟩ = true := by
  have h₁ : Walk copyLoop.procedure copyLoop.procedure.Precedes ⟨0, 0⟩ [⟨"A.m", 0, 0⟩] ⟨1, 0⟩ :=
    .move (.step .here rfl) rfl List.mem_cons_self rfl
  have h₂ : Walk copyLoop.procedure copyLoop.procedure.Precedes ⟨0, 0⟩
      [⟨"A.m", 0, 0⟩, ⟨"A.m", 1, 0⟩, ⟨"A.m", 1, 1⟩] ⟨1, 0⟩ :=
    .move (.step (.step h₁ rfl) rfl) rfl (List.mem_cons_of_mem 0 List.mem_cons_self) rfl
  apply (walk_sound copyLoop (h₂.step rfl)).2 [] _ _ _ _ [] rfl rfl
  have hdef : (Flow.ofScope copyLoop).defines (copyLoop.fieldOf "f") ⟨"A.m", 0, 0⟩ = false := by
    rw [Flow.defines, Flow.fact?_ofScope]
    rfl
  rw [hdef]
  refine ⟨⟨copyLoop.fieldOf "f", none⟩, rfl, ?_⟩
  refine Or.inl ⟨_, List.mem_cons_self, rfl, Or.inr ⟨_, List.mem_cons_self, ?_⟩⟩
  refine Or.inl ⟨_, List.mem_cons_self, rfl, Or.inr ⟨_, List.mem_cons_self, ?_⟩⟩
  exact Or.inl ⟨_, List.mem_cons_self, rfl, Or.inr ⟨_, List.mem_cons_self, rfl⟩⟩

end Tags

end ActorOwnership
