import ActorOwnership.Proofs.Arrival
import ActorOwnership.Proofs.Result

/-! Origins are exact. One definition derives from another if an effect of the statement that writes
it has a source that may hold the other one just before the statement. The loop that copies origins
comes to an end, and what it ends with is the closure of this relation. -/

namespace ActorOwnership
set_option autoImplicit false

namespace Origins
variable {ds : List Definition} {ws : List (Definition × Reach × List Symbol)}

theorem ends_solve (hc : Closed ds ws) : Ends (round ws) Eq (start ds) (solve ds ws) := by
  rw [solve_eq_saturate]
  exact ends_joinRound (fun o _ ho w hw => copied_subset hc ho hw) (within_start ds)
    (start_lt_fuel ds)

theorem isSome_lookup_solve (hc : Closed ds ws) {d : Definition} :
    ((solve ds ws).lookup d).isSome = true ↔ d ∈ ds := by
  rw [← mem_distinct, ← (solve_settled hc).1, Option.isSome_iff_exists]
  constructor
  · rintro ⟨r, hr⟩
    exact List.mem_map_of_mem (mem_of_lookup hr)
  · exact exists_lookup_of_mem_keys

end Origins

namespace Flow
variable {s : Scope} {d d' : Definition}

/-- One step of a derivation. An incoming value derives from nothing. -/
def DerivesFrom (s : Scope) (d d' : Definition) : Prop :=
  ∃ t e y, d = ⟨e.symbol, some t⟩ ∧ e ∈ (ofScope s).effectsAt t ∧ y ∈ e.sources ∧
    d' ∈ (ofScope s).reaching y t false

theorem mem_effectsAt {t : StatementId} {e : Effect} : e ∈ (ofScope s).effectsAt t ↔
    ∃ i, s.procedure.instrAt? t = some i ∧ e ∈ s.effectsOf i.action := by
  rw [effectsAt, fact?_ofScope]
  cases s.procedure.instrAt? t with
  | none => simp
  | some i => simp [Fact.ofStatement]

/-- The steps are the copies that the loop makes. -/
theorem derivesFrom_iff :
    DerivesFrom s d d' ↔ ∃ w ∈ writes s, w.1 = d ∧ ∃ y ∈ w.2.2, d' ∈ w.2.1.of y := by
  constructor
  · rintro ⟨t, e, y, rfl, hat, hy, hd'⟩
    obtain ⟨i, hi, he⟩ := mem_effectsAt.mp hat
    obtain ⟨n, k, rfl, _⟩ := Procedure.exists_of_instrAt? hi
    rw [reaching, stateAt_false hi] at hd'
    exact ⟨_, mem_writes.mpr ⟨n, k, i, hi, e, he, rfl⟩, rfl, y, hy, hd'⟩
  · rintro ⟨w, hw, rfl, y, hy, hd'⟩
    obtain ⟨n, k, i, hi, e, he, rfl⟩ := mem_writes.mp hw
    refine ⟨_, e, y, rfl, mem_effectsAt.mpr ⟨i, hi, he⟩, hy, ?_⟩
    rw [reaching, stateAt_false hi]
    exact hd'

theorem derives_iff_closure :
    Origins.Derives (writes s) d d' ↔ Relation.ReflTransGen (DerivesFrom s) d d' := by
  constructor
  · intro h
    induction h with
    | refl => exact .refl
    | copy hw hx hd _ ih => exact .head (derivesFrom_iff.mpr ⟨_, hw, rfl, _, hx, hd⟩) ih
  · intro h
    induction h using Relation.ReflTransGen.head_induction_on with
    | refl => exact .refl d'
    | head hstep _ ih =>
      obtain ⟨w, hw, rfl, y, hy, hd⟩ := derivesFrom_iff.mp hstep
      exact .copy hw hy hd ih

theorem mem_definitions_iff : d ∈ (graph s).initial ++ (writes s).map Prod.fst ↔
    match d.statement with
    | none => d.symbol ∈ (ofScope s).symbols
    | some t => (ofScope s).defines d.symbol t = true := by
  obtain ⟨x, st⟩ := d
  have hinitial : (⟨x, st⟩ : Definition) ∈ (graph s).initial ↔
      x ∈ (ofScope s).symbols ∧ st = none := by
    constructor
    · intro h
      obtain ⟨y, hy, heq⟩ := List.mem_map.mp h
      cases heq
      exact ⟨hy, rfl⟩
    · rintro ⟨hx, rfl⟩
      exact List.mem_map.mpr ⟨x, hx, rfl⟩
  have hwrites : (⟨x, st⟩ : Definition) ∈ (writes s).map Prod.fst ↔
      ∃ t, st = some t ∧ (ofScope s).defines x t = true := by
    constructor
    · intro h
      obtain ⟨w, hw, hwd⟩ := List.mem_map.mp h
      obtain ⟨n, k, i, hi, e, he, rfl⟩ := mem_writes.mp hw
      cases hwd
      exact ⟨_, rfl, (defines_iff hi).mpr ⟨e, he, rfl⟩⟩
    · rintro ⟨t, rfl, hdef⟩
      obtain ⟨n, k, i, rfl, hi, e, he, rfl⟩ := exists_effect_of_defines hdef
      exact List.mem_map.mpr ⟨_, mem_writes.mpr ⟨n, k, i, hi, e, he, rfl⟩, rfl⟩
  rw [List.mem_append, hinitial, hwrites]
  cases st with
  | none => simp
  | some t => simp

/-- The loop that copies origins comes to an end, with an entry for each incoming value and each
write. The origins of a definition are the definitions that any number of derivation steps lead
to. -/
theorem mem_origins_iff_derives (s : Scope) :
    Ends (Origins.round (writes s)) Eq
      (Origins.start ((graph s).initial ++ (writes s).map Prod.fst)) (ofScope s).origins ∧
    (∀ d, ((ofScope s).origins.lookup d).isSome = true ↔
      match d.statement with
      | none => d.symbol ∈ (ofScope s).symbols
      | some t => (ofScope s).defines d.symbol t = true) ∧
    ∀ d d', d' ∈ (ofScope s).origins.of d ↔ Relation.ReflTransGen (DerivesFrom s) d d' := by
  have hwritten : ∀ w ∈ writes s, w.1 ∈ (graph s).initial ++ (writes s).map Prod.fst :=
    fun w hw => List.mem_append.mpr (Or.inr (List.mem_map_of_mem hw))
  rw [origins_eq_solve]
  refine ⟨Origins.ends_solve writes_closed, ?_, ?_⟩
  · intro d
    rw [← mem_definitions_iff]
    exact Origins.isSome_lookup_solve writes_closed
  · intro d d'
    rw [← derives_iff_closure]
    constructor
    · exact fun h => (Origins.derived_solve _ _).derives h
    · exact fun h => Origins.mem_solve_of_derives writes_closed hwritten h

end Flow

end ActorOwnership
