import ActorOwnership.Proofs.Reaching

/-! The origins of a definition are closed under copying: a write has the origins of every
definition that its sources may hold just before it. -/

namespace ActorOwnership
set_option autoImplicit false

theorem Reach.mem_of {r : Reach} {x : Symbol} {d : Definition} :
    d ∈ r.of x ↔ (d ∈ r ∧ d.symbol = x) ∨ (d = ⟨x, none⟩ ∧ ∀ d' ∈ r, d'.symbol ≠ x) := by
  unfold Reach.of
  split
  · rename_i hnil
    have hnone : ∀ d' ∈ r, d'.symbol ≠ x := by simpa using hnil
    constructor
    · intro hd
      exact Or.inr ⟨List.mem_singleton.mp hd, hnone⟩
    · rintro (⟨hd, hx⟩ | ⟨rfl, _⟩)
      · exact absurd hx (hnone d hd)
      · exact List.mem_cons_self
  · rename_i hne
    constructor
    · intro hd
      obtain ⟨hd, hx⟩ := List.mem_filter.mp hd
      exact Or.inl ⟨hd, by simpa using hx⟩
    · rintro (⟨hd, hx⟩ | ⟨_, hnone⟩)
      · exact List.mem_filter.mpr ⟨hd, by simpa using hx⟩
      · exact absurd (by simpa using hnone) hne

namespace Origins

theorem mem_ofSymbol {o : Origins} {r : Reach} {x : Symbol} {d : Definition} :
    d ∈ o.ofSymbol r x ↔ ∃ d' ∈ r.of x, d ∈ o.of d' := by
  simp [ofSymbol, mem_foldl_union]

/-- What an effect copies: the origins of all that its sources may hold. -/
def copied (o : Origins) (w : Definition × Reach × List Symbol) : Reach :=
  w.2.2.foldl (fun v x => union v (o.ofSymbol w.2.1 x)) []

theorem mem_copied {o : Origins} {w : Definition × Reach × List Symbol} {d : Definition} :
    d ∈ o.copied w ↔ ∃ x ∈ w.2.2, ∃ d' ∈ w.2.1.of x, d ∈ o.of d' := by
  simp [copied, mem_foldl_union, mem_ofSymbol]

variable {ds : List Definition} {ws : List (Definition × Reach × List Symbol)}

/-- The sources of every write may hold only definitions of `ds`. -/
def Closed (ds : List Definition) (ws : List (Definition × Reach × List Symbol)) : Prop :=
  ∀ w ∈ ws, ∀ x ∈ w.2.2, w.2.1.of x ⊆ ds

theorem copied_subset (hc : Closed ds ws) {o : Origins} (ho : Within ds o)
    {w : Definition × Reach × List Symbol} (hw : w ∈ ws) : o.copied w ⊆ ds := by
  intro d hd
  obtain ⟨x, hx, d', hd', hmem⟩ := mem_copied.mp hd
  unfold Origins.of at hmem
  cases hl : o.lookup d' with
  | none =>
    have hdd : d = d' := by simpa [hl] using hmem
    exact hdd ▸ hc w hw x hx hd'
  | some r =>
    rw [hl, Option.getD_some] at hmem
    exact (ho _ (mem_of_lookup hl)).2 hmem

theorem solve_eq_saturate (ds : List Definition) (ws : List (Definition × Reach × List Symbol)) :
    solve ds ws = saturate volume (joinRound Prod.fst copied ws) (ds.length * ds.length + 1)
      (start ds) := rfl

theorem within_start (ds : List Definition) : Within ds (start ds) := by
  intro x hx
  obtain ⟨d, hd, rfl⟩ := List.mem_map.mp hx
  refine ⟨by simp, ?_⟩
  intro d' hd'
  rw [List.mem_singleton.mp hd']
  exact mem_distinct.mp hd

theorem start_lt_fuel (ds : List Definition) :
    (start ds).length * ds.length < ds.length * ds.length + 1 := by
  have hlen : (start ds).length ≤ ds.length := by
    rw [start, List.length_map]
    exact length_le_of_subset (nodup_distinct ds) fun _ hd => mem_distinct.mp hd
  exact Nat.lt_succ_of_le (Nat.mul_le_mul_right _ hlen)

theorem solve_settled (hc : Closed ds ws) :
    (solve ds ws).map Prod.fst = distinct ds ∧ Within ds (solve ds ws) ∧
      ∀ w ∈ ws, joinAt (solve ds ws) w.1 ((solve ds ws).copied w) = solve ds ws := by
  have hkeys : (start ds).map Prod.fst = distinct ds := by simp [start, Function.comp_def]
  rw [solve_eq_saturate, ← hkeys]
  exact saturate_settled (fun o _ ho w hw => copied_subset hc ho hw) (within_start ds)
    (start_lt_fuel ds)

/-- Every entry keeps the definition that it belongs to. -/
theorem solve_reflexive (ds : List Definition) (ws : List (Definition × Reach × List Symbol)) :
    ∀ x ∈ solve ds ws, x.1 ∈ x.2 := by
  have hjoin : ∀ (o : Origins) d r, (∀ x ∈ o, x.1 ∈ x.2) → ∀ x ∈ joinAt o d r, x.1 ∈ x.2 := by
    intro o d r ho y hy
    obtain ⟨x, hx, rfl⟩ := List.mem_map.mp hy
    split
    · exact mem_union.mpr (Or.inl (ho x hx))
    · exact ho x hx
  have keep : ∀ o : Origins, (∀ x ∈ o, x.1 ∈ x.2) → ∀ x ∈ round ws o, x.1 ∈ x.2 := by
    intro o ho
    unfold round
    induction ws generalizing o with
    | nil => exact ho
    | cons w ws ih => exact ih _ (hjoin o w.1 _ ho)
  have hstart : ∀ x ∈ start ds, x.1 ∈ x.2 := by
    intro x hx
    obtain ⟨d, _, rfl⟩ := List.mem_map.mp hx
    exact List.mem_cons_self
  exact saturate_keeps keep _ hstart

theorem self_mem (ds : List Definition) (ws : List (Definition × Reach × List Symbol))
    (d : Definition) : d ∈ (solve ds ws).of d := by
  unfold Origins.of
  cases hl : (solve ds ws).lookup d with
  | none => exact List.mem_cons_self
  | some r => exact solve_reflexive ds ws _ (mem_of_lookup hl)

theorem copied_subset_solve (hc : Closed ds ws) {w : Definition × Reach × List Symbol}
    (hw : w ∈ ws) (hd : w.1 ∈ ds) : (solve ds ws).copied w ⊆ (solve ds ws).of w.1 := by
  obtain ⟨hkeys, _, hsettled⟩ := solve_settled hc
  have hmem : w.1 ∈ (solve ds ws).map Prod.fst := hkeys ▸ mem_distinct.mpr hd
  obtain ⟨r, hr⟩ := exists_lookup_of_mem_keys hmem
  have hsub := subset_of_joinAt_eq (hsettled w hw) hr
  simpa [Origins.of, hr] using hsub

end Origins

namespace Flow
variable {s : Scope}

theorem mem_symbolsOf_of_source {id : StatementId} {i : Instr}
    (h : s.procedure.instrAt? id = some i) {e : Effect} (he : e ∈ s.effectsOf i.action)
    {x : Symbol} (hx : x = e.symbol ∨ x ∈ e.sources) : x ∈ symbolsOf s (allFacts s) := by
  apply mem_distinct.mpr (List.mem_append.mpr (Or.inr _))
  apply List.mem_flatMap.mpr ⟨Fact.ofStatement s (id, i), _, _⟩
  · exact List.mem_map_of_mem (Procedure.mem_statements.mpr h)
  · apply List.mem_append.mpr (Or.inl _)
    exact List.mem_flatMap.mpr ⟨e, he, List.mem_cons.mpr hx⟩

/-- The writes that the origins are computed from. -/
def writes (s : Scope) : List (Definition × Reach × List Symbol) :=
  writesOf (allFacts s) (ofScope s).states

theorem mem_writes {w : Definition × Reach × List Symbol} :
    w ∈ writes s ↔ ∃ n k i, s.procedure.instrAt? ⟨s.procedure.name, n, (k : Nat)⟩ = some i ∧
      ∃ e ∈ s.effectsOf i.action,
        w = (⟨e.symbol, some ⟨s.procedure.name, n, k⟩⟩, holding s ⟨n, k⟩, e.sources) := by
  unfold writes writesOf
  rw [List.mem_flatMap]
  constructor
  · rintro ⟨f, hf, hw⟩
    obtain ⟨⟨id, i⟩, hmem, rfl⟩ := List.mem_map.mp hf
    obtain ⟨e, he, rfl⟩ := List.mem_map.mp hw
    have hi := Procedure.mem_statements.mp hmem
    obtain ⟨n, k, rfl, _⟩ := Procedure.exists_of_instrAt? hi
    refine ⟨n, k, i, hi, e, he, ?_⟩
    simp [Fact.ofStatement, stateBefore, states_lookup hi]
  · rintro ⟨n, k, i, hi, e, he, rfl⟩
    refine ⟨_, List.mem_map_of_mem (Procedure.mem_statements.mpr hi), ?_⟩
    refine List.mem_map.mpr ⟨e, he, ?_⟩
    simp [Fact.ofStatement, stateBefore, states_lookup hi]

theorem definitions_subset_written :
    (graph s).definitions ⊆ (graph s).initial ++ (writes s).map Prod.fst := by
  intro d hd
  rcases List.mem_append.mp hd with hd | hd
  · exact List.mem_append.mpr (Or.inl hd)
  · obtain ⟨node, hnode, hd⟩ := List.mem_flatMap.mp hd
    obtain ⟨id, _, rfl⟩ := List.mem_map.mp hnode
    obtain ⟨f, hf, hd⟩ := List.mem_flatMap.mp hd
    obtain ⟨e, he, rfl⟩ := List.mem_map.mp hd
    obtain ⟨k, hk⟩ := List.mem_iff_getElem?.mp hf
    rw [factsAt_getElem?, Option.map_eq_some_iff] at hk
    obtain ⟨i, hi, rfl⟩ := hk
    refine List.mem_append.mpr (Or.inr (List.mem_map.mpr ?_))
    exact ⟨_, mem_writes.mpr ⟨id, k, i, hi, e, he, rfl⟩, rfl⟩

theorem writes_closed :
    Origins.Closed ((graph s).initial ++ (writes s).map Prod.fst) (writes s) := by
  intro w hw x hx d hd
  obtain ⟨n, k, i, hi, e, he, rfl⟩ := mem_writes.mp hw
  rcases Reach.mem_of.mp hd with ⟨hd, _⟩ | ⟨rfl, _⟩
  · exact definitions_subset_written
      (holding_subset_definitions ⟨n, k⟩ (Procedure.hasNode_of_instrAt? hi) hd)
  · apply List.mem_append.mpr (Or.inl _)
    exact List.mem_map.mpr ⟨x, mem_symbolsOf_of_source hi he (Or.inr hx), rfl⟩

theorem origins_eq_solve : (ofScope s).origins =
    Origins.solve ((graph s).initial ++ (writes s).map Prod.fst) (writes s) := rfl

theorem mem_origins_self (d : Definition) : d ∈ (ofScope s).origins.of d := by
  rw [origins_eq_solve]
  exact Origins.self_mem _ _ d

/-- A write has the origins of all that its sources may hold just before it. -/
theorem origins_of_source {n : Int} {k : Nat} {i : Instr}
    (h : s.procedure.instrAt? ⟨s.procedure.name, n, k⟩ = some i) {e : Effect}
    (he : e ∈ s.effectsOf i.action) {x : Symbol} (hx : x ∈ e.sources) {d : Definition}
    (hd : d ∈ (holding s ⟨n, k⟩).of x) :
    (ofScope s).origins.of d ⊆
      (ofScope s).origins.of ⟨e.symbol, some ⟨s.procedure.name, n, k⟩⟩ := by
  have hw := mem_writes.mpr ⟨n, k, i, h, e, he, rfl⟩
  have hsub := Origins.copied_subset_solve writes_closed hw
    (List.mem_append.mpr (Or.inr (List.mem_map_of_mem hw)))
  rw [origins_eq_solve]
  intro d' hd'
  exact hsub (Origins.mem_copied.mpr ⟨x, hx, d, hd, hd'⟩)

/-! ### Value sets -/

theorem mem_valueSet {f : Flow} {x : Symbol} {id : StatementId} {after : Bool} {d : Definition} :
    d ∈ f.valueSet x id after ↔ ∃ d' ∈ (f.stateAt id after).of x, d ∈ f.origins.of d' :=
  Origins.mem_ofSymbol

theorem stateAt_false {n : Int} {k : Nat} {i : Instr}
    (h : s.procedure.instrAt? ⟨s.procedure.name, n, k⟩ = some i) :
    (ofScope s).stateAt ⟨s.procedure.name, n, k⟩ false = holding s ⟨n, k⟩ := by
  simp [stateAt, states_lookup h]

theorem stateAt_true {n : Int} {k : Nat} {i : Instr}
    (h : s.procedure.instrAt? ⟨s.procedure.name, n, k⟩ = some i) :
    (ofScope s).stateAt ⟨s.procedure.name, n, k⟩ true = holding s ⟨n, k + 1⟩ := by
  simp [stateAt, states_lookup h]

/-- Two symbols flow into each other when their values have a definition in common. -/
theorem flowsInto_of_common {a b : Symbol} {start stop : StatementId}
    (hstart : s.procedure.contains start = true) (hstop : s.procedure.contains stop = true)
    {d : Definition}
    (ha : d ∈ (ofScope s).valueSet a start ((ofScope s).defines a start))
    (hb : d ∈ (ofScope s).valueSet b stop false) :
    (ofScope s).flowsInto a b start stop = true := by
  have hcovers : ∀ id, s.procedure.contains id = true → (ofScope s).covers id = true := by
    intro id hid
    obtain ⟨i, hi⟩ := Procedure.contains_iff.mp hid
    obtain ⟨n, k, rfl, _⟩ := Procedure.exists_of_instrAt? hi
    simp [covers, states_lookup hi]
  unfold flowsInto
  rw [hcovers start hstart, hcovers stop hstop]
  simp only [Bool.and_self, if_true, List.any_eq_true]
  exact ⟨d, ha, by simpa using hb⟩

end Flow

end ActorOwnership
