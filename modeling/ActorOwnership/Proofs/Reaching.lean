import ActorOwnership.Flow.Basic
import ActorOwnership.Proofs.Growth
import ActorOwnership.Proofs.Traversal

/-! The solution of reaching definitions is closed under the edges of the graph: what holds at the
end of a node holds at the start of each node that lists it as a predecessor. From this follows what
holds at each point of a procedure. -/

namespace ActorOwnership
set_option autoImplicit false

/-! ### Rows of statements -/

theorem Fact.mem_apply {f : Fact} {r : Reach} {d : Definition} :
    d ∈ f.apply r ↔ (d ∈ r ∧ f.resets d.symbol = false) ∨
      ∃ e ∈ f.effects, d = ⟨e.symbol, some f.statement⟩ := by
  unfold Fact.apply
  rw [mem_union, List.mem_filter, List.mem_map]
  refine or_congr (by simp) ?_
  constructor
  · rintro ⟨e, he, rfl⟩
    exact ⟨e, he, rfl⟩
  · rintro ⟨e, he, rfl⟩
    exact ⟨e, he, rfl⟩

/-- What holds after a row of statements. -/
def Reach.through (r : Reach) (fs : List Fact) : Reach := fs.foldl (fun r f => f.apply r) r

namespace Reach

theorem through_concat (r : Reach) (fs : List Fact) (f : Fact) :
    r.through (fs ++ [f]) = f.apply (r.through fs) := by
  simp [through]

theorem along_snd (r : Reach) (fs : List Fact) : (along r fs).2 = r.through fs := by
  induction fs generalizing r with
  | nil => rfl
  | cons f fs ih => exact ih (f.apply r)

/-- Each statement of a row is listed with what holds before and after it. -/
theorem mem_along_fst {r : Reach} {fs : List Fact} {x : StatementId × Reach × Reach} :
    x ∈ (along r fs).1 ↔ ∃ k f, fs[k]? = some f ∧
      x = (f.statement, r.through (fs.take k), r.through (fs.take (k + 1))) := by
  induction fs generalizing r with
  | nil => simp [along]
  | cons f fs ih =>
    simp only [along, List.mem_cons, ih]
    constructor
    · rintro (rfl | ⟨k, g, hg, rfl⟩)
      · exact ⟨0, f, rfl, rfl⟩
      · exact ⟨k + 1, g, hg, rfl⟩
    · rintro ⟨k, g, hg, rfl⟩
      cases k with
      | zero =>
        have hfg : f = g := by simpa using hg
        subst hfg
        exact Or.inl rfl
      | succ k => exact Or.inr ⟨k, g, by simpa using hg, rfl⟩

end Reach

/-! ### The solution -/

namespace FactGraph
variable (g : FactGraph)

/-- All definitions there can be: the entry values, and the writes of the statements. -/
def definitions : List Definition :=
  g.initial ++ g.nodes.flatMap fun n => n.2.2.flatMap fun f =>
    f.effects.map fun e => ⟨e.symbol, some f.statement⟩

theorem length_definitions : g.definitions.length = g.definitionCount := by
  simp [definitions, definitionCount, List.length_flatMap]

theorem mem_entering {o : Outcomes} {id : Int} {preds : List Int} {d : Definition} :
    d ∈ g.entering o id preds ↔
      (id = g.entry ∧ d ∈ g.initial) ∨ ∃ pred ∈ preds, d ∈ o.at_ pred := by
  unfold entering
  rw [mem_foldl_union]
  split <;> simp_all

/-- What a visit of a node finds at its end. -/
def leaving (o : Outcomes) (n : Int × List Int × List Fact) : Reach :=
  (g.entering o n.1 n.2.1).through n.2.2

variable {g}

theorem at_subset_definitions {o : Outcomes} (h : Within g.definitions o) (id : Int) :
    o.at_ id ⊆ g.definitions := by
  unfold Outcomes.at_
  cases hl : o.lookup id with
  | none => simp
  | some r => exact (h _ (mem_of_lookup hl)).2

theorem entering_subset_definitions {o : Outcomes} (h : Within g.definitions o) (id : Int)
    (preds : List Int) : g.entering o id preds ⊆ g.definitions := by
  intro d hd
  rcases (mem_entering g).mp hd with ⟨_, hd⟩ | ⟨pred, _, hd⟩
  · exact List.mem_append.mpr (Or.inl hd)
  · exact at_subset_definitions h pred hd

theorem through_subset_definitions {r : Reach} {fs : List Fact} (hr : r ⊆ g.definitions)
    (hfs : ∀ f ∈ fs, ∀ e ∈ f.effects, (⟨e.symbol, some f.statement⟩ : Definition) ∈ g.definitions) :
    r.through fs ⊆ g.definitions := by
  induction fs generalizing r with
  | nil => exact hr
  | cons f fs ih =>
    apply ih
    · intro d hd
      rcases Fact.mem_apply.mp hd with ⟨hd, _⟩ | ⟨e, he, rfl⟩
      · exact hr hd
      · exact hfs f List.mem_cons_self e he
    · exact fun f' hf' => hfs f' (List.mem_cons_of_mem f hf')

theorem write_mem_definitions {n : Int × List Int × List Fact} (hn : n ∈ g.nodes) {f : Fact}
    (hf : f ∈ n.2.2) {e : Effect} (he : e ∈ f.effects) :
    (⟨e.symbol, some f.statement⟩ : Definition) ∈ g.definitions := by
  apply List.mem_append.mpr (Or.inr _)
  apply List.mem_flatMap.mpr ⟨n, hn, _⟩
  exact List.mem_flatMap.mpr ⟨f, hf, List.mem_map.mpr ⟨e, he, rfl⟩⟩

theorem leaving_subset_definitions {o : Outcomes} (ho : Within g.definitions o)
    {n : Int × List Int × List Fact} (hn : n ∈ g.nodes) : g.leaving o n ⊆ g.definitions := by
  apply through_subset_definitions (entering_subset_definitions ho _ _)
  exact fun f hf e he => write_mem_definitions hn hf he

variable (g)

theorem solve_eq_saturate :
    g.solve = saturate volume (joinRound Prod.fst g.leaving g.nodes)
      (g.nodes.length * g.definitionCount + 1) g.start := by
  have hround : g.round = joinRound Prod.fst g.leaving g.nodes := by
    funext o
    unfold round joinRound
    congr 1
    funext o n
    rw [visit, Reach.along_snd]
    rfl
  rw [solve, hround]
  rfl

theorem within_start : Within g.definitions g.start := by
  intro x hx
  obtain ⟨n, _, rfl⟩ := List.mem_map.mp hx
  exact ⟨List.nodup_nil, List.nil_subset _⟩

/-- A definition for each node fits into the fuel. -/
theorem start_lt_fuel :
    g.start.length * g.definitions.length < g.nodes.length * g.definitionCount + 1 := by
  rw [length_definitions, start, List.length_map]
  exact Nat.lt_succ_self _

/-- The solution has an entry for each node, with definitions of the graph only, and what leaves a
node is in its entry. -/
theorem solve_settled :
    g.solve.map Prod.fst = g.nodes.map Prod.fst ∧ Within g.definitions g.solve ∧
      ∀ n ∈ g.nodes, joinAt g.solve n.1 (g.leaving g.solve n) = g.solve := by
  have hkeys : g.start.map Prod.fst = g.nodes.map Prod.fst := by
    simp [start, Function.comp_def]
  rw [solve_eq_saturate, ← hkeys]
  exact saturate_settled (fun o _ ho n hn => leaving_subset_definitions ho hn) g.within_start
    g.start_lt_fuel

theorem leaving_subset_solve {n : Int × List Int × List Fact} (hn : n ∈ g.nodes) :
    g.leaving g.solve n ⊆ g.solve.at_ n.1 := by
  obtain ⟨hkeys, _, hsettled⟩ := g.solve_settled
  have hmem : n.1 ∈ g.solve.map Prod.fst := hkeys ▸ List.mem_map_of_mem hn
  obtain ⟨r, hr⟩ := exists_lookup_of_mem_keys hmem
  have hsub := subset_of_joinAt_eq (hsettled n hn) hr
  simpa [Outcomes.at_, hr] using hsub

end FactGraph

/-! ### Points of a procedure -/

namespace Flow
variable (s : Scope)

def allFacts : List Fact := s.procedure.statements.map (Fact.ofStatement s)

/-- The graph that the flow of a procedure is computed from. -/
def graph : FactGraph := graphOf s (symbolsOf s (allFacts s))

/-- The definitions that hold at a point. -/
def holding (a : Position) : Reach :=
  ((graph s).entering (graph s).solve a.node (s.procedure.predecessors a.node)).through
    ((factsAt s a.node).take a.index)

variable {s}

theorem statementsAt_getElem? (p : Procedure) (id : Int) (k : Nat) :
    (p.statementsAt id)[k]? = (p.instrAt? ⟨p.name, id, k⟩).map fun i => (⟨p.name, id, k⟩, i) := by
  rw [Procedure.instrAt?_mk]
  cases hn : p.node? id with
  | none => simp [Procedure.statementsAt, Procedure.instrsAt, hn]
  | some n =>
    rw [Procedure.instrsAt_of_node? hn]
    simp only [Procedure.statementsAt, hn, Procedure.statementsOf, Procedure.node?_id hn,
      List.getElem?_map, List.getElem?_zipIdx, Option.map_map, Nat.zero_add]
    rfl

theorem factsAt_getElem? (id : Int) (k : Nat) :
    (factsAt s id)[k]? = (s.procedure.instrAt? ⟨s.procedure.name, id, k⟩).map fun i =>
      Fact.ofStatement s (⟨s.procedure.name, id, k⟩, i) := by
  rw [factsAt, List.getElem?_map, statementsAt_getElem?, Option.map_map]
  rfl

theorem length_factsAt (id : Int) : (factsAt s id).length = (s.procedure.instrsAt id).length := by
  cases hn : s.procedure.node? id with
  | none => simp [factsAt, Procedure.statementsAt, Procedure.instrsAt, hn]
  | some n => simp [factsAt, Procedure.statementsAt, Procedure.instrsAt, Procedure.statementsOf, hn]

theorem holding_succ {n : Int} {k : Nat} {i : Instr}
    (h : s.procedure.instrAt? ⟨s.procedure.name, n, k⟩ = some i) :
    holding s ⟨n, k + 1⟩ =
      (Fact.ofStatement s (⟨s.procedure.name, n, k⟩, i)).apply (holding s ⟨n, k⟩) := by
  have hk : (factsAt s n)[k]? = some (Fact.ofStatement s (⟨s.procedure.name, n, k⟩, i)) := by
    rw [factsAt_getElem?, h, Option.map_some]
  unfold holding
  rw [List.take_add_one, hk, Option.toList_some, Reach.through_concat]

theorem mem_graph_nodes {id : Int} {n : Node} (h : s.procedure.node? id = some n) :
    (id, s.procedure.predecessors id, factsAt s id) ∈ (graph s).nodes :=
  List.mem_map.mpr
    ⟨id, Procedure.mem_reversePostorder.mpr (Procedure.hasNode_iff.mpr ⟨n, h⟩), rfl⟩

theorem holding_start {n : Int} {d : Definition} :
    d ∈ holding s ⟨n, 0⟩ ↔ (n = s.procedure.entry ∧ d ∈ (graph s).initial) ∨
      ∃ m, s.procedure.Precedes m n ∧ d ∈ (graph s).solve.at_ m :=
  (graph s).mem_entering

/-- What holds at the end of a node holds at the start of the nodes that it precedes. -/
theorem holding_move {n m : Int} (hn : s.procedure.hasNode n = true)
    (he : s.procedure.Precedes n m) :
    holding s ⟨n, (s.procedure.instrsAt n).length⟩ ⊆ holding s ⟨m, 0⟩ := by
  obtain ⟨node, hnode⟩ := Procedure.hasNode_iff.mp hn
  have hleave := (graph s).leaving_subset_solve (mem_graph_nodes hnode)
  intro d hd
  rw [holding, ← length_factsAt, List.take_length] at hd
  exact holding_start.mpr (Or.inr ⟨n, he, hleave hd⟩)

theorem holding_entry {x : Symbol} (hx : x ∈ symbolsOf s (allFacts s)) :
    (⟨x, none⟩ : Definition) ∈ holding s ⟨s.procedure.entry, 0⟩ :=
  holding_start.mpr (Or.inl ⟨rfl, List.mem_map.mpr ⟨x, hx, rfl⟩⟩)

theorem holding_subset_definitions (a : Position) (ha : s.procedure.hasNode a.node = true) :
    holding s a ⊆ (graph s).definitions := by
  obtain ⟨node, hnode⟩ := Procedure.hasNode_iff.mp ha
  have hwithin := (graph s).solve_settled.2.1
  apply FactGraph.through_subset_definitions (FactGraph.entering_subset_definitions hwithin _ _)
  intro f hf e he
  exact FactGraph.write_mem_definitions (mem_graph_nodes hnode) (List.mem_of_mem_take hf) he

theorem mem_states {x : StatementId × Reach × Reach} : x ∈ (ofScope s).states ↔
    ∃ n k i, s.procedure.instrAt? ⟨s.procedure.name, n, (k : Nat)⟩ = some i ∧
      x = (⟨s.procedure.name, n, k⟩, holding s ⟨n, k⟩, holding s ⟨n, k + 1⟩) := by
  have hrows : x ∈ (ofScope s).states ↔
      ∃ id ∈ s.procedure.reversePostorder, ∃ j f, (factsAt s id)[j]? = some f ∧
        x = (f.statement, holding s ⟨id, j⟩, holding s ⟨id, j + 1⟩) := by
    have hstates : (ofScope s).states = (graph s).states (graph s).solve := rfl
    rw [hstates, FactGraph.states, List.mem_flatMap]
    simp only [graph, graphOf, List.mem_map, exists_exists_and_eq_and, Reach.mem_along_fst]
    rfl
  rw [hrows]
  constructor
  · rintro ⟨n, _, k, f, hf, rfl⟩
    rw [factsAt_getElem?, Option.map_eq_some_iff] at hf
    obtain ⟨i, hi, rfl⟩ := hf
    exact ⟨n, k, i, hi, rfl⟩
  · rintro ⟨n, k, i, hi, rfl⟩
    have hnode := Procedure.mem_reversePostorder.mpr (Procedure.hasNode_of_instrAt? hi)
    refine ⟨n, hnode, k, Fact.ofStatement s (⟨s.procedure.name, n, k⟩, i), ?_, rfl⟩
    rw [factsAt_getElem?, hi, Option.map_some]

/-- The states of a statement are what holds at the points before and after it. -/
theorem states_lookup {n : Int} {k : Nat} {i : Instr}
    (h : s.procedure.instrAt? ⟨s.procedure.name, n, k⟩ = some i) :
    (ofScope s).states.lookup ⟨s.procedure.name, n, k⟩ =
      some (holding s ⟨n, k⟩, holding s ⟨n, k + 1⟩) := by
  apply lookup_eq_some
  · exact mem_states.mpr ⟨n, k, i, h, rfl⟩
  · intro x hx hkey
    obtain ⟨m, j, _, _, rfl⟩ := mem_states.mp hx
    simp only [StatementId.mk.injEq, true_and, Int.natCast_inj] at hkey
    rw [hkey.1, hkey.2]

theorem states_lookup_eq_none {t : StatementId} (h : s.procedure.contains t = false) :
    (ofScope s).states.lookup t = none := by
  rw [List.lookup_eq_none_iff]
  intro x hx
  obtain ⟨n, k, i, hi, rfl⟩ := mem_states.mp hx
  rw [bne_iff_ne]
  rintro rfl
  rw [Procedure.contains, hi] at h
  cases h

/-- At every point that a walk from the entry gets to, each symbol of the procedure has a
definition. -/
theorem exists_holding_of_walk {x : Symbol} (hx : x ∈ symbolsOf s (allFacts s))
    {xs : List StatementId} {a : Position}
    (hw : Walk s.procedure s.procedure.Precedes ⟨s.procedure.entry, 0⟩ xs a) :
    ∃ d ∈ holding s a, d.symbol = x := by
  induction hw with
  | here => exact ⟨_, holding_entry hx, rfl⟩
  | @step _ n k i _ hi ih =>
    obtain ⟨d, hd, rfl⟩ := ih
    rw [holding_succ hi]
    cases hreset : (Fact.ofStatement s (⟨s.procedure.name, n, k⟩, i)).resets d.symbol with
    | false => exact ⟨d, Fact.mem_apply.mpr (Or.inl ⟨hd, hreset⟩), rfl⟩
    | true =>
      -- what replaces a symbol also writes it
      obtain ⟨e, he, hboth⟩ := List.any_eq_true.mp hreset
      rw [Bool.and_eq_true, beq_iff_eq] at hboth
      exact ⟨_, Fact.mem_apply.mpr (Or.inr ⟨e, he, rfl⟩), hboth.1⟩
  | move _ hn he _ ih =>
    obtain ⟨d, hd, hsym⟩ := ih
    exact ⟨d, holding_move hn he hd, hsym⟩

theorem fact?_ofScope (id : StatementId) :
    (ofScope s).fact? id = (s.procedure.instrAt? id).map fun i => Fact.ofStatement s (id, i) := by
  have hfacts : (ofScope s).facts = allFacts s := rfl
  unfold fact?
  rw [hfacts]
  cases hi : s.procedure.instrAt? id with
  | none =>
    rw [Option.map_none, List.find?_eq_none]
    intro f hf heq
    obtain ⟨⟨id', i⟩, hmem, rfl⟩ := List.mem_map.mp hf
    have hid : id' = id := by simpa [Fact.ofStatement] using heq
    rw [Procedure.mem_statements, hid, hi] at hmem
    cases hmem
  | some i =>
    have hmem : Fact.ofStatement s (id, i) ∈ allFacts s :=
      List.mem_map_of_mem (Procedure.mem_statements.mpr hi)
    cases hf : (allFacts s).find? (·.statement == id) with
    | none =>
      have := List.find?_eq_none.mp hf _ hmem
      simp [Fact.ofStatement] at this
    | some f =>
      have hkey := List.find?_some hf
      obtain ⟨⟨id', i'⟩, hmem', rfl⟩ := List.mem_map.mp (List.mem_of_find?_eq_some hf)
      have hid : id' = id := by simpa [Fact.ofStatement] using hkey
      subst hid
      rw [Procedure.mem_statements, hi, Option.some.injEq] at hmem'
      rw [hmem', Option.map_some]

end Flow

end ActorOwnership
