import ActorOwnership.Proofs.Derivation
import ActorOwnership.Proofs.HandOff
import ActorOwnership.Proofs.Header
import ActorOwnership.Proofs.Regular
import ActorOwnership.Proofs.Tags

/-! More edges can only make the flow of values larger. This takes a graph in which the entry reaches
every node. There each symbol of the procedure has a definition at every point, so that no answer
rests on the incoming value that stands in for a missing definition, and which an edge could take
away. -/

namespace ActorOwnership
set_option autoImplicit false

namespace Procedure
variable {p p' : Procedure}

/-! ### Graphs with more edges -/

/-- The same procedure with the same nodes and statements, and perhaps more edges. -/
structure Widens (p p' : Procedure) : Prop where
  header : p.SameHeader p'
  node : ∀ id, p'.hasNode id = p.hasNode id
  instrs : ∀ id, p'.instrsAt id = p.instrsAt id
  precedes : ∀ a b, p.Precedes a b → p'.Precedes a b

theorem widens_connect (p : Procedure) (u v : Int) : p.Widens (p.connect u v) where
  header := by
    unfold connect
    split <;> rfl
  node := fun _ => hasNode_connect
  instrs := fun _ => instrsAt_connect
  precedes := by
    intro a b hab
    by_cases hboth : p.hasNode u = true ∧ p.hasNode v = true
    · rw [Precedes, predecessors_connect hboth.1 hboth.2]
      split
      · exact mem_insertNew.mpr (Or.inl hab)
      · exact hab
    · have hsame : p.connect u v = p := by
        apply if_neg
        rwa [Bool.and_eq_true]
      rw [hsame]
      exact hab

namespace Widens
variable (h : p.Widens p')
include h

theorem name : p.name = p'.name := by
  have hname := congrArg Procedure.name h.header
  exact hname

theorem entry : p.entry = p'.entry := by
  have hentry := congrArg Procedure.entry h.header
  exact hentry

theorem paramNames : p.paramNames = p'.paramNames := by
  have hparams := congrArg Procedure.paramNames h.header
  exact hparams

theorem instrAt? (t : StatementId) : p'.instrAt? t = p.instrAt? t := by
  unfold Procedure.instrAt?
  rw [h.name, h.instrs]

theorem walk {a b : Position} {xs : List StatementId} (hw : Walk p p.Precedes a xs b) :
    Walk p' p'.Precedes a xs b := by
  induction hw with
  | here => exact .here
  | step _ hi ih =>
    rw [h.name] at hi ⊢
    exact ih.step ((h.instrAt? _).trans hi)
  | @move _ n m _ hn he hm ih =>
    rw [← h.instrs] at ih
    exact ih.move ((h.node n).trans hn) (h.precedes n m he) ((h.node m).trans hm)

end Widens

end Procedure

/-! ### Definitions -/

theorem Reach.of_subset {r r' : Reach} {x : Symbol} (h : r ⊆ r')
    (hx : (∃ d ∈ r, d.symbol = x) ∨ ∀ d ∈ r', d.symbol ≠ x) : r.of x ⊆ r'.of x := by
  intro d hd
  apply Reach.mem_of.mpr
  rcases Reach.mem_of.mp hd with ⟨hd, hsym⟩ | ⟨rfl, hnone⟩
  · exact Or.inl ⟨h hd, hsym⟩
  · refine Or.inr ⟨rfl, hx.resolve_left ?_⟩
    rintro ⟨d', hd', hsym⟩
    exact hnone d' hd' hsym

namespace Flow

theorem mem_symbols {s : Scope} {x : Symbol} : x ∈ symbolsOf s (allFacts s) ↔
    x ∈ s.procedure.paramNames.map s.symbolOf ∨
      ∃ t i, s.procedure.instrAt? t = some i ∧ x ∈ (Fact.ofStatement s (t, i)).symbols := by
  unfold symbolsOf allFacts
  rw [mem_distinct, List.mem_append, List.mem_flatMap]
  apply or_congr_right
  constructor
  · rintro ⟨f, hf, hx⟩
    obtain ⟨⟨t, i⟩, hti, rfl⟩ := List.mem_map.mp hf
    exact ⟨t, i, Procedure.mem_statements.mp hti, hx⟩
  · rintro ⟨t, i, hi, hx⟩
    exact ⟨_, List.mem_map_of_mem (Procedure.mem_statements.mpr hi), hx⟩

theorem covers_eq {s : Scope} (t : StatementId) : (ofScope s).covers t = s.procedure.contains t := by
  unfold covers
  cases hcontains : s.procedure.contains t with
  | false => rw [states_lookup_eq_none hcontains, Option.isSome_none]
  | true =>
    obtain ⟨i, hi⟩ := Procedure.contains_iff.mp hcontains
    obtain ⟨n, k, rfl, _⟩ := Procedure.exists_of_instrAt? hi
    rw [states_lookup hi, Option.isSome_some]

theorem mem_origins_iff {s : Scope} {d d' : Definition} :
    d' ∈ (ofScope s).origins.of d ↔ Origins.Derives (writes s) d d' := by
  rw [origins_eq_solve]
  constructor
  · exact fun h => (Origins.derived_solve _ _).derives h
  · apply Origins.mem_solve_of_derives writes_closed
    exact fun w hw => List.mem_append.mpr (Or.inr (List.mem_map_of_mem hw))

section Widens
variable {p p' : Procedure} (h : p.Widens p') (library : Library)
include h

theorem fact?_widens (t : StatementId) :
    (ofScope ⟨p', library⟩).fact? t = (ofScope ⟨p, library⟩).fact? t := by
  rw [fact?_ofScope, fact?_ofScope]
  simp only [h.instrAt?, Fact.ofStatement_congr h.header]

theorem mem_symbols_widens {x : Symbol} :
    x ∈ symbolsOf ⟨p', library⟩ (allFacts ⟨p', library⟩) ↔
      x ∈ symbolsOf ⟨p, library⟩ (allFacts ⟨p, library⟩) := by
  rw [mem_symbols, mem_symbols]
  simp only [h.instrAt?, h.paramNames, Fact.ofStatement_congr h.header]
  apply or_congr_left
  rw [List.map_congr_left fun name _ => (Scope.symbolOf_congr h.header name)]

theorem carries_widens {x : Symbol} {a b : Position} (hab : Carries ⟨p, library⟩ x a b) :
    Carries ⟨p', library⟩ x a b := by
  obtain ⟨xs, hw, hkeep⟩ := hab
  refine ⟨xs, h.walk hw, ?_⟩
  intro t ht
  rw [resets, fact?_widens h]
  exact hkeep t ht

theorem arrives_widens {d : Definition} {b : Position} (hd : Arrives ⟨p, library⟩ d b) :
    Arrives ⟨p', library⟩ d b := by
  obtain ⟨x, st⟩ := d
  cases st with
  | none =>
    refine ⟨(mem_symbols_widens h library).mpr hd.1, ?_⟩
    have hcarries := carries_widens h library hd.2
    rw [h.entry] at hcarries
    exact hcarries
  | some t =>
    refine ⟨?_, carries_widens h library hd.2⟩
    rw [defines, fact?_widens h]
    exact hd.1

theorem holding_widens {n : Int} {k : Nat} (hk : k ≤ (p.instrsAt n).length) :
    holding ⟨p, library⟩ ⟨n, k⟩ ⊆ holding ⟨p', library⟩ ⟨n, k⟩ := by
  intro d hd
  apply (mem_holding_iff (s := ⟨p', library⟩) (h.instrs n ▸ hk)).mpr
  exact arrives_widens h library ((mem_holding_iff hk).mp hd)

/-! ### Graphs without dead code -/

variable (hreached : ∀ n k, p.hasNode n = true → k ≤ (p.instrsAt n).length →
  ∃ xs, Walk p p.Precedes ⟨p.entry, 0⟩ xs ⟨n, k⟩)
include hreached

theorem of_widens {n : Int} {k : Nat} (hn : p.hasNode n = true)
    (hk : k ≤ (p.instrsAt n).length) (x : Symbol) :
    (holding ⟨p, library⟩ ⟨n, k⟩).of x ⊆ (holding ⟨p', library⟩ ⟨n, k⟩).of x := by
  apply Reach.of_subset (holding_widens h library hk)
  by_cases hx : x ∈ symbolsOf ⟨p, library⟩ (allFacts ⟨p, library⟩)
  · obtain ⟨xs, hw⟩ := hreached n k hn hk
    exact Or.inl (exists_holding_of_walk hx hw)
  · -- a symbol that the procedure does not mention has no definition in either graph
    refine Or.inr fun d hd hsym => hx ?_
    have hn' : p'.hasNode n = true := (h.node n).trans hn
    have hmem := Tags.symbol_mem_of_holding (s := ⟨p', library⟩) hn' hd
    exact (mem_symbols_widens h library).mp (hsym ▸ hmem)

theorem derives_widens {d d' : Definition} (hd : Origins.Derives (writes ⟨p, library⟩) d d') :
    Origins.Derives (writes ⟨p', library⟩) d d' := by
  induction hd with
  | refl d => exact .refl d
  | copy hw hx hd _ ih =>
    obtain ⟨n, k, i, hi, e, he, rfl⟩ := mem_writes.mp hw
    have hi' : p'.instrAt? ⟨p.name, n, k⟩ = some i := (h.instrAt? _).trans hi
    have hk := (List.getElem?_eq_some_iff.mp ((p.instrAt?_mk n k).symm.trans hi)).1
    have hw' : (⟨e.symbol, some ⟨p.name, n, k⟩⟩, holding ⟨p', library⟩ ⟨n, k⟩, e.sources) ∈
        writes ⟨p', library⟩ := by
      rw [Scope.effectsOf_congr h.header] at he
      rw [h.name] at hi' ⊢
      exact mem_writes.mpr ⟨n, k, i, hi', e, he, rfl⟩
    have hof := of_widens h library hreached (Procedure.hasNode_of_instrAt? hi) (Nat.le_of_lt hk)
    have hcopy := Origins.Derives.copy hw' hx (hof _ hd) ih
    exact hcopy

theorem stateAt_of_widens (x : Symbol) (t : StatementId) (after : Bool) :
    ((ofScope ⟨p, library⟩).stateAt t after).of x ⊆
      ((ofScope ⟨p', library⟩).stateAt t after).of x := by
  cases hcontains : p.contains t with
  | false =>
    have hcontains' : p'.contains t = false := by
      rw [Procedure.contains, h.instrAt?]
      exact hcontains
    have hnone := states_lookup_eq_none (s := ⟨p, library⟩) hcontains
    have hnone' := states_lookup_eq_none (s := ⟨p', library⟩) hcontains'
    unfold stateAt
    rw [hnone, hnone']
    exact List.Subset.refl _
  | true =>
    obtain ⟨i, hi⟩ := Procedure.contains_iff.mp hcontains
    obtain ⟨n, k, rfl, hk⟩ := Procedure.exists_of_instrAt? hi
    have hk := (List.getElem?_eq_some_iff.mp hk).1
    have hn := Procedure.hasNode_of_instrAt? hi
    have hi' : p'.instrAt? ⟨p'.name, n, k⟩ = some i := by
      rw [← h.name, h.instrAt?]
      exact hi
    cases after with
    | false =>
      rw [stateAt_false (s := ⟨p, library⟩) hi, h.name, stateAt_false (s := ⟨p', library⟩) hi']
      exact of_widens h library hreached hn (Nat.le_of_lt hk) x
    | true =>
      rw [stateAt_true (s := ⟨p, library⟩) hi, h.name, stateAt_true (s := ⟨p', library⟩) hi']
      exact of_widens h library hreached hn hk x

theorem valueSet_widens (x : Symbol) (t : StatementId) (after : Bool) :
    (ofScope ⟨p, library⟩).valueSet x t after ⊆ (ofScope ⟨p', library⟩).valueSet x t after := by
  intro d hd
  obtain ⟨d', hd', horigin⟩ := mem_valueSet.mp hd
  apply mem_valueSet.mpr
  refine ⟨d', stateAt_of_widens h library hreached x t after hd', ?_⟩
  exact mem_origins_iff.mpr (derives_widens h library hreached (mem_origins_iff.mp horigin))

theorem flowsInto_widens {a b : Symbol} {start stop : StatementId}
    (hflows : (ofScope ⟨p, library⟩).flowsInto a b start stop = true) :
    (ofScope ⟨p', library⟩).flowsInto a b start stop = true := by
  have hcontains : ∀ t, p'.contains t = p.contains t := fun t => by
    rw [Procedure.contains, Procedure.contains, h.instrAt?]
  unfold flowsInto at hflows ⊢
  rw [covers_eq, covers_eq] at hflows ⊢
  simp only [hcontains] at hflows ⊢
  split at hflows
  · rename_i hboth
    rw [if_pos hboth, defines, fact?_widens h]
    obtain ⟨d, hsource, htarget⟩ := List.any_eq_true.mp hflows
    apply List.any_eq_true.mpr
    refine ⟨d, valueSet_widens h library hreached a start _ hsource, ?_⟩
    rw [List.contains_iff_mem] at htarget ⊢
    exact valueSet_widens h library hreached b stop false htarget
  · rename_i hnot
    rw [if_neg hnot]
    exact hflows

end Widens

/-- If each node is reached from the entry, and every edge is recorded at both ends, walks from the
entry get to every point. -/
theorem exists_walk_of_reaches {p : Procedure} (hsym : p.Symmetric)
    (hreach : ∀ n ∈ p.nodes, p.Reaches p.entry n.id) {n : Int} {k : Nat} (hn : p.hasNode n = true)
    (hk : k ≤ (p.instrsAt n).length) : ∃ xs, Walk p p.Precedes ⟨p.entry, 0⟩ xs ⟨n, k⟩ := by
  obtain ⟨node, hnode, rfl⟩ := Procedure.exists_mem_of_hasNode hn
  have hway : Relation.ReflTransGen p.Precedes p.entry node.id :=
    Relation.ReflTransGen.mono (fun a b => (hsym a b).mp) _ _ (hreach node hnode)
  have hentry : p.hasNode p.entry = true := by
    rcases Relation.ReflTransGen.cases_head hway with heq | ⟨m, hfirst, _⟩
    · exact heq ▸ hn
    · exact Procedure.LeadsTo.hasNode ((hsym _ m).mpr hfirst)
  exact Slice.walk_of_reachable hway hentry hk

/-- An edge more, in a graph where the entry reaches every node, takes nothing away: each value set
keeps its contents, before and after every statement, and what flows into something still does. -/
theorem valueSet_connect (s : Scope) (hsym : s.procedure.Symmetric)
    (hreach : ∀ n ∈ s.procedure.nodes, s.procedure.Reaches s.procedure.entry n.id) (u v : Int) :
    (∀ x t after, (ofScope s).valueSet x t after ⊆
      (ofScope { s with procedure := s.procedure.connect u v }).valueSet x t after) ∧
    ∀ a b start stop, (ofScope s).flowsInto a b start stop = true →
      (ofScope { s with procedure := s.procedure.connect u v }).flowsInto a b start stop = true := by
  have hwide := Procedure.widens_connect s.procedure u v
  have hreached : ∀ n k, s.procedure.hasNode n = true → k ≤ (s.procedure.instrsAt n).length →
      ∃ xs, Walk s.procedure s.procedure.Precedes ⟨s.procedure.entry, 0⟩ xs ⟨n, k⟩ :=
    fun n k hn hk => exists_walk_of_reaches hsym hreach hn hk
  exact ⟨valueSet_widens hwide s.library hreached,
    fun a b start stop => flowsInto_widens hwide s.library hreached⟩

/-- A copy of a field that is copied on and then replaced. -/
def passedOn : Scope where
  procedure := methodOf "A.m" []
    [{ id := 0, succs := [1], instrs := [⟨.unknown, .assign "x" (selfField "f")⟩] },
      { id := 1, preds := [0]
        instrs := [⟨.unknown, .assign "y" (.var "x")⟩, ⟨.unknown, .assign "x" (.const .none)⟩] }]

/-- The field still flows into its copy when an edge back to the start makes a loop. -/
theorem valueSet_connect_passedOn :
    passedOn.procedure.Symmetric ∧
    (∀ n ∈ passedOn.procedure.nodes, passedOn.procedure.Reaches 0 n.id) ∧
    (ofScope { passedOn with procedure := passedOn.procedure.connect 1 0 }).flowsInto
      (passedOn.fieldOf "f") (passedOn.symbolOf "x") ⟨"A.m", 0, 0⟩ ⟨"A.m", 1, 0⟩ = true := by
  have hsym : passedOn.procedure.Symmetric := by decide
  have hreach : ∀ n ∈ passedOn.procedure.nodes, passedOn.procedure.Reaches 0 n.id := by
    intro n hn
    rcases List.mem_cons.mp hn with rfl | hn
    · exact .refl
    · rw [List.mem_singleton.mp hn]
      exact .single List.mem_cons_self
  have hcarried : Carried passedOn "f" ⟨"A.m", 0, 0⟩ "x" ⟨1, 0⟩ :=
    .load (n := 0) (k := 0) rfl rfl rfl rfl
      ⟨[], .move .here rfl List.mem_cons_self rfl, List.forall_mem_nil _⟩
  refine ⟨hsym, hreach, (valueSet_connect passedOn hsym hreach 1 0).2 _ _ _ _ ?_⟩
  exact hcarried.flowsInto hsym rfl

end Flow

end ActorOwnership
