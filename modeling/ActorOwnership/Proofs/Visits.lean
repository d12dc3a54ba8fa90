import ActorOwnership.Proofs.Justified
import Mathlib.Data.List.Nodup

/-! What a sweep visits, and in which order. The loop over the queue comes to an end. It starts with the
node of the hand-off and then takes every node from which the graph leads there exactly once, the node
of the hand-off itself among them if some way leads back to it. Only the first visit is partial. -/

namespace ActorOwnership
set_option autoImplicit false

/-! ### The order of the visits -/

namespace Slice
variable {p : Procedure} {start : Int}

/-- The nodes that were visited, followed by those in the queue: the first node and then `rest`,
without repetition. The first node stands in `rest` once it has been met again. -/
structure Lined (start : Int) (done : List Int) (f : Frontier) (rest : List Int) : Prop where
  order : done ++ f.queue = start :: rest
  nodup : rest.Nodup
  again : start ∈ rest ↔ f.looped = true
  distinct : f.seen.Nodup
  seen : ∀ x, x ∈ f.seen ↔ x = start ∨ x ∈ rest

section Lined
variable {done : List Int} {f : Frontier} {rest : List Int}

theorem Lined.push (h : Lined start done f rest) {f' : Frontier} {id : Int} (hnew : id ∉ rest)
    (hqueue : f'.queue = f.queue ++ [id]) (hlooped : f'.looped = true ↔ f.looped = true ∨ id = start)
    (hdistinct : f'.seen.Nodup) (hseen : ∀ x, x ∈ f'.seen ↔ x ∈ f.seen ∨ x = id) :
    Lined start done f' (rest ++ [id]) := by
  refine ⟨?_, ?_, ?_, hdistinct, ?_⟩
  · rw [hqueue, ← List.append_assoc, h.order, List.cons_append]
  · exact h.nodup.append (List.nodup_singleton id) (by simpa using hnew)
  · rw [List.mem_append, List.mem_singleton, h.again, hlooped, eq_comm (a := start)]
  · intro x
    rw [hseen, h.seen, List.mem_append, List.mem_singleton, or_assoc]

theorem Lined.meet (h : Lined start done f rest) (id : Int) :
    ∃ rest', Lined start done (f.meet start id) rest' := by
  have hstart : start ∈ f.seen := (h.seen start).mpr (Or.inl rfl)
  -- The first node is seen from the start, and is queued once more when it is met again.
  by_cases hagain : id = start ∧ f.looped = false
  · obtain ⟨rfl, hl⟩ := hagain
    rw [meet_again h.distinct hl]
    have hnew : id ∉ rest := fun hx => by simp [h.again.mp hx] at hl
    refine ⟨_, h.push hnew rfl (by simp) ?_ ?_⟩
    · exact List.nodup_cons.mpr ⟨h.distinct.not_mem_erase, h.distinct.erase id⟩
    · intro x
      rw [List.mem_cons, h.distinct.mem_erase_iff]
      by_cases hx : x = id <;> simp [hx, hstart]
  · by_cases hseen : id ∈ f.seen
    · have hplain : f.looped = true ∨ id ≠ start := by
        by_cases hid : id = start
        · exact Or.inl (by simpa [hid] using hagain)
        · exact Or.inr hid
      rw [meet_seen hseen hplain]
      exact ⟨rest, h⟩
    · have hne : id ≠ start := fun heq => hseen (heq ▸ hstart)
      rw [meet_new hseen hne]
      refine ⟨_, h.push (fun hx => hseen ((h.seen id).mpr (Or.inr hx))) rfl (by simp [hne]) ?_ ?_⟩
      · exact List.nodup_cons.mpr ⟨hseen, h.distinct⟩
      · intro x
        rw [List.mem_cons, or_comm]

theorem Lined.foldl (h : Lined start done f rest) (ids : List Int) :
    ∃ rest', Lined start done (ids.foldl (Frontier.meet start) f) rest' := by
  induction ids generalizing f rest with
  | nil => exact ⟨rest, h⟩
  | cons id ids ih =>
    obtain ⟨rest', h'⟩ := h.meet id
    exact ih h'

theorem Lined.take (h : Lined start done f rest) {id : Int} {queue : List Int}
    (hq : f.queue = id :: queue) : Lined start (done ++ [id]) { f with queue } rest :=
  ⟨by rw [← h.order, hq, List.append_assoc, List.singleton_append], h.nodup, h.again, h.distinct,
    h.seen⟩

/-- After the first visit every visit is one of a whole node. -/
theorem Lined.whole (h : Lined start done f rest) (hdone : done ≠ []) {id : Int} {queue : List Int}
    (hq : f.queue = id :: queue) : (f.looped || id != start) = true := by
  obtain ⟨first, done, rfl⟩ := List.exists_cons_of_ne_nil hdone
  have horder := h.order
  rw [hq, List.cons_append, List.cons.injEq] at horder
  have hid : id ∈ rest := horder.2 ▸ List.mem_append.mpr (Or.inr List.mem_cons_self)
  by_cases heq : id = start
  · simp [h.again.mp (heq ▸ hid)]
  · simp [heq]

end Lined

theorem Underway.visits_lined {fuel : Nat} {done : List (Int × Bool)} {f : Frontier}
    {rest : List Int} (hunder : Underway p start fuel done f)
    (h : Lined start (done.map Prod.fst) f rest) (hdone : done ≠ []) :
    ∃ later, visits p start fuel f = later.map (fun n => (n, true)) ∧
      ∃ rest', done.map Prod.fst ++ later = start :: rest' ∧ rest'.Nodup := by
  have hend : f.queue = [] → ∃ rest', done.map Prod.fst ++ [] = start :: rest' ∧ rest'.Nodup := by
    intro hq
    exact ⟨rest, hq ▸ h.order, h.nodup⟩
  -- Along the run the line only grows at its end, and what was visited is its beginning.
  induction fuel generalizing done f rest with
  | zero => exact ⟨[], rfl, hend hunder.nil_of_exhausted⟩
  | succ fuel ih =>
    cases hq : f.queue with
    | nil => exact ⟨[], by simp [Slice.visits, hq], hend hq⟩
    | cons id queue =>
      obtain ⟨rest', h'⟩ := (h.take hq).foldl (p.predecessors id)
      have hvisit := hunder.visit hq
      rw [h.whole (by simpa using hdone) hq] at hvisit
      have hids : (done ++ [(id, true)]).map Prod.fst = done.map Prod.fst ++ [id] := by simp
      obtain ⟨later, hlater, rest'', horder, hnodup⟩ := ih hvisit (hids ▸ h') (by simp)
        fun hq' => ⟨rest', by rw [hids, ← h'.order, hq'], h'.nodup⟩
      refine ⟨id :: later, ?_, rest'', ?_, hnodup⟩
      · simp only [Slice.visits, hq, h.whole (by simpa using hdone) hq, hlater, List.map_cons]
      · rw [← horder, hids, List.append_assoc, List.singleton_append]

/-- The visits of a slice: first the node of the hand-off up to the hand-off, and then, each once and
as a whole, the nodes from which the graph leads to it. -/
theorem nodes_eq (p : Procedure) (h : StatementId) :
    ∃ rest : List Int, nodes p h = (h.node, false) :: rest.map (fun n => (n, true)) ∧ rest.Nodup ∧
      ∀ n, n ∈ rest ↔ Relation.TransGen p.Precedes n h.node := by
  have hstart : Lined h.node [] { queue := [h.node], seen := [h.node] } [] :=
    ⟨rfl, List.nodup_nil, by simp, List.nodup_singleton _, by simp⟩
  obtain ⟨rest, hfirst⟩ := (hstart.take rfl).foldl (p.predecessors h.node)
  have hunder := (underway_start p h.node).visit rfl
  obtain ⟨later, hlater, rest', horder, hnodup⟩ := hunder.visits_lined hfirst (by simp)
  obtain rfl : later = rest' := (List.cons.inj horder).2
  have heq : nodes p h = (h.node, false) :: later.map (fun n => (n, true)) := by
    rw [nodes, Slice.visits, ← hlater]
    simp
  refine ⟨later, heq, hnodup, fun n => ⟨fun hn => ?_, fun hn => ?_⟩⟩
  · have hmem : (n, true) ∈ nodes p h := heq ▸ List.mem_cons_of_mem _ (List.mem_map_of_mem hn)
    exact (of_mem_nodes hmem).2 rfl
  · have hmem := mem_nodes_of_precedes hn
    rw [heq] at hmem
    simpa using hmem

end Slice

/-! ### The loop of a sweep -/

namespace Sweep
variable {w : Sweep} {trace : Trace}

def counted (w : Sweep) (f : Slice.Frontier) (id : Int) : List (StatementId × Instr) :=
  if f.looped || id != w.point.statement.node then w.procedure.statementsAt id
  else (w.procedure.statementsAt id).take (w.point.statement.index.toNat + 1)

/-- The loop of a sweep. It takes a node from the queue, deals with the statements that count one after
the other, and meets the predecessors of the node, until the queue is empty. The visits are listed with
the statements dealt with. -/
inductive Passes (w : Sweep) (trace : Trace) : Slice.Frontier → State →
    List (Int × List (StatementId × Instr)) → State → Prop where
  | done {f : Slice.Frontier} {s : State} : f.queue = [] → Passes w trace f s [] s
  | visit {f : Slice.Frontier} {id : Int} {queue : List Int} {s s₁ s₂ : State}
      {visits : List (Int × List (StatementId × Instr))} : f.queue = id :: queue →
      (w.checkStatements trace (w.counted f id)).run.run s = (.ok (), s₁) →
      Passes w trace ((w.procedure.predecessors id).foldl
        (Slice.Frontier.meet w.point.statement.node) { f with queue }) s₁ visits s₂ →
      Passes w trace f s ((id, w.counted f id) :: visits) s₂

theorem checkStatements_append (xs ys : List (StatementId × Instr)) :
    w.checkStatements trace (xs ++ ys) =
      w.checkStatements trace xs >>= fun _ => w.checkStatements trace ys := by
  induction xs with
  | nil => simp [checkStatements]
  | cons x xs ih => simp [checkStatements, ih]

def visited (w : Sweep) (v : Int × Bool) : Int × List (StatementId × Instr) :=
  (v.1, if v.2 then w.procedure.statementsAt v.1
    else (w.procedure.statementsAt v.1).take (w.point.statement.index.toNat + 1))

/-- The loop ends, with the visits of the slice. -/
theorem passes_visits (hc : w.context.Coherent) (hpass : w.pass = .givesUp) {fuel : Nat}
    {done : List (Int × Bool)} {f : Slice.Frontier}
    (h : Slice.Underway w.procedure w.point.statement.node fuel done f) {s s' : State}
    (hs : Sound w s)
    (hrun : (w.checkStatements trace (((Slice.visits w.procedure w.point.statement.node fuel f).map
      w.visited).flatMap Prod.snd)).run.run s = (.ok (), s')) :
    Passes w trace f s
      ((Slice.visits w.procedure w.point.statement.node fuel f).map w.visited) s' := by
  induction fuel generalizing done f s with
  | zero =>
    cases hrun
    exact .done h.nil_of_exhausted
  | succ fuel ih =>
    cases hq : f.queue with
    | nil =>
      simp only [Slice.visits, hq] at hrun ⊢
      cases hrun
      exact .done hq
    | cons id queue =>
      simp only [Slice.visits, hq, List.map_cons, List.flatMap_cons] at hrun ⊢
      rw [checkStatements_append] at hrun
      obtain ⟨_, s₁, hrun₁, hs₁, _⟩ := safe_checkStatements hc hpass trace (w.counted f id) s hs
      have hfirst : (w.visited (id, f.looped || id != w.point.statement.node)).2 = w.counted f id :=
        rfl
      rw [hfirst, run_bind_ok hrun₁] at hrun
      exact .visit hq hrun₁ (ih (h.visit hq) hs₁ hrun)

/-- A sweep gives a result, and its loop makes the visits of the slice. -/
theorem perform_passes (trace : Trace) (hc : w.context.Coherent) (hpass : w.pass = .givesUp)
    {s₀ : State} (hs₀ : Sound w s₀) : ∃ s s',
      (w.perform trace).run.run s₀ =
        (.ok (s'.violations, (Slice.of w.procedure w.point.statement).map Prod.fst), s') ∧
      Passes w trace { queue := [w.point.statement.node], seen := [w.point.statement.node] } s
        (Slice.of w.procedure w.point.statement) s' := by
  obtain ⟨s, hs, _, hstart⟩ := perform_start hc trace hs₀
  obtain ⟨_, s', hrun, _, _⟩ := safe_checkStatements hc hpass trace
    ((Slice.of w.procedure w.point.statement).flatMap Prod.snd) s hs
  refine ⟨s, s', hstart.trans (sweepSlice_run hrun), ?_⟩
  exact passes_visits hc hpass (Slice.underway_start w.procedure w.point.statement.node) hs hrun

end Sweep

/-! ### The statements of the visits -/

namespace Procedure

def firstIds (p : Procedure) (n : Int) (count : Nat) : List StatementId :=
  (List.range count).map fun k : Nat => ⟨p.name, n, k⟩

theorem statementsAt_ids (p : Procedure) (n : Int) :
    (p.statementsAt n).map Prod.fst = p.firstIds n (p.instrsAt n).length := by
  cases hn : p.node? n with
  | none => simp [statementsAt, instrsAt, firstIds, hn]
  | some m =>
    have hid := node?_id hn
    calc (p.statementsAt n).map Prod.fst
        = (m.instrs.zipIdx.map Prod.snd).map fun k : Nat => (⟨p.name, m.id, k⟩ : StatementId) := by
          simp [statementsAt, hn, statementsOf, Function.comp_def, List.map_map, -List.zipIdx_map_snd]
      _ = p.firstIds n (p.instrsAt n).length := by
          rw [List.zipIdx_map_snd, ← List.range_eq_range', hid, instrsAt_of_node? hn, firstIds]

theorem take_firstIds (p : Procedure) (n : Int) {count total : Nat} (h : count ≤ total) :
    (p.firstIds n total).take count = p.firstIds n count := by
  rw [firstIds, ← List.map_take, List.take_range, Nat.min_eq_left h, firstIds]

end Procedure

namespace Slice
variable {p : Procedure}

theorem instrAt?_of_mem {h : StatementId} {v : Int × List (StatementId × Instr)} (hv : v ∈ of p h)
    {st : StatementId × Instr} (hst : st ∈ v.2) : p.instrAt? st.1 = some st.2 := by
  obtain ⟨⟨id, whole⟩, _, rfl⟩ := List.mem_map.mp hv
  have hmem : st ∈ p.statementsAt id := by
    cases whole with
    | true => exact hst
    | false => exact List.mem_of_mem_take hst
  obtain ⟨_, _, hi⟩ := Procedure.mem_statementsAt.mp hmem
  exact hi

theorem of_eq {n : Int} {k : Nat} (hk : k < (p.instrsAt n).length) :
    ∃ rest : List Int, (of p ⟨p.name, n, k⟩).map (fun v => (v.1, v.2.map Prod.fst)) =
        (n, p.firstIds n (k + 1)) :: rest.map (fun m => (m, p.firstIds m (p.instrsAt m).length)) ∧
      rest.Nodup ∧ ∀ m, m ∈ rest ↔ Relation.TransGen p.Precedes m n := by
  obtain ⟨rest, hnodes, hnodup, hrest⟩ := nodes_eq p ⟨p.name, n, k⟩
  refine ⟨rest, ?_, hnodup, hrest⟩
  unfold nodes at hnodes
  rw [of, hnodes]
  simp [Function.comp_def, Procedure.statementsAt_ids, List.map_take,
    Procedure.take_firstIds p n (Nat.succ_le_of_lt hk)]

end Slice

/-! ### Sweeps -/

theorem HandOffPoint.sweep_eq {g : Program} {h : HandOffPoint} {p : Procedure}
    (hp : g.find? h.procedure = some p) (hcontains : p.contains h.statement = true) (pass : Pass) :
    h.sweep (.ofProgram g) pass = .ok ⟨.ofProgram g, pass, h, .ofScope ⟨p, g.library⟩⟩ := by
  have hflow := (Context.coherent_ofProgram g).flow?_eq_some.mpr ⟨p, hp, rfl⟩
  unfold sweep
  rw [hflow]
  exact if_pos hcontains

theorem HandOffPoint.run_passes {g : Program} {h : HandOffPoint} {p : Procedure}
    (hp : g.find? h.procedure = some p) (hcontains : p.contains h.statement = true)
    (names : List String) (trace : Option Trace) :
    ∃ w s s', h.sweep (.ofProgram g) .givesUp = .ok w ∧
      h.run (.ofProgram g) .givesUp trace (.asked (.ofProgram g) names) =
        (.ok (s'.violations, (Slice.of p h.statement).map Prod.fst), s') ∧
      w.Passes (trace.getD (h.initialTrace p))
        { queue := [h.statement.node], seen := [h.statement.node] } s (Slice.of p h.statement) s' := by
  have hw := sweep_eq hp hcontains .givesUp
  have hc := Context.coherent_ofProgram g
  have hsound : Sweep.Sound ⟨.ofProgram g, .givesUp, h, .ofScope ⟨p, g.library⟩⟩
      { table := .asked (.ofProgram g) names } :=
    ⟨SummaryTable.built_asked hc names, by simp⟩
  obtain ⟨s, s', hrun, hpasses⟩ :=
    Sweep.perform_passes (trace.getD (h.initialTrace p)) hc rfl hsound
  refine ⟨_, s, s', hw, ?_, hpasses⟩
  rw [run, hw]
  exact hrun

/-- The sweep from a statement of a procedure gives a result, and its loop comes to an end. It
examines the node of the hand-off and then, each of them once, exactly the nodes from which edges
lead to it, the node itself among them if it lies on a cycle. On the first visit the statements up
to the hand-off are dealt with in their order, on any other visit all of the node. -/
theorem sweep_visits {g : Program} {h : HandOffPoint} {p : Procedure} {n : Int} {k : Nat}
    (hp : g.find? h.procedure = some p) (hstatement : h.statement = ⟨p.name, n, k⟩)
    (hk : k < (p.instrsAt n).length) (names : List String) (trace : Option Trace) :
    ∃ w rest visits s s', h.sweep (.ofProgram g) .givesUp = .ok w ∧
      h.run (.ofProgram g) .givesUp trace (.asked (.ofProgram g) names) =
        (.ok (s'.violations, n :: rest), s') ∧
      w.Passes (trace.getD (h.initialTrace p)) { queue := [n], seen := [n] } s visits s' ∧
      visits.map (fun v => (v.1, v.2.map Prod.fst)) =
        (n, p.firstIds n (k + 1)) ::
          rest.map (fun m => (m, p.firstIds m (p.instrsAt m).length)) ∧
      (∀ v ∈ visits, ∀ st ∈ v.2, p.instrAt? st.1 = some st.2) ∧
      rest.Nodup ∧ ∀ m, m ∈ rest ↔ Relation.TransGen p.Precedes m n := by
  have hcontains : p.contains h.statement = true := by
    rw [Procedure.contains, hstatement, Procedure.instrAt?_mk, List.getElem?_eq_getElem hk]
    rfl
  obtain ⟨w, s, s', hw, hrun, hpasses⟩ := HandOffPoint.run_passes hp hcontains names trace
  obtain ⟨rest, hids, hnodup, hrest⟩ := Slice.of_eq hk
  have hexamined : (Slice.of p h.statement).map Prod.fst = n :: rest := by
    have h := congrArg (List.map Prod.fst) hids
    simpa [hstatement, Function.comp_def] using h
  have hnode : h.statement.node = n := by rw [hstatement]
  refine ⟨w, rest, Slice.of p h.statement, s, s', hw, hexamined ▸ hrun, hnode ▸ hpasses, ?_, ?_,
    hnodup, hrest⟩
  · rw [hstatement]
    exact hids
  · intro v hv st hst
    exact Slice.instrAt?_of_mem hv hst

/-- Hands its parameter off in a node that leads to itself, and whose predecessors name it twice and
name a node that does not exist. -/
def resender : Procedure :=
  methodOf "A.m" ["y"]
    [{ id := 0, instrs := [printCall (.var "y")] },
      { id := 1, instrs := [printCall (.var "self"), sendCall (.var "y"), printCall (.var "y")],
        preds := [0, 1, 1, 9] }]

def resending : Program where
  procedures := [resender]

def resentPoint : HandOffPoint := ⟨⟨"y", .parameter, "A.m"⟩, ⟨"A.m", 1, 1⟩, "A.m"⟩

theorem sweep_visits_resending :
    ∃ w visits s s', resentPoint.sweep (.ofProgram resending) .givesUp = .ok w ∧
      resentPoint.run (.ofProgram resending) .givesUp none [] =
        (.ok (s'.violations, [1, 0, 1, 9]), s') ∧
      w.Passes (resentPoint.initialTrace resender) { queue := [1], seen := [1] } s visits s' ∧
      visits.map (fun v => (v.1, v.2.map fun st => st.1.index)) =
        [(1, [0, 1]), (0, [0]), (1, [0, 1, 2]), (9, [])] := by
  obtain ⟨w, rest, visits, s, s', hw, hrun, hpasses, hvisits, _⟩ :=
    sweep_visits (g := resending) (h := resentPoint) (p := resender) (n := 1) (k := 1)
      rfl rfl (by decide) [] none
  obtain ⟨_, _, s'', _, hrun', _⟩ :=
    HandOffPoint.run_passes (g := resending) (h := resentPoint) rfl (by decide) [] none
  have hslice : (Slice.of resender resentPoint.statement).map Prod.fst = [1, 0, 1, 9] := by decide
  obtain rfl : rest = [0, 1, 9] := by
    rw [hrun, hslice, Prod.mk.injEq, Except.ok.injEq] at hrun'
    simpa using (Prod.mk.inj hrun'.1).2
  refine ⟨w, visits, s, s', hw, hrun, hpasses, ?_⟩
  have hindices := congrArg (List.map fun v => (v.1, v.2.map StatementId.index)) hvisits
  rw [List.map_map] at hindices
  simpa only [Function.comp_def, List.map_map] using hindices.trans (by decide)

end ActorOwnership
