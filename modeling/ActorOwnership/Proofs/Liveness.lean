import Mathlib.Data.Nat.Find
import ActorOwnership.Proofs.Activation

/-! Liveness is not under-approximated: a search that answers no has no read within its reach. -/

namespace ActorOwnership
set_option autoImplicit false

open SummaryTable (Built)

namespace Liveness
variable {c : Context} {u : SummaryTable} {x : Symbol}

/-! ### Searches that answer no -/

theorem anyOf_run {ask : String → StateM SummaryTable Bool} (hask : ∀ q, Steady c (ask q))
    {names : List String} (h : (anyOf ask names).run u = (false, u)) {q : String}
    (hq : q ∈ names) : (ask q).run u = (false, u) := by
  induction names with
  | nil => cases hq
  | cons name names ih =>
    obtain ⟨b, t, hrun⟩ : ∃ b t, (ask name).run u = (b, t) := ⟨_, _, rfl⟩
    have hgrow : u <+: t := by
      have := (hask name).grows u
      rw [hrun] at this
      exact this
    rw [anyOf, run_bind, hrun] at h
    cases b with
    | true => cases h
    | false =>
      obtain rfl := (steady_anyOf hask names).eq_of_run hgrow h
      rcases List.mem_cons.mp hq with rfl | hq
      · exact hrun
      · exact ih h hq

theorem askWithin_false (hc : c.Coherent) {fuel : Nat} {active : List String} {q : String}
    (h : (askWithin c x fuel active q).run u = (false, u)) :
    (searchWithin c x fuel active false none q).run u = (false, u) := by
  rw [askWithin, run_bind] at h
  have hback := (steady_searchWithin hc _ _ _ _ _).eq_of_run ((Steady.request hc q).grows u) h
  rw [← hback] at h
  exact h

section Search
variable {fuel : Nat} {active : List String} {escalate : Bool} {after : Option StatementId}
  {name : String} {f : Flow}

theorem exploreWithin_of_false (hc : c.Coherent) (hflow : c.flow? name = some f)
    (hactive : name ∉ active)
    (h : (searchWithin c x (fuel + 1) active escalate after name).run u = (false, u)) :
    ∃ r, (exploreWithin c x fuel (name :: active) f after).run u = (r, u) ∧ r ≠ .read ∧
      (r = .through → escalate = true → (anyOf (askWithin c x fuel (name :: active))
        (successors c f.scope.procedure x)).run u = (false, u)) := by
  obtain ⟨r, t, hrun⟩ : ∃ r t,
      (exploreWithin c x fuel (name :: active) f after).run u = (r, t) := ⟨_, _, rfl⟩
  have hbelow : ∀ active q, Steady c (searchWithin c x fuel active false none q) :=
    fun _ _ => steady_searchWithin hc _ _ _ _ _
  have hgrow := (steady_exploreWithin hc hbelow (name :: active) f after).grows u
  rw [hrun] at hgrow
  rw [searchWithin_succ hflow hactive, run_bind, hrun] at h
  cases r with
  | read => cases h
  | reset =>
    cases h
    exact ⟨.reset, hrun, by simp, by simp⟩
  | through =>
    cases escalate with
    | false =>
      cases h
      exact ⟨.through, hrun, by simp, by simp⟩
    | true =>
      obtain rfl := (steady_anyOf (steady_askWithin hc hbelow _) _).eq_of_run hgrow h
      exact ⟨.through, hrun, by simp, fun _ _ => h⟩

theorem readsAt_false (hc : c.Coherent) {id : StatementId}
    (h : (readsAt c f x (askWithin c x fuel active) id).run u = (false, u)) :
    x ∉ f.readsAt id ∧ ∀ q, c.selfCallee? f id = some q →
      (searchWithin c x fuel active false none q.name).run u = (false, u) := by
  unfold readsAt at h
  split at h
  · cases h
  · rename_i hread
    refine ⟨by simpa using hread, ?_⟩
    intro q hq
    rw [hq] at h
    exact askWithin_false hc h

/-- What a search knows when it answers no: on the ways without resets from its start no statement
reads the symbol and no callee is found to read it, nor are the methods that follow an end. -/
theorem searchWithin_false (hc : c.Coherent) (hflow : c.flow? name = some f)
    (hactive : name ∉ active)
    (h : (searchWithin c x (fuel + 1) active escalate after name).run u = (false, u))
    {n : Int} {k : Nat} (hcut : Uncut c u f x ⟨(startOf f.scope.procedure after).1,
      (startOf f.scope.procedure after).2⟩ ⟨n, k⟩) :
    (∀ i, f.scope.procedure.instrAt? ⟨name, n, k⟩ = some i → x ∉ f.readsAt ⟨name, n, k⟩ ∧
      ∀ q, c.selfCallee? f ⟨name, n, k⟩ = some q →
        (searchWithin c x fuel (name :: active) false none q.name).run u = (false, u)) ∧
    (escalate = true → k = (f.scope.procedure.instrsAt n).length → f.scope.procedure.IsEnd n →
      ∀ q ∈ successors c f.scope.procedure x,
        (searchWithin c x fuel (name :: active) false none q).run u = (false, u)) := by
  obtain ⟨r, hrun, hr, hnext⟩ := exploreWithin_of_false hc hflow hactive h
  obtain ⟨xs, hw, hclear⟩ := hcut
  have hbelow : ∀ active q, Steady c (searchWithin c x fuel active false none q) :=
    fun _ _ => steady_searchWithin hc _ _ _ _ _
  have hask := steady_askWithin hc hbelow (name :: active)
  obtain ⟨hread, hend⟩ := explore_complete
    (a := ⟨(startOf f.scope.procedure after).1, (startOf f.scope.procedure after).2⟩)
    (steady_passWithin hc hbelow (name :: active) f) (steady_readsAt hask) (exploring_start _ _)
    Procedure.successors_subset_targets hrun hr hw hclear
  have hname := Context.flow?_name hflow
  constructor
  · intro i hi
    exact readsAt_false hc (hname ▸ hread i (hname ▸ hi))
  · intro hesc hk hn q hq
    exact askWithin_false hc (anyOf_run hask (hnext (hend hk hn) hesc) hq)

end Search

/-! ### Chains of calls -/

/-- From its entry the procedure gets without a reset to a statement that reads the symbol, in so
many nested calls; `root` is not among the procedures on the way. -/
def Exposes (c : Context) (u : SummaryTable) (x : Symbol) (root : String) : Nat → String → Prop
  | 0, name => name ≠ root ∧ ∃ f n k i, c.flow? name = some f ∧
      Uncut c u f x ⟨f.scope.procedure.entry, 0⟩ ⟨n, k⟩ ∧
      f.scope.procedure.instrAt? ⟨name, n, (k : Nat)⟩ = some i ∧ x ∈ f.readsAt ⟨name, n, k⟩
  | r + 1, name => name ≠ root ∧ ∃ f n k q, c.flow? name = some f ∧
      Uncut c u f x ⟨f.scope.procedure.entry, 0⟩ ⟨n, k⟩ ∧
      c.selfCallee? f ⟨name, n, (k : Nat)⟩ = some q ∧ Exposes c u x root r q.name

/-- The least number of nested calls in which a procedure exposes the symbol. -/
def Rank (c : Context) (u : SummaryTable) (x : Symbol) (root : String) (r : Nat) (name : String) :
    Prop :=
  Exposes c u x root r name ∧ ∀ r' < r, ¬ Exposes c u x root r' name

section Rank
variable {root : String}

theorem exists_rank {r : Nat} {name : String} (h : Exposes c u x root r name) :
    ∃ r, Rank c u x root r name := by
  classical
  have hex : ∃ r, Exposes c u x root r name := ⟨r, h⟩
  exact ⟨Nat.find hex, Nat.find_spec hex, fun r' hr' => Nat.find_min hex hr'⟩

theorem Exposes.ne_root {r : Nat} {name : String} (h : Exposes c u x root r name) :
    name ≠ root := by
  cases r with
  | zero => exact h.1
  | succ r => exact h.1

theorem Exposes.known (hc : c.Coherent) {r : Nat} {name : String}
    (h : Exposes c u x root r name) : name ∈ c.program.procedures.map Procedure.name := by
  have hflow : ∃ f, c.flow? name = some f := by
    cases r with
    | zero =>
      obtain ⟨_, f, _, _, _, hflow, _⟩ := h
      exact ⟨f, hflow⟩
    | succ r =>
      obtain ⟨_, f, _, _, _, hflow, _⟩ := h
      exact ⟨f, hflow⟩
  obtain ⟨f, hflow⟩ := hflow
  obtain ⟨p, hp, _⟩ := hc.flow?_eq_some.mp hflow
  exact List.mem_map.mpr ⟨p, List.mem_of_find?_eq_some hp, Program.find?_name hp⟩

theorem Rank.callee {r : Nat} {name : String} (h : Rank c u x root (r + 1) name) :
    ∃ f n k q, c.flow? name = some f ∧ Uncut c u f x ⟨f.scope.procedure.entry, 0⟩ ⟨n, k⟩ ∧
      c.selfCallee? f ⟨name, n, (k : Nat)⟩ = some q ∧ Rank c u x root r q.name := by
  obtain ⟨⟨hne, f, n, k, q, hflow, hcut, hcallee, hq⟩, hleast⟩ := h
  refine ⟨f, n, k, q, hflow, hcut, hcallee, hq, ?_⟩
  intro r' hr' hq'
  exact hleast (r' + 1) (by omega) ⟨hne, f, n, k, q, hflow, hcut, hcallee, hq'⟩

theorem Rank.unique {r r' : Nat} {name : String} (h : Rank c u x root r name)
    (h' : Rank c u x root r' name) : r = r' := by
  rcases Nat.lt_trichotomy r r' with hlt | heq | hlt
  · exact absurd h.1 (h'.2 r hlt)
  · exact heq
  · exact absurd h'.1 (h.2 r' hlt)

theorem Rank.lt_procedures (hc : c.Coherent) {r : Nat} {name : String}
    (h : Rank c u x root r name) : r < c.program.procedures.length := by
  -- a shortest way meets a procedure of each smaller rank, and they are all different
  have hchain : ∃ names : List String, names.length = r + 1 ∧ names.Nodup ∧
      ∀ a ∈ names, ∃ r' ≤ r, Rank c u x root r' a := by
    induction r generalizing name with
    | zero => exact ⟨[name], rfl, by simp, by simpa using h⟩
    | succ r ih =>
      obtain ⟨_, _, _, q, _, _, _, hq⟩ := h.callee
      obtain ⟨names, hlen, hnodup, hall⟩ := ih hq
      refine ⟨name :: names, by rw [List.length_cons, hlen], ?_, ?_⟩
      · refine List.nodup_cons.mpr ⟨?_, hnodup⟩
        intro hmem
        obtain ⟨r', hr', hrank⟩ := hall name hmem
        have := hrank.unique h
        omega
      · intro a ha
        rcases List.mem_cons.mp ha with rfl | ha
        · exact ⟨r + 1, Nat.le_refl _, h⟩
        · obtain ⟨r', hr', hrank⟩ := hall a ha
          exact ⟨r', by omega, hrank⟩
  obtain ⟨names, hlen, hnodup, hall⟩ := hchain
  have hknown : names ⊆ c.program.procedures.map Procedure.name := by
    intro a ha
    obtain ⟨_, _, hrank⟩ := hall a ha
    exact hrank.1.known hc
  have hle := length_le_of_subset hnodup hknown
  rw [hlen, List.length_map] at hle
  omega

theorem Rank.not_active {r : Nat} {name : String} {active : List String}
    (h : Rank c u x root r name)
    (hactive : ∀ a ∈ active, a = root ∨ ∀ r' ≤ r, ¬ Exposes c u x root r' a) : name ∉ active := by
  intro hmem
  rcases hactive name hmem with heq | hno
  · exact h.1.ne_root heq
  · exact hno r (Nat.le_refl r) h.1

/-- A search from the entry of a procedure that exposes the symbol does not answer no, unless a
procedure on a shortest way is active. -/
theorem searchWithin_ne_false (hc : c.Coherent) {r fuel : Nat} {name : String}
    {active : List String} (h : Rank c u x root r name) (hfuel : r < fuel)
    (hactive : ∀ a ∈ active, a = root ∨ ∀ r' ≤ r, ¬ Exposes c u x root r' a) :
    (searchWithin c x fuel active false none name).run u ≠ (false, u) := by
  induction r generalizing name fuel active with
  | zero =>
    obtain ⟨m, rfl⟩ : ∃ m, fuel = m + 1 := ⟨fuel - 1, by omega⟩
    intro hrun
    obtain ⟨_, f, n, k, i, hflow, hcut, hi, hread⟩ := h.1
    exact ((searchWithin_false hc hflow (h.not_active hactive) hrun hcut).1 i hi).1 hread
  | succ r ih =>
    obtain ⟨m, rfl⟩ : ∃ m, fuel = m + 1 := ⟨fuel - 1, by omega⟩
    intro hrun
    obtain ⟨f, n, k, q, hflow, hcut, hcallee, hq⟩ := h.callee
    obtain ⟨i, _, hi, _⟩ := Summary.callAt?_of_selfCallee? hcallee
    have hask := ((searchWithin_false hc hflow (h.not_active hactive) hrun hcut).1 i hi).2
      q hcallee
    refine ih hq (by omega) ?_ hask
    -- what has become active has a larger rank, so it is not on the rest of the way
    intro a ha
    rcases List.mem_cons.mp ha with rfl | ha
    · exact Or.inr fun r' hr' => h.2 r' (by omega)
    · exact (hactive a ha).imp_right fun hno r' hr' => hno r' (by omega)

end Rank

/-! ### Runs -/

theorem exposed_of_waiting {root outer : String} {a : Position} {name : String}
    {rest : List Frame} (h : Waiting c u x root a name rest) (hrest : rest ≠ [])
    (houter : ∀ frame ∈ rest.dropLast, frame.name ≠ outer) {r : Nat}
    (hname : Exposes c u x outer r name) :
    ∃ f n k q r, c.flow? root = some f ∧ Uncut c u f x a ⟨n, k⟩ ∧
      c.selfCallee? f ⟨root, n, (k : Nat)⟩ = some q ∧ Exposes c u x outer r q.name := by
  -- the frames are peeled from the innermost one, and the rank grows by one with each caller
  induction h generalizing r with
  | root => exact absurd rfl hrest
  | @call name f n k q rest hwait hflow hcut hcallee hkeep ih =>
    cases rest with
    | nil =>
      cases hwait
      exact ⟨f, n, k, q, r, hflow, hcut, hcallee, hname⟩
    | cons frame rest =>
      have hne : name ≠ outer := houter ⟨name, ⟨n, k + 1⟩⟩ List.mem_cons_self
      refine ih (by simp) (fun fr hfr => houter fr ?_) (r := r + 1) ?_
      · rw [List.dropLast_cons_cons]
        exact List.mem_cons_of_mem _ hfr
      · exact ⟨hne, f, n, k, q, hflow, hcut, hcallee, hname⟩

theorem exists_instr_of_read (hc : c.Coherent) {name : String} {f : Flow}
    (hflow : c.flow? name = some f) {id : StatementId} (h : x ∈ f.readsAt id) :
    ∃ i, f.scope.procedure.instrAt? id = some i := by
  obtain ⟨p, _, rfl⟩ := hc.flow?_eq_some.mp hflow
  rw [Flow.readsAt, Flow.fact?_ofScope] at h
  cases hi : p.instrAt? id with
  | none => simp [hi] at h
  | some i => exact ⟨i, hi⟩

/-- What a run that gets to a read shows: its procedure gets to the read without a reset, or to a
call of one that exposes the symbol. -/
theorem exposed_of_run (hc : c.Coherent) (hu : Built c u) {root outer : String} {f : Flow}
    (hflow : c.flow? root = some f) {a : Position} (h : c.ReachesRead x outer ⟨root, a⟩) :
    (∃ n k i, Uncut c u f x a ⟨n, k⟩ ∧
      f.scope.procedure.instrAt? ⟨root, n, (k : Nat)⟩ = some i ∧ x ∈ f.readsAt ⟨root, n, k⟩) ∨
    ∃ n k q r, Uncut c u f x a ⟨n, k⟩ ∧ c.selfCallee? f ⟨root, n, (k : Nat)⟩ = some q ∧
      Exposes c u x outer r q.name := by
  obtain ⟨xs, name, n, k, rest, hrun, hkeep, ⟨f', hflow', hread⟩, houter⟩ := h
  obtain ⟨i, hi⟩ := exists_instr_of_read hc hflow' hread
  cases intact_of_run hc hu hflow hrun hkeep with
  | mk hwait hflow'' hcut =>
    obtain rfl := Option.some.inj (hflow'.symm.trans hflow'')
    -- with no caller below, the read is in the outermost procedure itself
    cases rest with
    | nil =>
      cases hwait
      obtain rfl := Option.some.inj (hflow.symm.trans hflow')
      exact Or.inl ⟨n, k, i, hcut, hi, hread⟩
    | cons frame rest =>
      have hne : name ≠ outer := houter ⟨name, ⟨n, k⟩⟩ List.mem_cons_self
      have hexposes : Exposes c u x outer 0 name := ⟨hne, f', n, k, i, hflow', hcut, hi, hread⟩
      obtain ⟨g, m, j, q, r, hflow₀, hcut₀, hcallee, hq⟩ := exposed_of_waiting hwait (by simp)
        (fun fr hfr => houter fr (List.mem_cons_of_mem _ hfr)) hexposes
      obtain rfl := Option.some.inj (hflow.symm.trans hflow₀)
      exact Or.inr ⟨m, j, q, r, hcut₀, hcallee, hq⟩

theorem search_ne_false_of_run (hc : c.Coherent) (hu : Built c u) {root : String} {f : Flow}
    (hflow : c.flow? root = some f) {after : Option StatementId} {escalate : Bool} {m : Int}
    {j : Nat} (hstart : startOf f.scope.procedure after = (m, j))
    (h : c.ReachesRead x root ⟨root, ⟨m, j⟩⟩) :
    (searchWithin c x (c.program.procedures.length + 1) [] escalate after root).run u ≠
      (false, u) := by
  intro hrun
  obtain rfl : (startOf f.scope.procedure after).1 = m := by rw [hstart]
  obtain rfl : (startOf f.scope.procedure after).2 = j := by rw [hstart]
  rcases exposed_of_run hc hu hflow h with
    ⟨n, k, i, hcut, hi, hread⟩ | ⟨n, k, q, r, hcut, hcallee, hq⟩
  · exact ((searchWithin_false hc hflow List.not_mem_nil hrun hcut).1 i hi).1 hread
  · obtain ⟨i, _, hi, _⟩ := Summary.callAt?_of_selfCallee? hcallee
    have hask := ((searchWithin_false hc hflow List.not_mem_nil hrun hcut).1 i hi).2 q hcallee
    obtain ⟨r, hrank⟩ := exists_rank hq
    exact searchWithin_ne_false hc hrank (hrank.lt_procedures hc)
      (fun a ha => Or.inl (List.mem_singleton.mp ha)) hask

theorem search_ne_false_of_leave (hc : c.Coherent) (hu : Built c u) {root : String} {f : Flow}
    (hflow : c.flow? root = some f) {after : Option StatementId} {m : Int} {j : Nat}
    (hstart : startOf f.scope.procedure after = (m, j)) (hleave : c.Leaves x ⟨root, ⟨m, j⟩⟩)
    {q : Procedure} (hq : c.program.find? q.name = some q)
    (hmem : q.name ∈ successors c f.scope.procedure x) (hne : q.name ≠ root)
    (h : c.ReachesRead x root ⟨q.name, ⟨q.entry, 0⟩⟩) :
    (searchWithin c x (c.program.procedures.length + 1) [] true after root).run u ≠
      (false, u) := by
  intro hrun
  obtain rfl : (startOf f.scope.procedure after).1 = m := by rw [hstart]
  obtain rfl : (startOf f.scope.procedure after).2 = j := by rw [hstart]
  obtain ⟨xs, f', n, hrun', hflow', hend, hkeep⟩ := hleave
  obtain rfl := Option.some.inj (hflow.symm.trans hflow')
  have hflowq : c.flow? q.name = some (Flow.ofScope ⟨q, c.program.library⟩) := by
    rw [hc, hq, Option.map_some]
  have hexposes : ∃ r, Exposes c u x root r q.name := by
    rcases exposed_of_run hc hu hflowq h with
      ⟨m, k, i, hcut, hi, hread⟩ | ⟨m, k, q', r, hcut, hcallee, hq'⟩
    · exact ⟨0, hne, _, m, k, i, hflowq, hcut, hi, hread⟩
    · exact ⟨r + 1, hne, _, m, k, q', hflowq, hcut, hcallee, hq'⟩
  cases intact_of_run hc hu hflow hrun' hkeep with
  | mk _ hflow'' hcut =>
    obtain rfl := Option.some.inj (hflow.symm.trans hflow'')
    have hask := (searchWithin_false hc hflow List.not_mem_nil hrun hcut).2 rfl rfl hend
      q.name hmem
    obtain ⟨_, hr⟩ := hexposes
    obtain ⟨r, hrank⟩ := exists_rank hr
    exact searchWithin_ne_false hc hrank (hrank.lt_procedures hc)
      (fun a ha => Or.inl (List.mem_singleton.mp ha)) hask

theorem mem_successors {p q : Procedure} (hq : c.program.find? q.name = some q)
    (hnamed : x.owner ≠ "") (hp : p.className = some x.owner) (hclass : q.className = some x.owner)
    (hne : q.name ≠ p.name) (hctor : q.isConstructor = false) : q.name ∈ successors c p x := by
  have hmem : q ∈ c.program.methodsOf x.owner :=
    List.mem_filter.mpr ⟨List.mem_of_find?_eq_some hq, by rw [hclass]; exact beq_self_eq_true _⟩
  unfold successors
  rw [hp]
  simp only [ne_eq, hnamed, not_false_eq_true, decide_true, Bool.and_true, if_true]
  exact List.mem_map_of_mem (List.mem_filter.mpr ⟨hmem, by simp [hne, hctor]⟩)

theorem isReadBeforeReset_of_search (hc : c.Coherent) {t : SummaryTable} (ht : Built c t)
    {name : String} {after : Option StatementId} {escalate : Bool} (hx : x.isField = true)
    (h : ∀ u, Built c u →
      (searchWithin c x (c.program.procedures.length + 1) [] escalate after name).run u ≠
        (false, u)) : ((isReadBeforeReset c x name after escalate).run t).1 = true := by
  have hsteady : Steady c
      (searchWithin c x (c.program.procedures.length + 1) [] escalate after name) :=
    steady_searchWithin hc _ _ _ _ _
  have hbuilt := hsteady.built hc ht
  have hagain := hsteady.repeats t _ hbuilt List.prefix_rfl
  rw [isReadBeforeReset, if_pos hx]
  cases hb : ((searchWithin c x (c.program.procedures.length + 1) [] escalate after name).run t).1
    with
  | true => rfl
  | false =>
    rw [hb] at hagain
    exact absurd hagain (h _ hbuilt)

end Liveness

/-- A field is found to be read again before it is replaced whenever some run from behind the
statement gets to a read of it, or leaves the procedure and another method of the class gets to one.
The procedure itself must not be active a second time at the read. -/
theorem isReadBeforeReset_of_run (g : Program) (names : List String) {p : Procedure}
    (hp : g.find? p.name = some p) {h : StatementId} (hh : p.contains h = true) {x : Symbol}
    (hx : x.isField = true) (hnamed : x.owner ≠ "") (howner : p.className = some x.owner)
    (hrun : (Context.ofProgram g).ReachesRead x p.name ⟨p.name, ⟨h.node, h.index.toNat + 1⟩⟩ ∨
      (Context.ofProgram g).Leaves x ⟨p.name, ⟨h.node, h.index.toNat + 1⟩⟩ ∧
        ∃ q, g.find? q.name = some q ∧ q.className = some x.owner ∧ q.name ≠ p.name ∧
          q.isConstructor = false ∧
          (Context.ofProgram g).ReachesRead x p.name ⟨q.name, ⟨q.entry, 0⟩⟩) :
    ((Liveness.isReadBeforeReset (.ofProgram g) x p.name (some h) true).run
      (SummaryTable.asked (.ofProgram g) names)).1 = true := by
  have hc := Context.coherent_ofProgram g
  have hflow : (Context.ofProgram g).flow? p.name = some (Flow.ofScope ⟨p, g.library⟩) :=
    hc.flow?_eq_some.mpr ⟨p, hp, rfl⟩
  have hstart : Liveness.startOf p (some h) = (h.node, h.index.toNat + 1) := by
    simp [Liveness.startOf, hh]
  refine Liveness.isReadBeforeReset_of_search hc (SummaryTable.built_asked hc names) hx ?_
  intro u hu
  rcases hrun with hread | ⟨hleave, q, hq, hclass, hne, hctor, hread⟩
  · exact Liveness.search_ne_false_of_run hc hu hflow hstart hread
  · exact Liveness.search_ne_false_of_leave hc hu hflow hstart hleave hq
      (Liveness.mem_successors hq hnamed howner hclass hne hctor) hne hread

/-- `push` gives up a field that two methods calling each other read; `drop` only gives it up. -/
def relay : Program where
  procedures :=
    [methodOf "A.push" [] [{ id := 0, instrs := [sendCall (selfField "f"), selfCall "ping" []] }],
      methodOf "A.ping" [] [{ id := 0, instrs := [selfCall "pong" []] }],
      methodOf "A.pong" []
        [{ id := 0, succs := [1, 2] }, { id := 1, preds := [0], instrs := [selfCall "ping" []] },
          { id := 2, preds := [0], instrs := [printCall (selfField "f")] }],
      methodOf "A.drop" [] [{ id := 0, instrs := [sendCall (selfField "f")] }]]

theorem isReadBeforeReset_relay :
    ((Liveness.isReadBeforeReset (.ofProgram relay) ⟨"f", .field, "A"⟩ "A.push"
      (some ⟨"A.push", 0, 0⟩) true).run
        (SummaryTable.asked (.ofProgram relay) ["A.ping"])).1 = true ∧
    ((Liveness.isReadBeforeReset (.ofProgram relay) ⟨"f", .field, "A"⟩ "A.drop"
      (some ⟨"A.drop", 0, 0⟩) true).run (SummaryTable.asked (.ofProgram relay) [])).1 = true := by
  have hc := Context.coherent_ofProgram relay
  have hread : (Context.ofProgram relay).Reads ⟨"f", .field, "A"⟩ ⟨"A.pong", 2, (0 : Nat)⟩ :=
    hc.reads rfl rfl List.mem_cons_self
  constructor
  · refine isReadBeforeReset_of_run relay _ (p := methodOf "A.push" [] _) rfl rfl rfl (by decide)
      rfl (Or.inl ?_)
    have h₁ : Run (.ofProgram relay) [⟨"A.push", ⟨0, 1⟩⟩] [⟨"A.push", 0, 1⟩, ⟨"A.ping", 0, 0⟩]
        [⟨"A.pong", ⟨0, 0⟩⟩, ⟨"A.ping", ⟨0, 1⟩⟩, ⟨"A.push", ⟨0, 2⟩⟩] :=
      .call (q := methodOf "A.pong" [] _)
        (.call (q := methodOf "A.ping" [] _) .here rfl rfl) rfl rfl
    have h₂ : Run (.ofProgram relay) [⟨"A.push", ⟨0, 1⟩⟩] [⟨"A.push", 0, 1⟩, ⟨"A.ping", 0, 0⟩]
        [⟨"A.pong", ⟨1, 0⟩⟩, ⟨"A.ping", ⟨0, 1⟩⟩, ⟨"A.push", ⟨0, 2⟩⟩] :=
      .move h₁ rfl List.mem_cons_self rfl
    have h₃ : Run (.ofProgram relay) [⟨"A.push", ⟨0, 1⟩⟩]
        [⟨"A.push", 0, 1⟩, ⟨"A.ping", 0, 0⟩, ⟨"A.pong", 1, 0⟩, ⟨"A.ping", 0, 0⟩]
        [⟨"A.pong", ⟨0, 0⟩⟩, ⟨"A.ping", ⟨0, 1⟩⟩, ⟨"A.pong", ⟨1, 1⟩⟩, ⟨"A.ping", ⟨0, 1⟩⟩,
          ⟨"A.push", ⟨0, 2⟩⟩] :=
      .call (q := methodOf "A.pong" [] _) (.call (q := methodOf "A.ping" [] _) h₂ rfl rfl) rfl rfl
    have h₄ : Run (.ofProgram relay) [⟨"A.push", ⟨0, 1⟩⟩]
        [⟨"A.push", 0, 1⟩, ⟨"A.ping", 0, 0⟩, ⟨"A.pong", 1, 0⟩, ⟨"A.ping", 0, 0⟩]
        [⟨"A.pong", ⟨2, 0⟩⟩, ⟨"A.ping", ⟨0, 1⟩⟩, ⟨"A.pong", ⟨1, 1⟩⟩, ⟨"A.ping", ⟨0, 1⟩⟩,
          ⟨"A.push", ⟨0, 2⟩⟩] :=
      .move h₃ rfl (List.mem_cons_of_mem 1 List.mem_cons_self) rfl
    refine ⟨_, "A.pong", 2, 0, _, h₄, ?_, hread, by decide⟩
    intro s hs
    simp only [List.mem_cons, List.not_mem_nil, or_false] at hs
    rcases hs with rfl | rfl | rfl | rfl <;> exact hc.not_replaces rfl rfl rfl
  · refine isReadBeforeReset_of_run relay _ (p := methodOf "A.drop" [] _) rfl rfl rfl (by decide)
      rfl (Or.inr ⟨⟨[], _, 0, .here, rfl, ⟨rfl, rfl⟩, by simp⟩, methodOf "A.pong" [] _, rfl, rfl,
        by decide, rfl, ?_⟩)
    exact ⟨[], "A.pong", 2, 0, [],
      .move .here rfl (List.mem_cons_of_mem 1 List.mem_cons_self) rfl, by simp, hread, by simp⟩

/-- A method that reads a field, gives it up, and may start again, and a method that calls it. -/
def reentry : Program where
  procedures :=
    [methodOf "A.tick" []
        [{ id := 0, succs := [1, 2]
           instrs := [printCall (selfField "f"), sendCall (selfField "f")] },
          { id := 1, preds := [0], instrs := [selfCall "tick" []] }, { id := 2, preds := [0] }],
      methodOf "A.run" [] [{ id := 0, instrs := [selfCall "tick" []] }]]

/-- A read in a second activation of the method is not found, whether the method is entered again by
its own call or, after it has ended, by another method. -/
theorem reentry_not_found :
    (∃ xs rest, Run (.ofProgram reentry) [⟨"A.tick", ⟨0, 2⟩⟩] xs (⟨"A.tick", ⟨0, 0⟩⟩ :: rest) ∧
      ∀ s ∈ xs, ¬ (Context.ofProgram reentry).Replaces ⟨"f", .field, "A"⟩ s) ∧
    (Context.ofProgram reentry).Leaves ⟨"f", .field, "A"⟩ ⟨"A.tick", ⟨0, 2⟩⟩ ∧
    (∃ xs rest, Run (.ofProgram reentry) [⟨"A.run", ⟨0, 0⟩⟩] xs (⟨"A.tick", ⟨0, 0⟩⟩ :: rest) ∧
      ∀ s ∈ xs, ¬ (Context.ofProgram reentry).Replaces ⟨"f", .field, "A"⟩ s) ∧
    (Context.ofProgram reentry).Reads ⟨"f", .field, "A"⟩ ⟨"A.tick", 0, 0⟩ ∧
    ((Liveness.isReadBeforeReset (.ofProgram reentry) ⟨"f", .field, "A"⟩ "A.tick"
      (some ⟨"A.tick", 0, 1⟩) true).run
        (SummaryTable.asked (.ofProgram reentry) ["A.tick", "A.run"])).1 = false := by
  have hc := Context.coherent_ofProgram reentry
  have hagain : Run (.ofProgram reentry) [⟨"A.tick", ⟨0, 2⟩⟩] [] [⟨"A.tick", ⟨1, 0⟩⟩] :=
    .move .here rfl List.mem_cons_self rfl
  have hend : Run (.ofProgram reentry) [⟨"A.tick", ⟨0, 2⟩⟩] [] [⟨"A.tick", ⟨2, 0⟩⟩] :=
    .move .here rfl (List.mem_cons_of_mem 1 List.mem_cons_self) rfl
  refine ⟨⟨[⟨"A.tick", 1, 0⟩], _, hagain.call (q := methodOf "A.tick" [] _) rfl rfl, ?_⟩,
    ⟨[], _, 2, ?_, rfl, ⟨rfl, rfl⟩, by simp⟩,
    ⟨[⟨"A.run", 0, 0⟩], _, .call (q := methodOf "A.tick" [] _) .here rfl rfl, ?_⟩,
    hc.reads rfl rfl List.mem_cons_self, by cbv⟩
  · intro s hs
    rw [List.mem_singleton.mp hs]
    exact hc.not_replaces rfl rfl rfl
  · exact hend
  · intro s hs
    rw [List.mem_singleton.mp hs]
    exact hc.not_replaces rfl rfl rfl

end ActorOwnership
