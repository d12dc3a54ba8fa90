import ActorOwnership.Proofs.HandOff

/-! Reaching definitions are exact. The loop over the nodes comes to an end, also when each visit
replaces what it found before instead of adding to it. A definition then holds before a statement if
and only if some walk carries it there: from just behind its write, or from the entry, without a
statement that replaces the symbol. -/

namespace ActorOwnership
set_option autoImplicit false

/-! ### Visits that replace -/

namespace Outcomes

/-- Puts definitions in the place of those at the end of a node. -/
def put (o : Outcomes) (id : Int) (r : Reach) : Outcomes :=
  o.map fun x => if x.1 == id then (x.1, r) else x

/-- The same nodes, each with the same set of definitions. -/
def Same (o o' : Outcomes) : Prop :=
  List.Forall₂ (fun x y => x.1 = y.1 ∧ ∀ d, d ∈ x.2 ↔ d ∈ y.2) o o'

variable {o o' o'' : Outcomes}

theorem Same.refl (o : Outcomes) : o.Same o :=
  List.forall₂_same.mpr fun _ _ => ⟨rfl, fun _ => Iff.rfl⟩

theorem Same.symm (h : o.Same o') : o'.Same o := by
  unfold Same at h ⊢
  refine List.Forall₂.imp ?_ h.flip
  exact fun x y hxy => ⟨hxy.1.symm, fun d => (hxy.2 d).symm⟩

theorem Same.trans (h : o.Same o') (h' : o'.Same o'') : o.Same o'' := by
  induction h generalizing o'' with
  | nil => exact h'
  | cons hxy _ ih =>
    cases h' with
    | cons hyz hrest =>
      exact .cons ⟨hxy.1.trans hyz.1, fun d => (hxy.2 d).trans (hyz.2 d)⟩ (ih hrest)

theorem Same.mem_at (h : o.Same o') (id : Int) {d : Definition} :
    d ∈ o.at_ id ↔ d ∈ o'.at_ id := by
  unfold at_
  induction h with
  | nil => exact Iff.rfl
  | @cons x y xs ys hxy _ ih =>
    obtain ⟨i, r⟩ := x
    obtain ⟨j, r'⟩ := y
    obtain ⟨rfl, hr⟩ := hxy
    by_cases hid : (id == i) = true
    · simpa [List.lookup_cons, hid] using hr d
    · simpa [List.lookup_cons, hid] using ih

theorem Same.volume_eq {u u' : List Definition} (h : o.Same o') (ho : Within u o)
    (ho' : Within u' o') : volume o = volume o' := by
  induction h with
  | nil => rfl
  | @cons x y xs ys hxy _ ih =>
    have hx := (ho x List.mem_cons_self).1
    have hy := (ho' y List.mem_cons_self).1
    have hle := length_le_of_subset hx fun d hd => (hxy.2 d).mp hd
    have hge := length_le_of_subset hy fun d hd => (hxy.2 d).mpr hd
    have hrest := ih (fun z hz => ho z (List.mem_cons_of_mem x hz))
      fun z hz => ho' z (List.mem_cons_of_mem y hz)
    rw [volume_cons, volume_cons]
    omega

end Outcomes

/-- What holds before and behind statements, as it has been recorded. -/
abbrev Records := List (StatementId × Reach × Reach)

/-- The same statements, each with the same sets of definitions. -/
def Records.Same (r r' : Records) : Prop :=
  List.Forall₂ (fun x y => x.1 = y.1 ∧ (∀ d, d ∈ x.2.1 ↔ d ∈ y.2.1) ∧ ∀ d, d ∈ x.2.2 ↔ d ∈ y.2.2) r r'

theorem Fact.mem_apply_congr {r r' : Reach} (h : ∀ d, d ∈ r ↔ d ∈ r') (f : Fact) (d : Definition) :
    d ∈ f.apply r ↔ d ∈ f.apply r' := by rw [Fact.mem_apply, Fact.mem_apply, h d]

theorem Records.same_along {r r' : Reach} (h : ∀ d, d ∈ r ↔ d ∈ r') (fs : List Fact) :
    Records.Same (r.along fs).1 (r'.along fs).1 := by
  induction fs generalizing r r' with
  | nil => exact .nil
  | cons f fs ih =>
    exact .cons ⟨rfl, h, f.mem_apply_congr h⟩ (ih (f.mem_apply_congr h))

namespace FactGraph
variable {g : FactGraph} {o o' : Outcomes}

/-- Visits one node, and forgets what earlier visits have found there. What holds at its statements is
recorded. -/
def revisit (g : FactGraph) (x : Outcomes × Records) (n : Int × List Int × List Fact) :
    Outcomes × Records :=
  let row := Reach.along (g.entering x.1 n.1 n.2.1) n.2.2
  (x.1.put n.1 row.2, x.2 ++ row.1)

/-- Visits every node once. -/
def replacingRound (g : FactGraph) (x : Outcomes × Records) : Outcomes × Records :=
  g.nodes.foldl g.revisit (x.1, [])

/-- A name stands for one node. -/
def Functional (g : FactGraph) : Prop := ∀ n ∈ g.nodes, ∀ m ∈ g.nodes, n.1 = m.1 → n = m

/-- A visit would find again all that is recorded. -/
def Growing (g : FactGraph) (o : Outcomes) : Prop :=
  ∀ n ∈ g.nodes, ∀ x ∈ o, x.1 = n.1 → x.2 ⊆ g.leaving o n

theorem through_mono {r r' : Reach} (h : r ⊆ r') (fs : List Fact) :
    r.through fs ⊆ r'.through fs := by
  induction fs generalizing r r' with
  | nil => exact h
  | cons f fs ih =>
    apply ih
    intro d hd
    rcases Fact.mem_apply.mp hd with ⟨hd, hkeep⟩ | hwrite
    · exact Fact.mem_apply.mpr (Or.inl ⟨h hd, hkeep⟩)
    · exact Fact.mem_apply.mpr (Or.inr hwrite)

theorem leaving_mono (h : ∀ id, o.at_ id ⊆ o'.at_ id) (n : Int × List Int × List Fact) :
    g.leaving o n ⊆ g.leaving o' n := by
  apply through_mono
  intro d hd
  rcases (mem_entering g).mp hd with hentry | ⟨pred, hpred, hd⟩
  · exact (mem_entering g).mpr (Or.inl hentry)
  · exact (mem_entering g).mpr (Or.inr ⟨pred, hpred, h pred hd⟩)

theorem at_subset_joinAt (o : Outcomes) (k : Int) (r : Reach) (id : Int) :
    o.at_ id ⊆ Outcomes.at_ (joinAt o k r) id := by
  unfold Outcomes.at_ joinAt
  induction o with
  | nil => exact List.Subset.refl _
  | cons x o ih =>
    obtain ⟨i, s⟩ := x
    rw [List.map_cons]
    by_cases hid : (id == i) = true
    · by_cases hik : (i == k) = true
      · simpa [List.lookup_cons, hid, hik] using (prefix_union s r).subset
      · simp [List.lookup_cons, hid, hik]
    · by_cases hik : (i == k) = true
      · simpa [List.lookup_cons, hid, hik] using ih
      · simpa [List.lookup_cons, hid, hik] using ih

theorem Growing.joinAt (hg : g.Functional) (ho : g.Growing o)
    {m : Int × List Int × List Fact} (hm : m ∈ g.nodes) :
    g.Growing (joinAt o m.1 (g.leaving o m)) := by
  intro n hn y hy hyn
  have hmore := leaving_mono (g := g) (at_subset_joinAt o m.1 (g.leaving o m))
  obtain ⟨x, hx, rfl⟩ := List.mem_map.mp hy
  by_cases hxm : (x.1 == m.1) = true
  · simp only [hxm, if_true] at hyn ⊢
    have hxm' : x.1 = m.1 := by simpa using hxm
    obtain rfl : n = m := hg n hn m hm (hyn.symm.trans hxm')
    intro d hd
    rcases mem_union.mp hd with hd | hd
    · exact hmore n (ho n hn x hx hyn hd)
    · exact hmore n hd
  · simp only [hxm, Bool.false_eq_true, if_false] at hyn ⊢
    exact List.Subset.trans (ho n hn x hx hyn) (hmore n)

/-- Replacing has the same effect as adding, as long as what is recorded would be found again. -/
theorem same_revisit (h : o'.Same o) (ho : g.Growing o) {n : Int × List Int × List Fact}
    (hn : n ∈ g.nodes) (r : Records) :
    (g.revisit (o', r) n).1.Same (joinAt o n.1 (g.leaving o n)) := by
  have hleave : ∀ d, d ∈ g.leaving o' n ↔ d ∈ g.leaving o n := by
    intro d
    constructor
    · intro hd
      exact leaving_mono (fun id _ => (h.mem_at id).mp) n hd
    · intro hd
      exact leaving_mono (fun id _ => (h.mem_at id).mpr) n hd
  have hput : (g.revisit (o', r) n).1 = o'.put n.1 (g.leaving o' n) := by
    simp only [revisit, Reach.along_snd]
    rfl
  have hentries : ∀ x ∈ o, x.1 = n.1 → x.2 ⊆ g.leaving o n := ho n hn
  rw [hput]
  generalize g.leaving o' n = r' at hleave
  generalize g.leaving o n = r at hleave hentries
  unfold Outcomes.put ActorOwnership.joinAt
  clear ho hput
  induction h with
  | nil => exact .nil
  | @cons x y xs ys hxy _ ih =>
    refine .cons ?_ (ih fun z hz => hentries z (List.mem_cons_of_mem y hz))
    by_cases hyn : (y.1 == n.1) = true
    · simp only [hxy.1, hyn, if_true, true_and, mem_union]
      intro d
      rw [hleave d]
      constructor
      · exact Or.inr
      · rintro (hd | hd)
        · exact hentries y List.mem_cons_self (by simpa using hyn) hd
        · exact hd
    · simpa only [hxy.1, hyn, Bool.false_eq_true, if_false] using hxy

theorem same_replacingRound (hg : g.Functional) (h : o'.Same o) (ho : g.Growing o) (r : Records) :
    (g.replacingRound (o', r)).1.Same (joinRound Prod.fst g.leaving g.nodes o) ∧
      g.Growing (joinRound Prod.fst g.leaving g.nodes o) := by
  have hfold : ∀ (ns : List (Int × List Int × List Fact)) (o : Outcomes) (x : Outcomes × Records),
      ns ⊆ g.nodes → x.1.Same o → g.Growing o →
      (ns.foldl g.revisit x).1.Same (joinRound Prod.fst g.leaving ns o) ∧
        g.Growing (joinRound Prod.fst g.leaving ns o) := by
    intro ns
    induction ns with
    | nil => exact fun o x _ h ho => ⟨h, ho⟩
    | cons n ns ih =>
      intro o x hns h ho
      have hn := hns List.mem_cons_self
      exact ih _ _ (fun m hm => hns (List.mem_cons_of_mem n hm)) (same_revisit h ho hn x.2)
        (ho.joinAt hg hn)
  exact hfold g.nodes o (o', []) (List.Subset.refl _) h ho

theorem mem_entering_congr (h : o'.Same o) (id : Int) (preds : List Int) (d : Definition) :
    d ∈ g.entering o' id preds ↔ d ∈ g.entering o id preds := by
  rw [mem_entering, mem_entering]
  refine or_congr_right ?_
  constructor
  · rintro ⟨pred, hpred, hd⟩
    exact ⟨pred, hpred, (h.mem_at pred).mp hd⟩
  · rintro ⟨pred, hpred, hd⟩
    exact ⟨pred, hpred, (h.mem_at pred).mpr hd⟩

/-- Where nothing is added any more, a round records what holds in the end, although it replaces the
outcomes on its way. -/
theorem records_replacingRound (h : o'.Same o) (ho : g.Growing o)
    (hstill : joinRound Prod.fst g.leaving g.nodes o = o) (r : Records) :
    Records.Same (g.replacingRound (o', r)).2 (g.states o) := by
  have hvisits : ∀ n ∈ g.nodes, joinAt o n.1 (g.leaving o n) = o :=
    joinAt_eq_of_joinRound (by rw [hstill])
  have hfold : ∀ (ns : List (Int × List Int × List Fact)) (x : Outcomes × Records) (r : Records),
      ns ⊆ g.nodes → x.1.Same o → Records.Same x.2 r →
      Records.Same (ns.foldl g.revisit x).2
        (r ++ ns.flatMap fun n => (Reach.along (g.entering o n.1 n.2.1) n.2.2).1) := by
    intro ns
    induction ns with
    | nil =>
      intro x r _ _ hr
      rw [List.flatMap_nil, List.append_nil]
      exact hr
    | cons n ns ih =>
      intro x r hns hx hr
      have hn := hns List.mem_cons_self
      have hsame : (g.revisit x n).1.Same o := by
        have hsame := same_revisit hx ho hn x.2
        rwa [hvisits n hn] at hsame
      rw [List.foldl_cons, List.flatMap_cons, ← List.append_assoc]
      refine ih _ _ (fun m hm => hns (List.mem_cons_of_mem n hm)) hsame ?_
      exact List.rel_append hr (Records.same_along (mem_entering_congr hx n.1 n.2.1) n.2.2)
  exact hfold g.nodes (o', []) [] (List.Subset.refl _) h .nil

theorem within_joinRound (ho : Within g.definitions o) :
    Within g.definitions (joinRound Prod.fst g.leaving g.nodes o) :=
  (joinRound_keeps (fun _ _ ho _ hn => leaving_subset_definitions ho hn)
    (And.intro (Eq.refl (o.map Prod.fst)) ho)).2

/-- The loop that replaces ends in the same number of rounds as the loop that adds, with the same
sets. -/
theorem ends_replacing (hg : g.Functional) {b : Outcomes}
    (hends : Ends (joinRound Prod.fst g.leaving g.nodes) Eq o b) (h : o'.Same o)
    (ho : g.Growing o) (hwithin : Within g.definitions o) (r : Records) :
    ∃ b' r', Ends g.replacingRound (fun x y => x.1.Same y.1) (o', r) (b', r') ∧ b'.Same b ∧
      r'.Same (g.states b) := by
  induction hends generalizing o' r with
  | @done o hstill =>
    obtain ⟨hround, _⟩ := same_replacingRound hg h ho r
    have hsame : (g.replacingRound (o', r)).1.Same o' := by
      rw [hstill] at hround
      exact hround.trans h.symm
    refine ⟨_, _, .done hsame, hround, ?_⟩
    rw [hstill]
    exact records_replacingRound h ho hstill r
  | @again o b hchange _ ih =>
    obtain ⟨hround, hgrowing⟩ := same_replacingRound hg h ho r
    obtain ⟨b', r', hb', hsame⟩ :=
      ih hround hgrowing (within_joinRound hwithin) (g.replacingRound (o', r)).2
    refine ⟨b', r', .again ?_ hb', hsame⟩
    -- a round that adds something makes some set larger
    intro hstill
    apply hchange
    apply joinRound_eq_of_volume
    exact ((hround.symm.trans hstill).trans h).volume_eq (within_joinRound hwithin) hwithin

theorem ends_solve (g : FactGraph) :
    Ends (joinRound Prod.fst g.leaving g.nodes) Eq g.start g.solve := by
  rw [solve_eq_saturate]
  exact ends_joinRound (fun o _ ho n hn => leaving_subset_definitions ho hn) g.within_start
    g.start_lt_fuel

theorem replacing_ends (hg : g.Functional) :
    ∃ o r, Ends g.replacingRound (fun x y => x.1.Same y.1) (g.start, []) (o, r) ∧ o.Same g.solve ∧
      r.Same (g.states g.solve) := by
  refine ends_replacing hg g.ends_solve (.refl _) ?_ g.within_start []
  intro n _ x hx _
  obtain ⟨m, _, rfl⟩ := List.mem_map.mp hx
  exact List.nil_subset _

end FactGraph

/-! ### Definitions that walks carry -/

/-- The point before a statement. -/
def StatementId.front (t : StatementId) : Position := ⟨t.node, t.index.toNat⟩

/-- The point behind a statement. -/
def StatementId.behind (t : StatementId) : Position := ⟨t.node, t.index.toNat + 1⟩

namespace Flow
variable {s : Scope} {x : Symbol} {d : Definition} {a b : Position}

/-- Some walk along the predecessor lists leads from `a` to `b`, and no statement on it replaces the
symbol. -/
def Carries (s : Scope) (x : Symbol) (a b : Position) : Prop :=
  ∃ xs, Walk s.procedure s.procedure.Precedes a xs b ∧ ∀ t ∈ xs, (ofScope s).resets x t = false

/-- A walk carries the definition to a point: an incoming value from the entry, any other one from
behind the statement that writes it. -/
def Arrives (s : Scope) (d : Definition) (b : Position) : Prop :=
  match d.statement with
  | none => d.symbol ∈ (ofScope s).symbols ∧ Carries s d.symbol ⟨s.procedure.entry, 0⟩ b
  | some t => (ofScope s).defines d.symbol t = true ∧ Carries s d.symbol t.behind b

theorem Arrives.extend (h : Arrives s d a) (hab : Carries s d.symbol a b) : Arrives s d b := by
  have hjoin : ∀ {start : Position}, Carries s d.symbol start a → Carries s d.symbol start b := by
    rintro start ⟨xs, hxs, hkeep⟩
    obtain ⟨ys, hys, hkeep'⟩ := hab
    refine ⟨xs ++ ys, hxs.trans hys, ?_⟩
    intro t ht
    rcases List.mem_append.mp ht with ht | ht
    · exact hkeep t ht
    · exact hkeep' t ht
  obtain ⟨x, st⟩ := d
  cases st with
  | none => exact ⟨h.1, hjoin h.2⟩
  | some t => exact ⟨h.1, hjoin h.2⟩

section Statement
variable {n : Int} {k : Nat} {i : Instr}
  (hi : s.procedure.instrAt? ⟨s.procedure.name, n, k⟩ = some i)

include hi

theorem resets_eq : (ofScope s).resets x ⟨s.procedure.name, n, k⟩ =
    (Fact.ofStatement s (⟨s.procedure.name, n, k⟩, i)).resets x := by
  rw [resets, fact?_ofScope, hi, Option.map_some, Option.any_some]

theorem defines_iff : (ofScope s).defines x ⟨s.procedure.name, n, k⟩ = true ↔
    ∃ e ∈ s.effectsOf i.action, e.symbol = x := by
  rw [defines, fact?_ofScope, hi, Option.map_some, Option.any_some]
  simp [Fact.defines, Fact.ofStatement]

theorem carries_step (hkeep : (ofScope s).resets x ⟨s.procedure.name, n, k⟩ = false) :
    Carries s x ⟨n, k⟩ ⟨n, k + 1⟩ := by
  refine ⟨_, Walk.here.step hi, ?_⟩
  intro t ht
  rw [List.nil_append, List.mem_singleton] at ht
  exact ht ▸ hkeep

theorem arrives_write {e : Effect} (he : e ∈ s.effectsOf i.action) :
    Arrives s ⟨e.symbol, some ⟨s.procedure.name, n, k⟩⟩ ⟨n, k + 1⟩ := by
  exact ⟨(defines_iff hi).mpr ⟨e, he, rfl⟩, [], .here, by simp⟩

theorem arrives_apply {r : Reach} (hr : ∀ d ∈ r, Arrives s d ⟨n, k⟩)
    (hd : d ∈ (Fact.ofStatement s (⟨s.procedure.name, n, k⟩, i)).apply r) :
    Arrives s d ⟨n, k + 1⟩ := by
  rcases Fact.mem_apply.mp hd with ⟨hd, hkeep⟩ | ⟨e, he, rfl⟩
  · rw [← resets_eq hi] at hkeep
    exact (hr d hd).extend (carries_step hi hkeep)
  · exact arrives_write hi he

end Statement

theorem exists_effect_of_defines {t : StatementId} (h : (ofScope s).defines x t = true) :
    ∃ n k i, t = ⟨s.procedure.name, n, (k : Nat)⟩ ∧ s.procedure.instrAt? t = some i ∧
      ∃ e ∈ s.effectsOf i.action, e.symbol = x := by
  cases hi : s.procedure.instrAt? t with
  | none => simp [defines, fact?_ofScope, hi] at h
  | some i =>
    obtain ⟨n, k, rfl, _⟩ := Procedure.exists_of_instrAt? hi
    exact ⟨n, k, i, rfl, rfl, (defines_iff hi).mp h⟩

theorem carries_move {n m : Int} (hn : s.procedure.hasNode n = true)
    (he : s.procedure.Precedes n m) :
    Carries s x ⟨n, (s.procedure.instrsAt n).length⟩ ⟨m, 0⟩ :=
  ⟨[], .move .here hn he he.hasNode, by simp⟩

theorem arrives_through {n : Int} {r : Reach} (hr : ∀ d ∈ r, Arrives s d ⟨n, 0⟩) {k : Nat}
    (hk : k ≤ (s.procedure.instrsAt n).length) :
    ∀ d ∈ r.through ((factsAt s n).take k), Arrives s d ⟨n, k⟩ := by
  induction k with
  | zero =>
    intro d hd
    rw [List.take_zero] at hd
    exact hr d hd
  | succ k ih =>
    intro d hd
    obtain ⟨i, hi⟩ : ∃ i, s.procedure.instrAt? ⟨s.procedure.name, n, (k : Nat)⟩ = some i :=
      ⟨_, by rw [Procedure.instrAt?_mk]; exact List.getElem?_eq_getElem hk⟩
    have hfact : (factsAt s n)[k]? = some (Fact.ofStatement s (⟨s.procedure.name, n, k⟩, i)) := by
      rw [factsAt_getElem?, hi, Option.map_some]
    rw [List.take_add_one, hfact, Option.toList_some, Reach.through_concat] at hd
    exact arrives_apply hi (ih (Nat.le_of_succ_le hk)) hd

/-! ### The solution -/

/-- Every definition at the end of a node has been carried there. -/
def Grounded (s : Scope) (o : Outcomes) : Prop :=
  ∀ y ∈ o, ∀ d ∈ y.2, s.procedure.hasNode y.1 = true ∧
    Arrives s d ⟨y.1, (s.procedure.instrsAt y.1).length⟩

theorem Grounded.entering {o : Outcomes} (ho : Grounded s o) {n : Int} :
    ∀ d ∈ (graph s).entering o n (s.procedure.predecessors n), Arrives s d ⟨n, 0⟩ := by
  intro d hd
  rcases (graph s).mem_entering.mp hd with ⟨rfl, hinitial⟩ | ⟨m, hm, hd⟩
  · obtain ⟨x, hx, rfl⟩ := List.mem_map.mp hinitial
    exact ⟨hx, [], .here, by simp⟩
  · unfold Outcomes.at_ at hd
    cases hl : o.lookup m with
    | none => simp [hl] at hd
    | some r =>
      rw [hl, Option.getD_some] at hd
      obtain ⟨hnode, harrives⟩ := ho _ (mem_of_lookup hl) d hd
      exact harrives.extend (carries_move hnode hm)

theorem Grounded.joinAt {o : Outcomes} (ho : Grounded s o) {n : Int × List Int × List Fact}
    (hn : n ∈ (graph s).nodes) : Grounded s (joinAt o n.1 ((graph s).leaving o n)) := by
  intro y hy d hd
  obtain ⟨x, hx, rfl⟩ := List.mem_map.mp hy
  by_cases hkey : (x.1 == n.1) = true
  · simp only [hkey, if_true] at hd ⊢
    rcases mem_union.mp hd with hd | hd
    · exact ho x hx d hd
    · obtain ⟨id, hid, rfl⟩ := List.mem_map.mp hn
      obtain rfl : x.1 = id := by simpa using hkey
      refine ⟨Procedure.mem_reversePostorder.mp hid, ?_⟩
      apply arrives_through (r := (graph s).entering o x.1 (s.procedure.predecessors x.1))
        ho.entering (Nat.le_refl _)
      rw [← length_factsAt, List.take_length]
      exact hd
  · simp only [hkey, Bool.false_eq_true, if_false] at hd ⊢
    exact ho x hx d hd

theorem grounded_solve (s : Scope) : Grounded s (graph s).solve := by
  have hrounds : ∀ (ns : List (Int × List Int × List Fact)) (o : Outcomes), ns ⊆ (graph s).nodes →
      Grounded s o → Grounded s (joinRound Prod.fst (graph s).leaving ns o) := by
    intro ns
    induction ns with
    | nil => exact fun o _ ho => ho
    | cons n ns ih =>
      intro o hns ho
      exact ih _ (fun m hm => hns (List.mem_cons_of_mem n hm)) (ho.joinAt (hns List.mem_cons_self))
  have hstart : Grounded s (graph s).start := by
    intro y hy d hd
    obtain ⟨n, _, rfl⟩ := List.mem_map.mp hy
    cases hd
  rw [FactGraph.solve_eq_saturate]
  exact saturate_keeps (fun o => hrounds _ o (List.Subset.refl _)) _ hstart

theorem functional_graph (s : Scope) : (graph s).Functional := by
  intro n hn m hm hnm
  obtain ⟨id, _, rfl⟩ := List.mem_map.mp hn
  obtain ⟨id', _, rfl⟩ := List.mem_map.mp hm
  obtain rfl : id = id' := hnm
  rfl

theorem mem_holding_iff {n : Int} {k : Nat} (hk : k ≤ (s.procedure.instrsAt n).length) :
    d ∈ holding s ⟨n, k⟩ ↔ Arrives s d ⟨n, k⟩ := by
  constructor
  · intro hd
    exact arrives_through (grounded_solve s).entering hk d hd
  · intro h
    obtain ⟨x, st⟩ := d
    cases st with
    | none =>
      obtain ⟨hx, xs, hw, hkeep⟩ := h
      exact holding_of_walk hw (holding_entry hx) hkeep
    | some t =>
      obtain ⟨hdef, xs, hw, hkeep⟩ := h
      obtain ⟨m, j, i, rfl, hi, e, he, rfl⟩ := exists_effect_of_defines hdef
      refine holding_of_walk hw ?_ hkeep
      rw [StatementId.behind, Int.toNat_natCast, holding_succ hi]
      exact Fact.mem_apply.mpr (Or.inr ⟨e, he, rfl⟩)

/-- The loop over the nodes comes to an end, each visit replacing what it found before, and what the
last round has recorded on its way are the states. A definition holds before a statement if and only if a walk without a statement that
replaces its symbol leads there, from behind its write or from the entry. Behind the statement its
own writes hold, and all that it does not replace. -/
theorem reaching_iff_walk (s : Scope) :
    (∃ o r, Ends (graph s).replacingRound (fun x y => x.1.Same y.1) ((graph s).start, []) (o, r) ∧
      o.Same (ofScope s).outcomes ∧ r.Same (ofScope s).states) ∧
    ∀ t, s.procedure.contains t = true →
      ∃ before behind, (ofScope s).states.lookup t = some (before, behind) ∧
        (∀ x u, ⟨x, some u⟩ ∈ before ↔
          (ofScope s).defines x u = true ∧ Carries s x u.behind t.front) ∧
        (∀ x, ⟨x, none⟩ ∈ before ↔
          x ∈ (ofScope s).symbols ∧ Carries s x ⟨s.procedure.entry, 0⟩ t.front) ∧
        ∀ d, d ∈ behind ↔ (d ∈ before ∧ (ofScope s).resets d.symbol t = false) ∨
          ((ofScope s).defines d.symbol t = true ∧ d.statement = some t) := by
  refine ⟨FactGraph.replacing_ends (functional_graph s), ?_⟩
  intro t ht
  obtain ⟨i, hi⟩ := Procedure.contains_iff.mp ht
  obtain ⟨n, k, rfl, hk⟩ := Procedure.exists_of_instrAt? hi
  have hlen : k ≤ (s.procedure.instrsAt n).length :=
    Nat.le_of_lt (List.getElem?_eq_some_iff.mp hk).1
  refine ⟨_, _, states_lookup hi, ?_, ?_, ?_⟩
  · intro x u
    rw [mem_holding_iff hlen]
    rfl
  · intro x
    rw [mem_holding_iff hlen]
    rfl
  · intro d
    rw [holding_succ hi, Fact.mem_apply, resets_eq hi, defines_iff hi]
    refine or_congr_right ?_
    constructor
    · rintro ⟨e, he, rfl⟩
      exact ⟨⟨e, he, rfl⟩, rfl⟩
    · rintro ⟨⟨e, he, hx⟩, hst⟩
      obtain ⟨x, st⟩ := d
      exact ⟨e, he, by rw [Definition.mk.injEq]; exact ⟨hx.symm, hst⟩⟩

/-- A loop, a predecessor that does not exist, and a node that nothing leads to. -/
def detour : Scope where
  procedure := methodOf "A.m" []
    [{ id := 0, instrs := [⟨.unknown, .assign "x" (selfField "f")⟩], succs := [1] },
      { id := 1, preds := [0, 1, 9], succs := [1]
        instrs := [⟨.unknown, .assign "y" (.var "x")⟩, ⟨.unknown, .assign "x" (.var "y")⟩] },
      { id := 2, succs := [1], instrs := [⟨.unknown, .assign "x" (.const .none)⟩] }]

/-- Both writes of the loop hold when it is entered a second time, the first one past the second. -/
theorem reaching_iff_walk_detour :
    detour.procedure.contains ⟨"A.m", 1, 0⟩ = true ∧
    ∃ before behind, (ofScope detour).states.lookup ⟨"A.m", 1, 0⟩ = some (before, behind) ∧
      ⟨detour.symbolOf "x", some ⟨"A.m", 1, 1⟩⟩ ∈ before ∧
      ⟨detour.symbolOf "y", some ⟨"A.m", 1, 0⟩⟩ ∈ before := by
  refine ⟨rfl, ?_⟩
  obtain ⟨before, behind, hlookup, hwrites, _⟩ :=
    (reaching_iff_walk detour).2 ⟨"A.m", 1, 0⟩ rfl
  have hback : ∀ {xs a}, Walk detour.procedure detour.procedure.Precedes a xs ⟨1, 2⟩ →
      Walk detour.procedure detour.procedure.Precedes a xs ⟨1, 0⟩ :=
    fun hw => .move (n := 1) hw rfl (List.mem_cons_of_mem 0 List.mem_cons_self) rfl
  refine ⟨before, behind, hlookup, (hwrites _ _).mpr ⟨?_, [], hback .here, by simp⟩,
    (hwrites _ _).mpr ⟨?_, [⟨"A.m", 1, 1⟩], hback (.step .here rfl), ?_⟩⟩
  · rw [defines, fact?_ofScope]
    rfl
  · rw [defines, fact?_ofScope]
    rfl
  · intro t ht
    rw [List.mem_singleton.mp ht, resets, fact?_ofScope]
    rfl

end Flow

end ActorOwnership
