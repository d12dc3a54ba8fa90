import Mathlib.Data.List.Perm.Subperm
import Mathlib.Logic.Relation
import Mathlib.Order.Lattice.Nat
import ActorOwnership.Proofs.Walk

/-! The orders on the nodes of a graph, for any successor lists. Breadth first has the nodes that the
entry reaches, by distance from the entry. Reverse postorder has every node once. The nodes that the
entry reaches come first, and an edge that is on no cycle leads forward among them. -/

namespace ActorOwnership.Procedure
set_option autoImplicit false

variable {p : Procedure}

/-! ### Distances -/

/-- Some edges lead from one node to the other. -/
def Reaches (p : Procedure) : Int → Int → Prop := Relation.ReflTransGen p.LeadsTo

/-- A way of `k` edges leads from the entry to a node. -/
inductive ReachedIn (p : Procedure) : Nat → Int → Prop where
  | entry : ReachedIn p 0 p.entry
  | step {k : Nat} {a b : Int} : ReachedIn p k a → p.LeadsTo a b → ReachedIn p (k + 1) b

theorem reaches_iff {id : Int} : p.Reaches p.entry id ↔ ∃ k, p.ReachedIn k id := by
  constructor
  · intro h
    induction h with
    | refl => exact ⟨0, .entry⟩
    | tail _ hab ih =>
      obtain ⟨k, hk⟩ := ih
      exact ⟨k + 1, hk.step hab⟩
  · rintro ⟨k, hk⟩
    induction hk with
    | entry => exact .refl
    | step _ hab ih => exact ih.tail hab

/-- The number of edges on a shortest way from the entry. -/
noncomputable def distance (p : Procedure) (id : Int) : Nat := sInf {k | p.ReachedIn k id}

theorem ReachedIn.distance_le {k : Nat} {id : Int} (h : p.ReachedIn k id) : p.distance id ≤ k :=
  Nat.sInf_le h

theorem ReachedIn.at_distance {k : Nat} {id : Int} (h : p.ReachedIn k id) :
    p.ReachedIn (p.distance id) id :=
  Nat.sInf_mem (s := {k | p.ReachedIn k id}) ⟨k, h⟩

/-! ### Nodes that are left -/

/-- The nodes that are not seen yet. -/
def unseen (p : Procedure) (seen : List Int) : List Node :=
  p.nodes.filter fun n => !seen.contains n.id

theorem unseen_sublist {seen seen' : List Int} (h : seen ⊆ seen') :
    (p.unseen seen').Sublist (p.unseen seen) := by
  apply List.monotone_filter_right
  intro n hn
  simp only [Bool.not_eq_true', List.contains_eq_mem, decide_eq_false_iff_not] at hn ⊢
  exact fun hmem => hn (h hmem)

/-- A visit takes its node away from those that are left. -/
theorem unseen_visit {seen : List Int} {id : Int} {n : Node} (hn : p.node? id = some n)
    (hnew : id ∉ seen) :
    ∃ rest, (p.unseen seen).Perm (n :: rest) ∧ (p.unseen (id :: seen)).Sublist rest := by
  have hid := node?_id hn
  have hmem : n ∈ p.unseen seen := by
    refine List.mem_filter.mpr ⟨List.mem_of_find?_eq_some hn, ?_⟩
    simpa [hid] using hnew
  have hfilter : p.unseen (id :: seen) = (p.unseen seen).filter fun m => m.id != id := by
    rw [unseen, unseen, List.filter_filter]
    congr 1
    funext m
    simp [bne, Bool.beq_eq_decide_eq]
  obtain ⟨before, behind, hsplit⟩ := List.append_of_mem hmem
  refine ⟨before ++ behind, hsplit ▸ List.perm_middle, ?_⟩
  rw [hfilter, hsplit, List.filter_append, List.filter_cons_of_neg (by simp [hid])]
  exact List.filter_sublist.append List.filter_sublist

theorem length_unseen_visit {seen : List Int} {id : Int} (hid : p.hasNode id = true)
    (hnew : id ∉ seen) : (p.unseen (id :: seen)).length < (p.unseen seen).length := by
  obtain ⟨n, hn⟩ := hasNode_iff.mp hid
  obtain ⟨rest, hperm, hsub⟩ := unseen_visit hn hnew
  rw [hperm.length_eq]
  exact Nat.lt_succ_of_le hsub.length_le

/-- The number of edges that leave unseen nodes. -/
def edgesLeft (p : Procedure) (seen : List Int) : Nat := ((p.unseen seen).flatMap Node.succs).length

theorem edgesLeft_visit {seen : List Int} {id : Int} (hid : p.hasNode id = true)
    (hnew : id ∉ seen) :
    p.edgesLeft (id :: seen) + (p.successors id).length ≤ p.edgesLeft seen := by
  obtain ⟨n, hn⟩ := hasNode_iff.mp hid
  obtain ⟨rest, hperm, hsub⟩ := unseen_visit hn hnew
  have hsuccs : p.successors id = n.succs := by simp [successors, hn]
  have hrest : p.edgesLeft (id :: seen) ≤ (rest.flatMap Node.succs).length :=
    (hsub.flatMap Node.succs).length_le
  have hall : p.edgesLeft seen = n.succs.length + (rest.flatMap Node.succs).length := by
    rw [edgesLeft, (hperm.flatMap_right Node.succs).length_eq, List.flatMap_cons,
      List.length_append]
  rw [hsuccs, hall]
  omega

theorem edgesLeft_nil : p.edgesLeft [] = p.edgeCount := by
  simp [edgesLeft, unseen, edgeCount]

/-! ### Breadth first -/

/-- A state of the search. Each node in the queue has the length of the way on which it was met, and
these lengths go up by one at most. The nodes seen are those nearer to the entry, the last one
first. -/
structure Layered (p : Procedure) (queue : List (Int × Nat)) (seen : List Int) : Prop where
  reached : ∀ x ∈ queue, p.ReachedIn x.2 x.1
  layers : queue.Pairwise fun x y => x.2 ≤ y.2 ∧ y.2 ≤ x.2 + 1
  visited : ∀ a ∈ seen, p.hasNode a = true ∧ ∃ k, p.ReachedIn k a
  nearer : ∀ a ∈ seen, ∀ x ∈ queue, p.distance a ≤ x.2
  closed : ∀ a ∈ seen, ∀ b, p.LeadsTo a b → p.hasNode b = true →
    b ∈ seen ∨ (b, p.distance a + 1) ∈ queue
  start : p.hasNode p.entry = true → p.entry ∈ seen ∨ (p.entry, 0) ∈ queue
  order : seen.Pairwise fun a b => p.distance b ≤ p.distance a
  nodup : seen.Nodup

namespace Layered
variable {queue : List (Int × Nat)} {seen : List Int} {x : Int × Nat}

theorem initial (p : Procedure) : Layered p [(p.entry, 0)] [] where
  reached := fun _ hx => List.mem_singleton.mp hx ▸ .entry
  layers := List.pairwise_singleton _ _
  visited := fun _ ha => absurd ha List.not_mem_nil
  nearer := fun _ ha => absurd ha List.not_mem_nil
  closed := fun _ ha => absurd ha List.not_mem_nil
  start := fun _ => Or.inr List.mem_cons_self
  order := .nil
  nodup := .nil

/-- A node that is not seen is no nearer than something in the queue. -/
theorem frontier (h : Layered p queue seen) {k : Nat} {b : Int} (hb : p.ReachedIn k b)
    (hnode : p.hasNode b = true) : b ∈ seen ∨ ∃ x ∈ queue, x.2 ≤ k := by
  induction hb with
  | entry => exact (h.start hnode).imp_right fun hx => ⟨_, hx, Nat.le_refl 0⟩
  | @step k a b ha hab ih =>
    rcases ih hab.hasNode with hseen | ⟨x, hx, hle⟩
    · refine (h.closed a hseen b hab hnode).imp_right fun hx => ⟨_, hx, ?_⟩
      exact Nat.succ_le_succ ha.distance_le
    · exact Or.inr ⟨x, hx, Nat.le_succ_of_le hle⟩

/-- A node that was met before, or does not exist, is dropped. -/
theorem skip (h : Layered p (x :: queue) seen)
    (hx : x.1 ∈ seen ∨ p.hasNode x.1 = false) : Layered p queue seen where
  reached := fun y hy => h.reached y (List.mem_cons_of_mem x hy)
  layers := (List.pairwise_cons.mp h.layers).2
  visited := h.visited
  nearer := fun a ha y hy => h.nearer a ha y (List.mem_cons_of_mem x hy)
  closed := by
    intro a ha b hab hb
    rcases h.closed a ha b hab hb with hseen | hmem
    · exact Or.inl hseen
    · rcases List.mem_cons.mp hmem with rfl | hmem
      · exact Or.inl (hx.resolve_right (by simp [hb]))
      · exact Or.inr hmem
  start := by
    intro hentry
    rcases h.start hentry with hseen | hmem
    · exact Or.inl hseen
    · rcases List.mem_cons.mp hmem with rfl | hmem
      · exact Or.inl (hx.resolve_right (by simp [hentry]))
      · exact Or.inr hmem
  order := h.order
  nodup := h.nodup

section Visit
variable (h : Layered p (x :: queue) seen) (hnew : x.1 ∉ seen) (hnode : p.hasNode x.1 = true)
include h hnew hnode

/-- A node is first met on a shortest way. -/
theorem distance_eq : p.distance x.1 = x.2 := by
  have hx := h.reached x List.mem_cons_self
  refine Nat.le_antisymm hx.distance_le ?_
  rcases h.frontier hx.at_distance hnode with hseen | ⟨y, hy, hle⟩
  · exact absurd hseen hnew
  · rcases List.mem_cons.mp hy with rfl | hy
    · exact hle
    · exact Nat.le_trans ((List.pairwise_cons.mp h.layers).1 y hy).1 hle

theorem visit : Layered p (queue ++ (p.successors x.1).map fun b => (b, x.2 + 1))
    (x.1 :: seen) := by
  have hdist := h.distance_eq hnew hnode
  have hx := h.reached x List.mem_cons_self
  obtain ⟨hfirst, hlayers⟩ := List.pairwise_cons.mp h.layers
  refine ⟨?_, ?_, ?_, ?_, ?_, ?_, ?_, List.nodup_cons.mpr ⟨hnew, h.nodup⟩⟩
  · intro y hy
    rcases List.mem_append.mp hy with hy | hy
    · exact h.reached y (List.mem_cons_of_mem x hy)
    · obtain ⟨b, hb, rfl⟩ := List.mem_map.mp hy
      exact hx.step hb
  · refine List.pairwise_append.mpr ⟨hlayers, ?_, ?_⟩
    · exact List.pairwise_map.mpr (List.pairwise_of_forall fun _ _ => ⟨Nat.le_refl _, by simp⟩)
    · -- what is in the queue is as far as the visited node, or one edge farther
      intro y hy z hz
      obtain ⟨b, _, rfl⟩ := List.mem_map.mp hz
      exact ⟨(hfirst y hy).2, Nat.succ_le_succ (hfirst y hy).1⟩
  · intro a ha
    rcases List.mem_cons.mp ha with rfl | ha
    · exact ⟨hnode, x.2, hx⟩
    · exact h.visited a ha
  · have hle : ∀ a ∈ x.1 :: seen, p.distance a ≤ x.2 := by
      intro a ha
      rcases List.mem_cons.mp ha with rfl | ha
      · exact Nat.le_of_eq hdist
      · exact h.nearer a ha x List.mem_cons_self
    intro a ha y hy
    rcases List.mem_append.mp hy with hy | hy
    · exact Nat.le_trans (hle a ha) (hfirst y hy).1
    · obtain ⟨b, _, rfl⟩ := List.mem_map.mp hy
      exact Nat.le_succ_of_le (hle a ha)
  · intro a ha b hab hb
    rcases List.mem_cons.mp ha with rfl | ha
    · refine Or.inr (List.mem_append.mpr (Or.inr ?_))
      rw [hdist]
      exact List.mem_map.mpr ⟨b, hab, rfl⟩
    · rcases h.closed a ha b hab hb with hseen | hmem
      · exact Or.inl (List.mem_cons_of_mem _ hseen)
      · rcases List.mem_cons.mp hmem with rfl | hmem
        · exact Or.inl List.mem_cons_self
        · exact Or.inr (List.mem_append.mpr (Or.inl hmem))
  · intro hentry
    rcases h.start hentry with hseen | hmem
    · exact Or.inl (List.mem_cons_of_mem _ hseen)
    · rcases List.mem_cons.mp hmem with rfl | hmem
      · exact Or.inl List.mem_cons_self
      · exact Or.inr (List.mem_append.mpr (Or.inl hmem))
  · refine List.pairwise_cons.mpr ⟨fun a ha => ?_, h.order⟩
    rw [hdist]
    exact h.nearer a ha x List.mem_cons_self

end Visit

/-- The search ends with an empty queue: each edge is put into it once at most. -/
theorem run {fuel : Nat} (h : Layered p queue seen)
    (hfuel : queue.length + p.edgesLeft seen ≤ fuel) :
    ∃ all, p.breadthFirstFrom fuel (queue.map Prod.fst) seen = all.reverse ∧ Layered p [] all := by
  induction fuel generalizing queue seen with
  | zero =>
    obtain rfl : queue = [] := List.eq_nil_of_length_eq_zero (by omega)
    exact ⟨seen, rfl, h⟩
  | succ fuel ih =>
    cases queue with
    | nil => exact ⟨seen, rfl, h⟩
    | cons x queue =>
      simp only [List.map_cons, breadthFirstFrom]
      rw [List.length_cons] at hfuel
      split
      · rename_i hskip
        refine ih (h.skip ?_) (by omega)
        simpa using hskip
      · rename_i hvisit
        simp only [List.contains_eq_mem, Bool.or_eq_true, decide_eq_true_eq, Bool.not_eq_true',
          not_or, Bool.not_eq_false] at hvisit
        have hleft := edgesLeft_visit hvisit.2 hvisit.1
        have hnext := ih (h.visit hvisit.1 hvisit.2) (by
          rw [List.length_append, List.length_map]
          omega)
        simpa [Function.comp_def] using hnext

end Layered

theorem exists_layered (p : Procedure) :
    ∃ all, p.breadthFirst = all.reverse ∧ Layered p [] all := by
  refine (Layered.initial p).run ?_
  rw [edgesLeft_nil, List.length_singleton]
  omega

theorem mem_breadthFirst {id : Int} :
    id ∈ p.breadthFirst ↔ p.hasNode id = true ∧ p.Reaches p.entry id := by
  obtain ⟨all, hall, h⟩ := p.exists_layered
  rw [hall, List.mem_reverse, reaches_iff]
  constructor
  · exact h.visited id
  · rintro ⟨hnode, k, hk⟩
    exact (h.frontier hk hnode).resolve_right (by simp)

/-! ### Reverse postorder -/

/-- What visits do to the nodes seen and the nodes finished: both only grow, what is met is finished
too and can be reached from the root, and what is finished was not seen before. -/
structure Explores (p : Procedure) (root : Int) (s t : List Int × List Int) : Prop where
  seen : s.1 ⊆ t.1
  finished : s.2 <:+ t.2
  met : ∀ x ∈ t.1, x ∈ s.1 ∨ (x ∈ t.2 ∧ p.hasNode x = true ∧ p.Reaches root x)
  fresh : ∀ x ∈ t.2, x ∈ s.2 ∨ (x ∈ t.1 ∧ x ∉ s.1)

namespace Explores
variable {root : Int} {s t u : List Int × List Int}

theorem refl (root : Int) (s : List Int × List Int) : Explores p root s s :=
  ⟨List.Subset.refl _, List.suffix_rfl, fun _ h => Or.inl h, fun _ h => Or.inl h⟩

theorem trans (h : Explores p root s t) (h' : Explores p root t u) : Explores p root s u where
  seen := List.Subset.trans h.seen h'.seen
  finished := h.finished.trans h'.finished
  met := by
    intro x hx
    rcases h'.met x hx with hx | hx
    · exact (h.met x hx).imp_right fun ⟨hdone, hreach⟩ => ⟨h'.finished.subset hdone, hreach⟩
    · exact Or.inr hx
  fresh := by
    intro x hx
    rcases h'.fresh x hx with hx | ⟨hx, hnew⟩
    · exact (h.fresh x hx).imp_right fun ⟨hseen, hnew⟩ => ⟨h'.seen hseen, hnew⟩
    · exact Or.inr ⟨hx, fun hseen => hnew (h.seen hseen)⟩

theorem of_step {child : Int} (h : Explores p child s t) (hstep : p.LeadsTo root child) :
    Explores p root s t :=
  { h with met := fun x hx => (h.met x hx).imp_right fun ⟨hdone, hnode, hreach⟩ =>
      ⟨hdone, hnode, .head hstep hreach⟩ }

theorem foldl {visit : List Int × List Int → Int → List Int × List Int} {ids : List Int}
    (hvisit : ∀ s, ∀ id ∈ ids, Explores p root s (visit s id)) (s : List Int × List Int) :
    Explores p root s (ids.foldl visit s) := by
  induction ids generalizing s with
  | nil => exact .refl root s
  | cons id ids ih =>
    exact (hvisit s id List.mem_cons_self).trans
      (ih (fun s i hi => hvisit s i (List.mem_cons_of_mem id hi)) _)

/-- A node that is seen and not finished was in this state before. -/
theorem pending (h : Explores p root s t) {b : Int} (hseen : b ∈ t.1) (hdone : b ∉ t.2) :
    b ∈ s.1 ∧ b ∉ s.2 :=
  ⟨(h.met b hseen).resolve_right fun hmet => hdone hmet.1,
    fun hb => hdone (h.finished.subset hb)⟩

end Explores

theorem finish_succ {fuel : Nat} {seen done : List Int} {id : Int} (hnew : id ∉ seen)
    (hid : p.hasNode id = true) : p.finish (fuel + 1) (seen, done) id =
      let s := (p.successors id).foldl (p.finish fuel) (id :: seen, done)
      (s.1, id :: s.2) := by
  simp [finish, hnew, hid]

theorem finish_of_not {fuel : Nat} {s : List Int × List Int} {id : Int}
    (h : ¬ (id ∉ s.1 ∧ p.hasNode id = true)) : p.finish fuel s id = s := by
  cases fuel with
  | zero => rfl
  | succ fuel =>
    have hskip : (s.1.contains id || !p.hasNode id) = true := by
      by_cases hseen : id ∈ s.1
      · simp [hseen]
      · simpa [hseen] using h
    simp only [finish, hskip, if_true]

theorem finish_explores (fuel : Nat) (s : List Int × List Int) (id : Int) :
    Explores p id s (p.finish fuel s id) := by
  induction fuel generalizing s id with
  | zero => exact .refl id s
  | succ fuel ih =>
    by_cases hvisit : id ∉ s.1 ∧ p.hasNode id = true
    · obtain ⟨seen, done⟩ := s
      obtain ⟨hnew, hid⟩ := hvisit
      rw [finish_succ hnew hid]
      have hfold : Explores p id (id :: seen, done)
          ((p.successors id).foldl (p.finish fuel) (id :: seen, done)) :=
        .foldl (fun s b hb => (ih s b).of_step hb) _
      have hseen := hfold.seen List.mem_cons_self
      refine ⟨fun x hx => hfold.seen (List.mem_cons_of_mem id hx),
        hfold.finished.trans (List.suffix_cons _ _), ?_, ?_⟩
      · intro x hx
        rcases hfold.met x hx with hx | ⟨hdone, hreach⟩
        · rcases List.mem_cons.mp hx with rfl | hx
          · exact Or.inr ⟨List.mem_cons_self, hid, .refl⟩
          · exact Or.inl hx
        · exact Or.inr ⟨List.mem_cons_of_mem id hdone, hreach⟩
      · intro x hx
        rcases List.mem_cons.mp hx with rfl | hx
        · exact Or.inr ⟨hseen, hnew⟩
        · refine (hfold.fresh x hx).imp_right fun ⟨hseen, hnew⟩ => ⟨hseen, ?_⟩
          exact fun hmem => hnew (List.mem_cons_of_mem id hmem)
    · rw [finish_of_not hvisit]
      exact .refl id s

/-- A state between two visits. The successors of a finished node are all seen. They were finished
before it, or else they lead back to it. -/
structure Postordered (p : Procedure) (s : List Int × List Int) : Prop where
  nodup : s.2.Nodup
  subset : s.2 ⊆ s.1
  closed : ∀ a ∈ s.2, ∀ b, p.LeadsTo a b → p.hasNode b = true → b ∈ s.1
  ordered : ∀ a ∈ s.2, ∀ b, p.LeadsTo a b → p.hasNode b = true →
    [a, b].Sublist s.2 ∨ p.Reaches b a

/-- The nodes that are seen and not finished lead to the node to be visited. -/
def Leading (p : Procedure) (s : List Int × List Int) (id : Int) : Prop :=
  ∀ b ∈ s.1, b ∉ s.2 → p.Reaches b id

namespace Postordered
variable {seen done : List Int} {id : Int}

theorem enter (h : Postordered p (seen, done)) : Postordered p (id :: seen, done) where
  nodup := h.nodup
  subset := fun _ hx => List.mem_cons_of_mem id (h.subset hx)
  closed := fun a ha b hab hb => List.mem_cons_of_mem id (h.closed a ha b hab hb)
  ordered := h.ordered

/-- A node is finished when all its successors are seen. -/
theorem leave {s : List Int × List Int} (h : Postordered p (seen, done))
    (hlead : Leading p (seen, done) id) (hnew : id ∉ seen)
    (hexp : Explores p id (id :: seen, done) s) (hs : Postordered p s)
    (hsucc : ∀ b, p.LeadsTo id b → p.hasNode b = true → b ∈ s.1) :
    Postordered p (s.1, id :: s.2) := by
  refine ⟨List.nodup_cons.mpr ⟨?_, hs.nodup⟩, ?_, ?_, ?_⟩
  · intro hdone
    rcases hexp.fresh id hdone with hdone | ⟨_, hnot⟩
    · exact hnew (h.subset hdone)
    · exact hnot List.mem_cons_self
  · exact List.cons_subset.mpr ⟨hexp.seen List.mem_cons_self, hs.subset⟩
  · intro a ha b hab hb
    rcases List.mem_cons.mp ha with rfl | ha
    · exact hsucc b hab hb
    · exact hs.closed a ha b hab hb
  · intro a ha b hab hb
    rcases List.mem_cons.mp ha with rfl | ha
    · by_cases hdone : b ∈ s.2
      · exact Or.inl ((List.singleton_sublist.mpr hdone).cons_cons a)
      · -- a successor that is not finished is the node itself, or one that led to it
        obtain ⟨hseen, hopen⟩ := hexp.pending (hsucc b hab hb) hdone
        rcases List.mem_cons.mp hseen with rfl | hseen
        · exact Or.inr .refl
        · exact Or.inr (hlead b hseen hopen)
    · exact (hs.ordered a ha b hab hb).imp_left fun hsub => hsub.cons id

end Postordered

theorem Leading.of_explores {root id : Int} {s t : List Int × List Int} (h : Leading p s id)
    (hexp : Explores p root s t) : Leading p t id := by
  intro b hb hopen
  obtain ⟨hb, hopen⟩ := hexp.pending hb hopen
  exact h b hb hopen

/-- What visits of the successors of a node do, if each single visit keeps the order and sees its
node. -/
theorem foldl_postordered {fuel : Nat} {root : Int}
    (hvisit : ∀ s id, (p.unseen s.1).length < fuel → Postordered p s → Leading p s id →
      Postordered p (p.finish fuel s id) ∧ (p.hasNode id = true → id ∈ (p.finish fuel s id).1))
    {ids : List Int} (hids : ∀ i ∈ ids, p.LeadsTo root i) {s : List Int × List Int}
    (hfuel : (p.unseen s.1).length < fuel) (h : Postordered p s) (hlead : Leading p s root) :
    Postordered p (ids.foldl (p.finish fuel) s) ∧
      ∀ i ∈ ids, p.hasNode i = true → i ∈ (ids.foldl (p.finish fuel) s).1 := by
  induction ids generalizing s with
  | nil => exact ⟨h, fun _ hi => absurd hi List.not_mem_nil⟩
  | cons i ids ih =>
    have hstep := hids i List.mem_cons_self
    have hrest : ∀ j ∈ ids, p.LeadsTo root j := fun j hj => hids j (List.mem_cons_of_mem i hj)
    have hexp : Explores p root s (p.finish fuel s i) := (finish_explores fuel s i).of_step hstep
    have hgrow : Explores p root (p.finish fuel s i) (ids.foldl (p.finish fuel) _) :=
      .foldl (fun s j hj => (finish_explores fuel s j).of_step (hrest j hj)) _
    obtain ⟨hi, hseen⟩ := hvisit s i hfuel h fun b hb hopen => (hlead b hb hopen).tail hstep
    obtain ⟨hall, hsucc⟩ := ih hrest
      (Nat.lt_of_le_of_lt (unseen_sublist hexp.seen).length_le hfuel) hi (hlead.of_explores hexp)
    refine ⟨hall, ?_⟩
    intro j hj hnode
    rcases List.mem_cons.mp hj with rfl | hj
    · exact hgrow.seen (hseen hnode)
    · exact hsucc j hj hnode

/-- With fuel for all nodes that are left, a visit keeps the order and sees its node. -/
theorem finish_postordered {fuel : Nat} (s : List Int × List Int) (id : Int)
    (hfuel : (p.unseen s.1).length < fuel) (h : Postordered p s) (hlead : Leading p s id) :
    Postordered p (p.finish fuel s id) ∧ (p.hasNode id = true → id ∈ (p.finish fuel s id).1) := by
  induction fuel generalizing s id with
  | zero => exact absurd hfuel (Nat.not_lt_zero _)
  | succ fuel ih =>
    by_cases hvisit : id ∉ s.1 ∧ p.hasNode id = true
    · obtain ⟨seen, done⟩ := s
      obtain ⟨hnew, hid⟩ := hvisit
      have hexp : Explores p id (id :: seen, done)
          ((p.successors id).foldl (p.finish fuel) (id :: seen, done)) :=
        .foldl (fun s b hb => (finish_explores fuel s b).of_step hb) _
      have hlead' : Leading p (id :: seen, done) id := by
        intro b hb hopen
        rcases List.mem_cons.mp hb with rfl | hb
        · exact .refl
        · exact hlead b hb hopen
      have hleft : (p.unseen (id :: seen)).length < fuel :=
        Nat.lt_of_lt_of_le (length_unseen_visit hid hnew) (Nat.le_of_lt_succ hfuel)
      have hsuccs : ∀ b ∈ p.successors id, p.LeadsTo id b := fun _ hb => hb
      obtain ⟨hall, hsucc⟩ := foldl_postordered ih hsuccs hleft h.enter hlead'
      rw [finish_succ hnew hid]
      exact ⟨h.leave hlead hnew hexp hall hsucc, fun _ => hexp.seen List.mem_cons_self⟩
    · rw [finish_of_not hvisit]
      refine ⟨h, fun hid => ?_⟩
      by_contra hnew
      exact hvisit ⟨hnew, hid⟩

/-- The nodes seen and the nodes finished when the entry has been visited. -/
def explored (p : Procedure) : List Int × List Int :=
  p.finish (p.nodes.length + 1) ([], []) p.entry

theorem reversePostorder_eq : p.reversePostorder =
    p.explored.2 ++ p.sortedIds.filter fun id => !p.explored.1.contains id := rfl

theorem explored_explores : Explores p p.entry ([], []) p.explored :=
  finish_explores _ _ _

theorem explored_postordered :
    Postordered p p.explored ∧ (p.hasNode p.entry = true → p.entry ∈ p.explored.1) := by
  refine finish_postordered ([], []) p.entry ?_ ?_ ?_
  · exact Nat.lt_succ_of_le (List.length_filter_le _ _)
  · exact ⟨.nil, List.Subset.refl _, fun a ha => absurd ha List.not_mem_nil,
      fun a ha => absurd ha List.not_mem_nil⟩
  · exact fun b hb => absurd hb List.not_mem_nil

theorem mem_explored_fst {id : Int} : id ∈ p.explored.1 ↔ id ∈ p.explored.2 := by
  constructor
  · intro h
    exact ((explored_explores.met id h).resolve_left List.not_mem_nil).1
  · exact fun h => explored_postordered.1.subset h

theorem mem_explored {id : Int} :
    id ∈ p.explored.2 ↔ p.hasNode id = true ∧ p.Reaches p.entry id := by
  obtain ⟨hpost, hentry⟩ := explored_postordered (p := p)
  constructor
  · intro h
    exact ((explored_explores.met id (hpost.subset h)).resolve_left List.not_mem_nil).2
  · rintro ⟨hid, hreach⟩
    induction hreach with
    | refl => exact mem_explored_fst.mp (hentry hid)
    | tail _ hab ih => exact mem_explored_fst.mp (hpost.closed _ (ih hab.hasNode) _ hab hid)

theorem head_explored (h : p.hasNode p.entry = true) : p.explored.2.head? = some p.entry := by
  rw [explored, finish_succ List.not_mem_nil h]
  rfl

theorem sortedIds_increasing (hp : (p.nodes.map Node.id).Nodup) :
    p.sortedIds.Pairwise (· < ·) := by
  have hperm : p.sortedIds.Perm (p.nodes.map Node.id) := List.mergeSort_perm _ _
  have hsorted : p.sortedIds.Pairwise fun a b => decide (a ≤ b) = true := by
    apply List.pairwise_mergeSort
    · intro a b c
      simp only [decide_eq_true_eq]
      exact Int.le_trans
    · intro a b
      simpa using Int.le_total a b
  refine (hsorted.and (hperm.nodup_iff.mpr hp)).imp ?_
  intro a b hab
  simp only [decide_eq_true_eq] at hab
  omega

/-- Reverse postorder has every node of the graph, reachable or not. -/
theorem mem_reversePostorder {id : Int} : id ∈ p.reversePostorder ↔ p.hasNode id = true := by
  rw [reversePostorder_eq, List.mem_append, List.mem_filter, mem_sortedIds, ← hasNode_iff]
  simp only [List.contains_eq_mem, mem_explored_fst, mem_explored, Bool.not_eq_true',
    decide_eq_false_iff_not, not_and]
  constructor
  · exact fun h => h.elim And.left And.left
  · intro h
    by_cases hreach : p.Reaches p.entry id
    · exact Or.inl ⟨h, hreach⟩
    · exact Or.inr ⟨h, fun _ => hreach⟩

theorem nodup_reversePostorder (hp : (p.nodes.map Node.id).Nodup) :
    p.reversePostorder.Nodup := by
  rw [reversePostorder_eq, List.nodup_append]
  refine ⟨explored_postordered.1.nodup, ?_, ?_⟩
  · exact List.Pairwise.filter _ ((sortedIds_increasing hp).imp Int.ne_of_lt)
  · rintro a ha b hb rfl
    have hnot := (List.mem_filter.mp hb).2
    simp [mem_explored_fst.mpr ha] at hnot

/-- Breadth first has the existing nodes that the entry reaches, each once, and none comes before a
nearer one. Reverse postorder has all nodes, each once. Those that the entry reaches come first, the
entry in front, and the others follow by name. Among the first ones, an edge leads forward unless
some way leads back from its end. -/
theorem traversals_ordered (p : Procedure) (hp : (p.nodes.map Node.id).Nodup) :
    (∀ id, id ∈ p.breadthFirst ↔ p.hasNode id = true ∧ p.Reaches p.entry id) ∧
    p.breadthFirst.Nodup ∧
    p.breadthFirst.Pairwise (fun a b => p.distance a ≤ p.distance b) ∧
    p.reversePostorder.Perm (p.nodes.map Node.id) ∧
    (∃ front back, p.reversePostorder = front ++ back ∧
      (∀ id ∈ front, p.Reaches p.entry id) ∧
      (∀ id ∈ back, ¬ p.Reaches p.entry id) ∧
      (p.hasNode p.entry = true → front.head? = some p.entry) ∧
      back.Pairwise (· < ·)) ∧
    ∀ u v, p.Reaches p.entry u → p.LeadsTo u v → p.hasNode v = true → ¬ p.Reaches v u →
      [u, v].Sublist p.reversePostorder := by
  obtain ⟨all, hall, hlayered⟩ := p.exists_layered
  refine ⟨fun id => mem_breadthFirst, ?_, ?_, ?_, ?_, ?_⟩
  · rw [hall]
    exact List.nodup_reverse.mpr hlayered.nodup
  · rw [hall]
    exact List.pairwise_reverse.mpr hlayered.order
  · refine (List.perm_ext_iff_of_nodup (nodup_reversePostorder hp) hp).mpr fun id => ?_
    rw [mem_reversePostorder, hasNode, List.any_eq_true, List.mem_map]
    simp only [beq_iff_eq]
  · refine ⟨_, _, reversePostorder_eq, fun id hid => (mem_explored.mp hid).2, ?_, head_explored,
      (sortedIds_increasing hp).filter _⟩
    intro id hid hreach
    obtain ⟨hsorted, hnot⟩ := List.mem_filter.mp hid
    have hmem := mem_explored.mpr ⟨hasNode_iff.mpr (mem_sortedIds.mp hsorted), hreach⟩
    simp [mem_explored_fst.mpr hmem] at hnot
  · intro u v hu huv hv hback
    have hdone := mem_explored.mpr ⟨huv.hasNode, hu⟩
    have hsub := (explored_postordered.1.ordered u hdone v huv hv).resolve_right hback
    rw [reversePostorder_eq]
    exact hsub.trans (List.sublist_append_left _ _)

/-- A cycle with a loop of its own, an edge that is drawn twice and one to a node that does not
exist. Nothing leads to the nodes 4 and 5. -/
def tangle : Procedure where
  name := "f"
  nodes := [{ id := 5, succs := [0, 4] }, { id := 0, succs := [1, 9, 1] },
    { id := 1, succs := [1, 0, 2] }, { id := 4 }, { id := 2 }]

/-- The edge out of the cycle leads forward. -/
theorem traversals_ordered_tangle :
    (tangle.nodes.map Node.id).Nodup ∧ ¬ tangle.Reaches 2 1 ∧
      [1, 2].Sublist tangle.reversePostorder := by
  have hback : ¬ tangle.Reaches 2 1 := by
    intro h
    rcases Relation.ReflTransGen.cases_head h with h | ⟨b, h, _⟩
    · exact absurd h (by decide)
    · exact absurd h List.not_mem_nil
  have hdistinct : (tangle.nodes.map Node.id).Nodup := by decide
  obtain ⟨_, _, _, _, _, hedges⟩ := traversals_ordered tangle hdistinct
  refine ⟨hdistinct, hback, hedges 1 2 (.single ?_) ?_ rfl hback⟩
  · exact List.mem_cons_self
  · exact List.mem_cons_of_mem _ (List.mem_cons_of_mem _ List.mem_cons_self)

end ActorOwnership.Procedure
