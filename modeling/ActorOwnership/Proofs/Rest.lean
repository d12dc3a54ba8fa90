import ActorOwnership.Proofs.Walk

/-! What is left to do from a point of a graph: the instructions along the ways to its exit, one
instruction or one edge at a time. These are the instructions along the walks to the exit. -/

namespace ActorOwnership
set_option autoImplicit false

/-- `p.Rest a xs`: from `a` the end of the exit is reached along the instructions `xs`. -/
inductive Procedure.Rest (p : Procedure) : Position → List Instr → Prop where
  | done : Rest p ⟨p.exit, (p.instrsAt p.exit).length⟩ []
  | step {n : Int} {k : Nat} {i : Instr} {xs : List Instr} :
      (p.instrsAt n)[k]? = some i → Rest p ⟨n, k + 1⟩ xs → Rest p ⟨n, k⟩ (i :: xs)
  | move {n m : Int} {xs : List Instr} :
      p.LeadsTo n m → Rest p ⟨m, 0⟩ xs → Rest p ⟨n, (p.instrsAt n).length⟩ xs

namespace Procedure
variable {p : Procedure} {n : Int} {xs : List Instr}

theorem rest_step {k : Nat} {i : Instr} (hi : (p.instrsAt n)[k]? = some i) :
    p.Rest ⟨n, k⟩ xs ↔ ∃ zs, xs = i :: zs ∧ p.Rest ⟨n, k + 1⟩ zs := by
  have hlt : k < (p.instrsAt n).length := (List.getElem?_eq_some_iff.mp hi).1
  constructor
  · intro h
    cases h with
    | done => omega
    | step hj hrest =>
      rw [hi] at hj
      cases hj
      exact ⟨_, rfl, hrest⟩
    | move => omega
  · rintro ⟨zs, rfl, hrest⟩
    exact .step hi hrest

theorem rest_append {before is after : List Instr}
    (h : p.instrsAt n = before ++ (is ++ after)) :
    p.Rest ⟨n, before.length⟩ xs ↔ ∃ zs, xs = is ++ zs ∧ p.Rest ⟨n, (before ++ is).length⟩ zs := by
  induction is generalizing before xs with
  | nil => simp
  | cons i is ih =>
    have hi : (p.instrsAt n)[before.length]? = some i := by
      rw [h]
      simp
    have h' : p.instrsAt n = (before ++ [i]) ++ (is ++ after) := by
      rw [h]
      simp
    rw [rest_step hi]
    have hlength : before.length + 1 = (before ++ [i]).length := by simp
    constructor
    · rintro ⟨zs, rfl, hrest⟩
      rw [hlength, ih h'] at hrest
      obtain ⟨ws, rfl, hrest⟩ := hrest
      refine ⟨ws, rfl, ?_⟩
      rw [List.append_assoc] at hrest
      exact hrest
    · rintro ⟨ws, rfl, hrest⟩
      refine ⟨is ++ ws, rfl, ?_⟩
      rw [hlength, ih h']
      refine ⟨ws, rfl, ?_⟩
      rw [List.append_assoc]
      exact hrest

/-- At the end of a node that is not the exit one of its edges is taken. -/
theorem rest_end (hexit : n ≠ p.exit) :
    p.Rest ⟨n, (p.instrsAt n).length⟩ xs ↔ ∃ m, p.LeadsTo n m ∧ p.Rest ⟨m, 0⟩ xs := by
  constructor
  · intro h
    generalize ha : (⟨n, (p.instrsAt n).length⟩ : Position) = a at h
    cases h with
    | done =>
      cases ha
      exact absurd rfl hexit
    | step hi hrest =>
      cases ha
      simp at hi
    | move hm hrest =>
      cases ha
      exact ⟨_, hm, hrest⟩
  · rintro ⟨m, hm, hrest⟩
    exact .move hm hrest

/-- From an empty exit without edges nothing is left to do. -/
theorem rest_exit (hcode : p.instrsAt p.exit = []) (hsuccs : p.successors p.exit = []) :
    p.Rest ⟨p.exit, 0⟩ xs ↔ xs = [] := by
  constructor
  · intro h
    generalize ha : (⟨p.exit, 0⟩ : Position) = a at h
    cases h with
    | done => rfl
    | step hi hrest =>
      cases ha
      simp [hcode] at hi
    | @move n m _ hm hrest =>
      have hn : n = p.exit := by
        rw [Position.mk.injEq] at ha
        exact ha.1.symm
      rw [LeadsTo, hn, hsuccs] at hm
      cases hm
  · rintro rfl
    have h := Rest.done (p := p)
    rw [hcode] at h
    exact h

theorem Rest.hasNode {a : Position} (h : p.Rest a xs) (hexit : p.hasNode p.exit = true) :
    p.hasNode a.node = true := by
  cases h with
  | done => exact hexit
  | @step n k i _ hi _ => exact hasNode_of_instrAt? (k := k) (i := i) (by rw [instrAt?_mk, hi])
  | move hm _ => exact hm.hasNode

/-- The instructions along a walk to the exit. -/
def Reads (p : Procedure) (a : Position) (xs : List Instr) : Prop :=
  ∃ ids, Walk p p.LeadsTo a ids ⟨p.exit, (p.instrsAt p.exit).length⟩ ∧ ids.filterMap p.instrAt? = xs

theorem Rest.reads {a : Position} (hexit : p.hasNode p.exit = true) (h : p.Rest a xs) :
    p.Reads a xs := by
  induction h with
  | done => exact ⟨[], .here, rfl⟩
  | @step n k i xs hi _ ih =>
    obtain ⟨ids, hwalk, hids⟩ := ih
    have hat : p.instrAt? ⟨p.name, n, k⟩ = some i := by rw [instrAt?_mk, hi]
    refine ⟨[] ++ [⟨p.name, n, k⟩] ++ ids, (Walk.here.step hat).trans hwalk, ?_⟩
    simp [hat, hids]
  | @move n m xs hm hrest ih =>
    obtain ⟨ids, hwalk, hids⟩ := ih
    have hmove : Walk p p.LeadsTo ⟨n, (p.instrsAt n).length⟩ [] ⟨m, 0⟩ :=
      Walk.here.move hm.hasNode hm (hrest.hasNode hexit)
    exact ⟨[] ++ ids, hmove.trans hwalk, hids⟩

/-- A walk adds its instructions in front of what is left. -/
theorem rest_of_walk {a b : Position} {ids : List StatementId} (hwalk : Walk p p.LeadsTo a ids b)
    (h : p.Rest b xs) : p.Rest a (ids.filterMap p.instrAt? ++ xs) := by
  induction hwalk generalizing xs with
  | here => exact h
  | @step ids n k i _ hi ih =>
    have hk : (p.instrsAt n)[k]? = some i := by rw [← instrAt?_mk, hi]
    have h' := ih (.step hk h)
    simpa [hi] using h'
  | move _ _ he _ ih => exact ih (.move he h)

theorem reads_iff_rest {a : Position} (hexit : p.hasNode p.exit = true) :
    p.Reads a xs ↔ p.Rest a xs := by
  constructor
  · rintro ⟨ids, hwalk, rfl⟩
    have h := rest_of_walk hwalk .done
    rwa [List.append_nil] at h
  · exact Rest.reads hexit

end Procedure

end ActorOwnership
