import ActorOwnership.Procedure.Traversal

/-! Statements of a graph, and walks through it one statement at a time. A walk goes from the end of
a node to the start of another one along a relation between nodes: the predecessor lists or the
successor lists of the graph. -/

namespace ActorOwnership
set_option autoImplicit false

namespace Procedure

variable {p : Procedure}

/-! ### Statements -/

theorem node?_id {id : Int} {n : Node} (h : p.node? id = some n) : n.id = id := by
  have := List.find?_some h
  simpa using this

theorem instrsAt_of_node? {id : Int} {n : Node} (h : p.node? id = some n) :
    p.instrsAt id = n.instrs := by
  simp [instrsAt, h]

theorem instrAt?_mk (p : Procedure) (id : Int) (k : Nat) :
    p.instrAt? ⟨p.name, id, k⟩ = (p.instrsAt id)[k]? := by
  rw [instrAt?, if_pos rfl, pick?_ofNat]

theorem exists_of_instrAt? {s : StatementId} {i : Instr} (h : p.instrAt? s = some i) :
    ∃ n k, s = ⟨p.name, n, (k : Nat)⟩ ∧ (p.instrsAt n)[k]? = some i := by
  obtain ⟨name, n, index⟩ := s
  unfold instrAt? at h
  split at h
  · rename_i hname
    unfold pick? at h
    split at h
    · simp at h
    · rename_i hneg
      refine ⟨n, index.toNat, ?_, h⟩
      simp only at hname hneg
      have hindex : (index.toNat : Int) = index := by omega
      rw [hname, hindex]
  · simp at h

theorem exists_node_of_instrAt? {n : Int} {k : Nat} {i : Instr}
    (h : (p.instrsAt n)[k]? = some i) : ∃ m, p.node? n = some m ∧ m.instrs[k]? = some i := by
  cases hm : p.node? n with
  | none => simp [instrsAt, hm] at h
  | some m => exact ⟨m, rfl, by simpa [instrsAt, hm] using h⟩

theorem hasNode_of_instrAt? {n : Int} {k : Nat} {i : Instr}
    (h : p.instrAt? ⟨p.name, n, k⟩ = some i) : p.hasNode n = true := by
  rw [instrAt?_mk] at h
  obtain ⟨m, hm, _⟩ := exists_node_of_instrAt? h
  exact hasNode_iff.mpr ⟨m, hm⟩

theorem mem_statementsOf {n : Node} {s : StatementId} {i : Instr} :
    (s, i) ∈ p.statementsOf n ↔ ∃ k : Nat, n.instrs[k]? = some i ∧ s = ⟨p.name, n.id, k⟩ := by
  unfold statementsOf
  constructor
  · intro h
    obtain ⟨⟨j, k⟩, hjk, heq⟩ := List.mem_map.mp h
    rw [Prod.mk.injEq] at heq
    have hk := List.mem_zipIdx_iff_getElem?.mp hjk
    exact ⟨k, heq.2 ▸ hk, heq.1.symm⟩
  · rintro ⟨k, hk, rfl⟩
    exact List.mem_map.mpr ⟨(i, k), List.mem_zipIdx_iff_getElem?.mpr hk, rfl⟩

theorem mem_sortedIds {id : Int} : id ∈ p.sortedIds ↔ ∃ n, p.node? id = some n := by
  rw [← hasNode_iff]
  simp [sortedIds, List.mem_mergeSort, hasNode]

theorem mem_sortedNodes {n : Node} : n ∈ p.sortedNodes ↔ p.node? n.id = some n := by
  unfold sortedNodes
  rw [List.mem_filterMap]
  constructor
  · rintro ⟨id, _, hn⟩
    rw [node?_id hn]
    exact hn
  · intro hn
    exact ⟨n.id, mem_sortedIds.mpr ⟨n, hn⟩, hn⟩

/-- The statements are exactly the handles that name an instruction. -/
theorem mem_statements {s : StatementId} {i : Instr} :
    (s, i) ∈ p.statements ↔ p.instrAt? s = some i := by
  unfold statements
  rw [List.mem_flatMap]
  constructor
  · rintro ⟨n, hn, hs⟩
    obtain ⟨k, hk, rfl⟩ := mem_statementsOf.mp hs
    rw [instrAt?_mk, instrsAt_of_node? (mem_sortedNodes.mp hn)]
    exact hk
  · intro h
    obtain ⟨id, k, rfl, hk⟩ := exists_of_instrAt? h
    obtain ⟨n, hn, hi⟩ := exists_node_of_instrAt? hk
    have hid := node?_id hn
    refine ⟨n, mem_sortedNodes.mpr (hid ▸ hn), mem_statementsOf.mpr ⟨k, hi, ?_⟩⟩
    rw [hid]

theorem mem_statementsAt {id : Int} {s : StatementId} {i : Instr} :
    (s, i) ∈ p.statementsAt id ↔ ∃ k : Nat, s = ⟨p.name, id, k⟩ ∧ p.instrAt? s = some i := by
  cases hn : p.node? id with
  | none =>
    simp only [statementsAt, hn, List.not_mem_nil, false_iff]
    rintro ⟨k, rfl, hi⟩
    rw [instrAt?_mk] at hi
    obtain ⟨n, hn', _⟩ := exists_node_of_instrAt? hi
    rw [hn] at hn'
    cases hn'
  | some n =>
    simp only [statementsAt, hn, mem_statementsOf, node?_id hn]
    constructor
    · rintro ⟨k, hk, rfl⟩
      exact ⟨k, rfl, by rw [instrAt?_mk, instrsAt_of_node? hn]; exact hk⟩
    · rintro ⟨k, rfl, hi⟩
      rw [instrAt?_mk, instrsAt_of_node? hn] at hi
      exact ⟨k, hi, rfl⟩

/-! ### Walks -/

/-- `a` is in the predecessor list of `b`. -/
def Precedes (p : Procedure) (a b : Int) : Prop := a ∈ p.predecessors b

/-- `b` is in the successor list of `a`. -/
def LeadsTo (p : Procedure) (a b : Int) : Prop := b ∈ p.successors a

/-- Every edge is recorded at both of its ends. -/
def Symmetric (p : Procedure) : Prop := ∀ a b, p.LeadsTo a b ↔ p.Precedes a b

theorem LeadsTo.hasNode {a b : Int} (h : p.LeadsTo a b) : p.hasNode a = true := by
  rw [hasNode_iff]
  unfold LeadsTo successors at h
  cases hn : p.node? a with
  | none => simp [hn] at h
  | some n => exact ⟨n, rfl⟩

theorem Precedes.hasNode {a b : Int} (h : p.Precedes a b) : p.hasNode b = true := by
  rw [hasNode_iff]
  unfold Precedes predecessors at h
  cases hn : p.node? b with
  | none => simp [hn] at h
  | some n => exact ⟨n, rfl⟩

theorem exists_mem_of_hasNode {id : Int} (h : p.hasNode id = true) : ∃ n ∈ p.nodes, n.id = id := by
  obtain ⟨n, hn⟩ := hasNode_iff.mp h
  exact ⟨n, List.mem_of_find?_eq_some hn, node?_id hn⟩

theorem symmetric_iff : p.Symmetric ↔ ∀ n ∈ p.nodes,
    (∀ b ∈ p.successors n.id, n.id ∈ p.predecessors b) ∧
      ∀ a ∈ p.predecessors n.id, n.id ∈ p.successors a := by
  constructor
  · intro h n _
    exact ⟨fun b => (h n.id b).mp, fun a => (h a n.id).mpr⟩
  · intro h a b
    constructor
    · intro hab
      obtain ⟨n, hn, rfl⟩ := exists_mem_of_hasNode hab.hasNode
      exact (h n hn).1 b hab
    · intro hab
      obtain ⟨n, hn, rfl⟩ := exists_mem_of_hasNode hab.hasNode
      exact (h n hn).2 a hab

instance : Decidable p.Symmetric := decidable_of_iff _ symmetric_iff.symm

end Procedure

/-- A point between two statements: a node, and how many of its statements are done. -/
structure Position where
  node : Int
  index : Nat

/-- `Walk p edge a xs b`: from `a` the statements `xs` are done one after the other, and `b` is
reached. From the end of a node the walk goes on along `edge`. -/
inductive Walk (p : Procedure) (edge : Int → Int → Prop) (a : Position) :
    List StatementId → Position → Prop where
  | here : Walk p edge a [] a
  | step {xs : List StatementId} {n : Int} {k : Nat} {i : Instr} :
      Walk p edge a xs ⟨n, k⟩ → p.instrAt? ⟨p.name, n, k⟩ = some i →
        Walk p edge a (xs ++ [⟨p.name, n, k⟩]) ⟨n, k + 1⟩
  | move {xs : List StatementId} {n m : Int} :
      Walk p edge a xs ⟨n, (p.instrsAt n).length⟩ → p.hasNode n = true → edge n m →
        p.hasNode m = true → Walk p edge a xs ⟨m, 0⟩

namespace Walk
variable {p : Procedure} {edge : Int → Int → Prop} {a b d : Position}

theorem trans {xs ys : List StatementId} (hab : Walk p edge a xs b) (hbd : Walk p edge b ys d) :
    Walk p edge a (xs ++ ys) d := by
  induction hbd with
  | here => simpa using hab
  | step _ hi ih =>
    rw [← List.append_assoc]
    exact ih.step hi
  | move _ hn he hm ih => exact ih.move hn he hm

theorem mono {edge' : Int → Int → Prop} (h : ∀ m n, edge m n → edge' m n) {xs : List StatementId}
    (hw : Walk p edge a xs b) : Walk p edge' a xs b := by
  induction hw with
  | here => exact .here
  | step _ hi ih => exact ih.step hi
  | move _ hn he hm ih => exact ih.move hn (h _ _ he) hm

theorem split {xs ys zs : List StatementId} {t : StatementId} (hw : Walk p edge a xs b)
    (hxs : xs = ys ++ t :: zs) :
    ∃ n k i, t = ⟨p.name, n, (k : Nat)⟩ ∧ p.instrAt? t = some i ∧
      Walk p edge a ys ⟨n, k⟩ ∧ Walk p edge ⟨n, k + 1⟩ zs b := by
  induction hw generalizing zs with
  | here => simp at hxs
  | @step xs n k i hw hi ih =>
    rcases List.eq_nil_or_concat zs with rfl | ⟨zs, z, rfl⟩
    · obtain ⟨rfl, ht⟩ := List.append_inj' hxs rfl
      rw [List.cons.injEq] at ht
      exact ⟨n, k, i, ht.1.symm, ht.1 ▸ hi, hw, .here⟩
    · rw [List.concat_eq_append, ← List.cons_append, ← List.append_assoc] at hxs
      obtain ⟨rfl, hz⟩ := List.append_inj' hxs rfl
      rw [List.cons.injEq] at hz
      obtain ⟨m, j, i', rfl, hi', hbefore, hafter⟩ := ih rfl
      refine ⟨m, j, i', rfl, hi', hbefore, ?_⟩
      rw [List.concat_eq_append, ← hz.1]
      exact hafter.step hi
  | move _ hn he hm ih =>
    obtain ⟨m, j, i', rfl, hi', hbefore, hafter⟩ := ih hxs
    exact ⟨m, j, i', rfl, hi', hbefore, hafter.move hn he hm⟩

theorem hasNode_start {xs : List StatementId} (hw : Walk p edge a xs b)
    (hb : p.hasNode b.node = true) : p.hasNode a.node = true := by
  induction hw with
  | here => exact hb
  | step _ _ ih => exact ih hb
  | move _ hn _ _ ih => exact ih hn

end Walk

/-! ### Small methods -/

/-- A method of the class `A`. -/
def methodOf (name : String) (params : List String) (nodes : List Node) : Procedure where
  name := name
  params := ("self", .unknown) :: params.map fun x => (x, .unknown)
  isMethod := true
  className := some "A"
  nodes := nodes

def selfField (name : String) : Exp := .field (.var "self") name

def selfCall (name : String) (args : List Exp) : Instr :=
  ⟨.unknown, .call none ⟨.const (.text name), args, some (.var "self")⟩⟩

def printCall (arg : Exp) : Instr := ⟨.unknown, .call none ⟨.const (.text "print"), [arg], none⟩⟩

/-- Gives up its only argument. -/
def sendCall (arg : Exp) : Instr :=
  ⟨.unknown, .handOff none ⟨.const (.text "send"), [arg], none⟩ [0] ""⟩

end ActorOwnership
