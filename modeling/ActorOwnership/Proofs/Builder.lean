import ActorOwnership.Lowering.Statement
import ActorOwnership.Proofs.Walk

/-! How a graph grows while a procedure is lowered. Only the current node and nodes that are new
change; the current node has no edges yet and stays open until it gets them. -/

namespace ActorOwnership
set_option autoImplicit false

/-! ### Nodes -/

namespace Procedure
variable {p : Procedure} {n id : Int}

theorem node?_modifyNode (f : Node → Node) (hf : ∀ m, (f m).id = m.id) :
    (p.modifyNode id f).node? n = (p.node? n).map fun m => if n = id then f m else m := by
  have hkey : ((fun m : Node => m.id == n) ∘ fun m => if m.id == id then f m else m) =
      fun m => m.id == n := by
    funext m
    simp only [Function.comp]
    split <;> simp [hf]
  rw [node?, modifyNode, List.find?_map, hkey]
  cases hm : p.nodes.find? (fun m => m.id == n) with
  | none => simp [node?, hm]
  | some m =>
    have hid : m.id = n := node?_id hm
    simp [node?, hm, hid]

/-- A change that leaves a part of each node alone leaves that part of the graph alone. -/
theorem map_node?_modifyNode {α : Type} {g : Node → α} (f : Node → Node)
    (hf : ∀ m, (f m).id = m.id) (hg : ∀ m, g (f m) = g m) :
    ((p.modifyNode id f).node? n).map g = (p.node? n).map g := by
  rw [node?_modifyNode f hf, Option.map_map]
  congr 1
  funext m
  simp only [Function.comp]
  split
  · exact hg m
  · rfl

theorem hasNode_modifyNode (f : Node → Node) (hf : ∀ m, (f m).id = m.id) :
    (p.modifyNode id f).hasNode n = p.hasNode n := by
  rw [Bool.eq_iff_iff, hasNode_iff, hasNode_iff, ← Option.isSome_iff_exists,
    ← Option.isSome_iff_exists, node?_modifyNode f hf, Option.isSome_map]

theorem node?_of_hasNode_eq_false (h : p.hasNode n = false) : p.node? n = none := by
  cases hn : p.node? n with
  | none => rfl
  | some m => simp [hasNode_iff.mpr ⟨m, hn⟩] at h

theorem instrsAt_eq_nil (h : p.hasNode n = false) : p.instrsAt n = [] := by
  simp [instrsAt, node?_of_hasNode_eq_false h]

theorem successors_eq_nil (h : p.hasNode n = false) : p.successors n = [] := by
  simp [successors, node?_of_hasNode_eq_false h]

theorem instrsAt_addInstr (hid : p.hasNode id = true) (i : Instr) :
    (p.modifyNode id (·.addInstr i)).instrsAt n =
      if n = id then p.instrsAt n ++ [i] else p.instrsAt n := by
  obtain ⟨m, hm⟩ := hasNode_iff.mp hid
  unfold instrsAt
  rw [node?_modifyNode (·.addInstr i) fun _ => rfl]
  split
  · rename_i heq
    simp [heq, hm, Node.addInstr]
  · simp

theorem hasNode_addInstr (i : Instr) :
    (p.modifyNode id (·.addInstr i)).hasNode n = p.hasNode n :=
  hasNode_modifyNode (·.addInstr i) fun _ => rfl

theorem successors_addInstr (i : Instr) :
    (p.modifyNode id (·.addInstr i)).successors n = p.successors n := by
  unfold successors
  rw [map_node?_modifyNode (·.addInstr i) (fun _ => rfl) fun _ => rfl]

section Connect
variable {source target : Int}

theorem hasNode_connect : (p.connect source target).hasNode n = p.hasNode n := by
  unfold connect
  split
  · rw [hasNode_modifyNode (·.addPred source) fun _ => rfl,
      hasNode_modifyNode (·.addSucc target) fun _ => rfl]
  · rfl

theorem instrsAt_connect : (p.connect source target).instrsAt n = p.instrsAt n := by
  unfold connect instrsAt
  split
  · rw [map_node?_modifyNode (·.addPred source) (fun _ => rfl) fun _ => rfl,
      map_node?_modifyNode (·.addSucc target) (fun _ => rfl) fun _ => rfl]
  · rfl

theorem successors_connect (hsource : p.hasNode source = true) (htarget : p.hasNode target = true) :
    (p.connect source target).successors n =
      if n = source then insertNew (p.successors n) target else p.successors n := by
  obtain ⟨m, hm⟩ := hasNode_iff.mp hsource
  unfold connect successors
  rw [hsource, htarget, Bool.and_self, if_pos rfl,
    map_node?_modifyNode (·.addPred source) (fun _ => rfl) fun _ => rfl,
    node?_modifyNode (·.addSucc target) fun _ => rfl]
  split
  · rename_i heq
    simp [heq, hm, Node.addSucc]
  · simp

theorem successors_connect_of_ne (hne : n ≠ source) :
    (p.connect source target).successors n = p.successors n := by
  unfold connect
  split
  · unfold successors
    rw [map_node?_modifyNode (·.addPred source) (fun _ => rfl) fun _ => rfl,
      node?_modifyNode (·.addSucc target) fun _ => rfl]
    simp [hne]
  · rfl

end Connect

end Procedure

namespace Lowering.State

/-! ### States -/

abbrev code (s : State) (n : Int) : List Instr := s.proc.instrsAt n

abbrev succs (s : State) (n : Int) : List Int := s.proc.successors n

/-- The name of the next node. -/
abbrev size (s : State) : Int := s.proc.nextId

/-- What a graph is called and where it starts. -/
abbrev header (s : State) : String × Int := (s.proc.name, s.proc.entry)

/-- The nodes are numbered from zero on, without gaps. -/
structure Sized (s : State) : Prop where
  nodes : ∀ n, s.proc.hasNode n = true ↔ 0 ≤ n ∧ n < s.size
  nonneg : 0 ≤ s.size
  exits : ∀ n ∈ s.exits, 0 ≤ n ∧ n < s.size

/-- The current node exists, and nothing leads away from it yet. -/
structure Good (s : State) : Prop extends Sized s where
  current : ∀ c, s.current = some c → 0 ≤ c ∧ c < s.size ∧ s.succs c = [] ∧ c ∉ s.exits

/-- From `s` to `t` a node stays as it is, and it is not the current one in the end. -/
structure Fixed (s t : State) (n : Int) : Prop where
  code : t.code n = s.code n
  succs : t.succs n = s.succs n
  exits : n ∈ t.exits ↔ n ∈ s.exits
  current : t.current ≠ some n

/-- Only the current node and new nodes change from `s` to `t`. -/
structure Grows (s t : State) : Prop where
  good : Good t
  size : s.size ≤ t.size
  fixed : ∀ n, n < s.size → s.current ≠ some n → Fixed s t n
  code : ∀ c, s.current = some c → s.code c <+: t.code c
  header : t.header = s.header

/-- A node that was made, but that nothing has been done to. -/
structure Untouched (s : State) (n : Int) : Prop where
  nonneg : 0 ≤ n
  lt : n < s.size
  code : s.code n = []
  succs : s.succs n = []
  exits : n ∉ s.exits
  current : s.current ≠ some n

variable {s t u : State} {n : Int}

theorem Fixed.trans (h : Fixed s t n) (h' : Fixed t u n) : Fixed s u n :=
  ⟨h'.code.trans h.code, h'.succs.trans h.succs, h'.exits.trans h.exits, h'.current⟩

theorem Grows.trans (hs : Good s) (h : Grows s t) (h' : Grows t u) : Grows s u := by
  refine ⟨h'.good, Int.le_trans h.size h'.size, ?_, ?_, h'.header.trans h.header⟩
  · intro n hn hcurrent
    have hfixed := h.fixed n hn hcurrent
    exact hfixed.trans (h'.fixed n (Int.lt_of_lt_of_le hn h.size) hfixed.current)
  · intro c hc
    by_cases hct : t.current = some c
    · exact (h.code c hc).trans (h'.code c hct)
    · have hlt := Int.lt_of_lt_of_le (hs.current c hc).2.1 h.size
      rw [(h'.fixed c hlt hct).code]
      exact h.code c hc

theorem Untouched.of_fixed (hn : Untouched s n) (h : Fixed s t n) (hsize : s.size ≤ t.size) :
    Untouched t n :=
  ⟨hn.nonneg, Int.lt_of_lt_of_le hn.lt hsize, h.code.trans hn.code, h.succs.trans hn.succs,
    fun hx => hn.exits (h.exits.mp hx), h.current⟩

theorem Grows.untouched (h : Grows s t) (hn : Untouched s n) : Untouched t n :=
  hn.of_fixed (h.fixed n hn.lt hn.current) h.size

theorem Sized.not_hasNode (h : Sized s) (hn : s.size ≤ n) : s.proc.hasNode n = false := by
  rw [Bool.eq_false_iff, ne_eq, h.nodes]
  omega

theorem Sized.code_new (h : Sized s) (hn : s.size ≤ n) : s.code n = [] :=
  Procedure.instrsAt_eq_nil (h.not_hasNode hn)

theorem Sized.succs_new (h : Sized s) (hn : s.size ≤ n) : s.succs n = [] :=
  Procedure.successors_eq_nil (h.not_hasNode hn)

theorem Sized.of_same (h : Sized s) (hnodes : ∀ n, t.proc.hasNode n = s.proc.hasNode n)
    (hsize : t.size = s.size) (hexits : t.exits = s.exits) : Sized t := by
  refine ⟨?_, ?_, ?_⟩
  · intro n
    rw [hnodes, hsize]
    exact h.nodes n
  · rw [hsize]
    exact h.nonneg
  · rw [hexits, hsize]
    exact h.exits

theorem Good.hasNode (h : Good s) {c : Int} (hc : s.current = some c) :
    s.proc.hasNode c = true := by
  obtain ⟨hnonneg, hlt, _⟩ := h.current c hc
  exact (h.nodes c).mpr ⟨hnonneg, hlt⟩

theorem Untouched.hasNode (h : Untouched s n) (hs : Good s) : s.proc.hasNode n = true :=
  (hs.nodes n).mpr ⟨h.nonneg, h.lt⟩

theorem Grows.hasNode (h : Grows s t) (hs : Good s) (hn : s.proc.hasNode n = true) :
    t.proc.hasNode n = true := by
  obtain ⟨hnonneg, hlt⟩ := (hs.nodes n).mp hn
  exact (h.good.nodes n).mpr ⟨hnonneg, Int.lt_of_lt_of_le hlt h.size⟩

/-! ### New nodes -/

section NewNode
variable (kind : NodeKind)

theorem newNode_eq (s : State) : s.newNode kind = (s.size, (s.newNode kind).2) := rfl

@[simp] theorem current_newNode (s : State) : (s.newNode kind).2.current = s.current := rfl

theorem nodes_newNode (h : Sized s) :
    (s.newNode kind).2.proc.nodes = s.proc.nodes ++ [{ id := s.size, kind := kind }] := by
  have hnew : s.proc.nodes.any (·.id == s.size) = false := h.not_hasNode (Int.le_refl _)
  simp [newNode, Procedure.addNode, Procedure.freshNode, Procedure.hasNode, hnew]

theorem size_newNode (s : State) : (s.newNode kind).2.size = s.size + 1 := by
  have hsize : (s.newNode kind).2.size =
      if s.size + 1 ≤ s.size then s.size + 1 else s.size + 1 := rfl
  rw [hsize, ite_self]

theorem node?_newNode (h : Sized s) : (s.newNode kind).2.proc.node? n =
    (s.proc.node? n).or (if n = s.size then some { id := s.size, kind := kind } else none) := by
  rw [Procedure.node?, nodes_newNode kind h, List.find?_append]
  by_cases hn : n = s.size
  · simp [Procedure.node?, hn]
  · have hne : (s.size == n) = false := by simpa using fun h => hn h.symm
    simp [Procedure.node?, hne, hn]

/-- A new node is empty, as the place was before. -/
theorem code_newNode (h : Sized s) : (s.newNode kind).2.code n = s.code n := by
  unfold code Procedure.instrsAt
  rw [node?_newNode kind h]
  by_cases hn : n = s.size
  · have hnone := Procedure.node?_of_hasNode_eq_false (h.not_hasNode (Int.le_of_eq hn.symm))
    simp [hn, hn ▸ hnone]
  · simp [hn]

theorem succs_newNode (h : Sized s) : (s.newNode kind).2.succs n = s.succs n := by
  unfold succs Procedure.successors
  rw [node?_newNode kind h]
  by_cases hn : n = s.size
  · have hnone := Procedure.node?_of_hasNode_eq_false (h.not_hasNode (Int.le_of_eq hn.symm))
    simp [hn, hn ▸ hnone]
  · simp [hn]

theorem Sized.newNode (h : Sized s) : Sized (s.newNode kind).2 := by
  refine ⟨?_, ?_, ?_⟩
  · intro n
    have hnonneg := h.nonneg
    rw [Procedure.hasNode, nodes_newNode kind h, List.any_append, Bool.or_eq_true, size_newNode]
    have hold := h.nodes n
    rw [Procedure.hasNode] at hold
    rw [hold]
    simp only [List.any_cons, List.any_nil, Bool.or_false, beq_iff_eq]
    omega
  · have hnonneg := h.nonneg
    rw [size_newNode]
    omega
  · intro n hn
    have hlt := h.exits n hn
    rw [size_newNode]
    omega

theorem Good.newNode (h : Good s) : Good (s.newNode kind).2 := by
  refine ⟨h.toSized.newNode kind, ?_⟩
  intro c hc
  obtain ⟨hnonneg, hlt, hsuccs, hexits⟩ := h.current c hc
  rw [size_newNode, succs_newNode kind h.toSized]
  exact ⟨hnonneg, by omega, hsuccs, hexits⟩

theorem grows_newNode (h : Good s) : Grows s (s.newNode kind).2 := by
  refine ⟨h.newNode kind, ?_, ?_, ?_, rfl⟩
  · rw [size_newNode]
    omega
  · intro n _ hcurrent
    exact ⟨code_newNode kind h.toSized, succs_newNode kind h.toSized, Iff.rfl, hcurrent⟩
  · intro c _
    simp only [code_newNode kind h.toSized, List.prefix_rfl]

theorem untouched_newNode (h : Good s) : Untouched (s.newNode kind).2 s.size := by
  refine ⟨h.nonneg, ?_, ?_, ?_, ?_, ?_⟩
  · rw [size_newNode]
    omega
  · rw [code_newNode kind h.toSized, h.code_new (Int.le_refl _)]
  · rw [succs_newNode kind h.toSized, h.succs_new (Int.le_refl _)]
  · intro hx
    have := h.exits _ hx
    omega
  · intro hc
    have := (h.current _ hc).2.1
    omega

end NewNode

/-! ### Instructions -/

/-- Emits one instruction after the other. -/
def emitAll (s : State) (is : List Instr) : State := is.foldl (fun s i => s.emit i.loc i.action) s

theorem emitAll_cons (s : State) (i : Instr) (is : List Instr) :
    s.emitAll (i :: is) = (s.emit i.loc i.action).emitAll is := rfl

theorem emitAll_append (s : State) (is js : List Instr) :
    s.emitAll (is ++ js) = (s.emitAll is).emitAll js := List.foldl_append

theorem emit_eq_emitAll (s : State) (loc : Location) (action : Action) :
    s.emit loc action = s.emitAll [⟨loc, action⟩] := rfl

section Emit
variable (is : List Instr)

theorem current_emit (s : State) (loc : Location) (a : Action) :
    (s.emit loc a).current = s.current := by
  unfold emit
  split <;> rfl

theorem emitAll_keeps {α : Type} {f : State → α} (hf : ∀ s loc a, f (emit s loc a) = f s)
    (s : State) : f (s.emitAll is) = f s := by
  induction is generalizing s with
  | nil => rfl
  | cons i is ih => rw [emitAll_cons, ih, hf]

@[simp] theorem current_emitAll (s : State) : (s.emitAll is).current = s.current :=
  emitAll_keeps is current_emit s

@[simp] theorem exits_emitAll (s : State) : (s.emitAll is).exits = s.exits := by
  apply emitAll_keeps
  intro s loc a
  unfold emit
  split <;> rfl

@[simp] theorem temps_emitAll (s : State) : (s.emitAll is).temps = s.temps := by
  apply emitAll_keeps
  intro s loc a
  unfold emit
  split <;> rfl

@[simp] theorem size_emitAll (s : State) : (s.emitAll is).size = s.size := by
  apply emitAll_keeps
  intro s loc a
  unfold emit
  split <;> rfl

theorem header_emitAll (s : State) : (s.emitAll is).header = s.header := by
  apply emitAll_keeps
  intro s loc a
  unfold emit
  split <;> rfl

theorem hasNode_emitAll (s : State) : (s.emitAll is).proc.hasNode n = s.proc.hasNode n := by
  refine emitAll_keeps (f := fun s => s.proc.hasNode n) is ?_ s
  intro s loc a
  unfold emit
  split
  · exact Procedure.hasNode_addInstr _
  · rfl

theorem succs_emitAll (s : State) : (s.emitAll is).succs n = s.succs n := by
  refine emitAll_keeps (f := fun s => s.succs n) is ?_ s
  intro s loc a
  unfold emit
  split
  · exact Procedure.successors_addInstr _
  · rfl

theorem emitAll_of_none (h : s.current = none) : s.emitAll is = s := by
  induction is with
  | nil => rfl
  | cons i is ih =>
    rw [emitAll_cons, emit, h]
    exact ih

theorem code_emitAll {c : Int} (hc : s.current = some c) (hnode : s.proc.hasNode c = true) :
    (s.emitAll is).code n = if n = c then s.code n ++ is else s.code n := by
  induction is generalizing s with
  | nil => simp [emitAll]
  | cons i is ih =>
    have hnode' : (s.emitAll [i]).proc.hasNode c = true := by rw [hasNode_emitAll, hnode]
    have hcode : (s.emitAll [i]).code n = if n = c then s.code n ++ [i] else s.code n := by
      have hemit : s.emitAll [i] = s.emitAt c i := by
        rw [emitAll_cons, emit, hc]
        rfl
      rw [hemit]
      exact Procedure.instrsAt_addInstr hnode i
    rw [emitAll_cons, emit_eq_emitAll, ih ((current_emitAll _ s).trans hc) hnode', hcode]
    split
    · rw [List.append_assoc, List.singleton_append]
    · rfl

theorem Good.emitAll (h : Good s) : Good (s.emitAll is) := by
  refine ⟨h.of_same (fun _ => hasNode_emitAll is s) (size_emitAll is s) (exits_emitAll is s), ?_⟩
  intro c hc
  rw [size_emitAll, succs_emitAll, exits_emitAll]
  exact h.current c (current_emitAll is s ▸ hc)

theorem grows_emitAll (h : Good s) : Grows s (s.emitAll is) := by
  refine ⟨h.emitAll is, Int.le_of_eq (size_emitAll is s).symm, ?_, ?_, header_emitAll is s⟩
  · intro n _ hcurrent
    refine ⟨?_, succs_emitAll is s, by rw [exits_emitAll], by rw [current_emitAll]; exact hcurrent⟩
    cases hc : s.current with
    | none => rw [emitAll_of_none is hc]
    | some c =>
      rw [code_emitAll is hc (h.hasNode hc), if_neg]
      rintro rfl
      exact hcurrent hc
  · intro c hc
    rw [code_emitAll is hc (h.hasNode hc), if_pos rfl]
    exact List.prefix_append _ _

end Emit

/-! ### Edges -/

theorem proc_moveTo (s : State) (next : Int) : (s.moveTo next).proc = s.proc := rfl

/-- The current path goes on to `target`, and `next` is current from now on. -/
def jump (s : State) (target next : Int) : State := (s.connectCurrent target).moveTo next

section Jump
variable {target next : Int}

theorem size_jump (s : State) (target next : Int) : (s.jump target next).size = s.size := by
  unfold jump connectCurrent connect
  cases s.current with
  | none => rfl
  | some c =>
    simp only [moveTo, size, Procedure.connect]
    split <;> rfl

theorem exits_jump (s : State) (target next : Int) : (s.jump target next).exits = s.exits := by
  unfold jump connectCurrent connect
  cases s.current <;> rfl

theorem temps_jump (s : State) (target next : Int) : (s.jump target next).temps = s.temps := by
  unfold jump connectCurrent connect
  cases s.current <;> rfl

theorem header_connect (p : Procedure) (a b : Int) :
    ((p.connect a b).name, (p.connect a b).entry) = (p.name, p.entry) := by
  unfold Procedure.connect
  split <;> rfl

theorem header_jump (s : State) (target next : Int) : (s.jump target next).header = s.header := by
  unfold jump connectCurrent connect
  cases s.current with
  | none => rfl
  | some c => exact header_connect s.proc c target

theorem code_jump (s : State) (target next n : Int) : (s.jump target next).code n = s.code n := by
  unfold jump connectCurrent connect
  cases s.current with
  | none => rfl
  | some c => exact Procedure.instrsAt_connect

theorem hasNode_jump (s : State) (target next n : Int) :
    (s.jump target next).proc.hasNode n = s.proc.hasNode n := by
  unfold jump connectCurrent connect
  cases s.current with
  | none => rfl
  | some c => exact Procedure.hasNode_connect

theorem succs_jump (h : Good s) (htarget : s.proc.hasNode target = true) (next n : Int) :
    (s.jump target next).succs n = if s.current = some n then [target] else s.succs n := by
  unfold jump connectCurrent connect
  cases hc : s.current with
  | none => rfl
  | some c =>
    have hsuccs := Procedure.successors_connect (n := n) (h.hasNode hc) htarget
    obtain ⟨_, _, hempty, _⟩ := h.current c hc
    refine hsuccs.trans ?_
    by_cases hn : n = c
    · subst hn
      rw [if_pos rfl, if_pos rfl]
      unfold succs at hempty
      rw [hempty]
      rfl
    · rw [if_neg hn, if_neg]
      exact fun heq => hn (Option.some.inj heq).symm

theorem fixed_jump (h : Good s) (htarget : s.proc.hasNode target = true) (hn : n ≠ next)
    (hcurrent : s.current ≠ some n) : Fixed s (s.jump target next) n := by
  refine ⟨code_jump s target next n, ?_, by rw [exits_jump], ?_⟩
  · rw [succs_jump h htarget, if_neg hcurrent]
  · exact fun heq => hn (Option.some.inj heq).symm

theorem Sized.jump (h : Sized s) (target next : Int) : Sized (s.jump target next) :=
  h.of_same (hasNode_jump s target next) (size_jump s target next) (exits_jump s target next)

theorem Good.jump (h : Good s) (htarget : s.proc.hasNode target = true)
    (hnext : Untouched s next) : Good (s.jump target next) := by
  refine ⟨h.toSized.jump target next, ?_⟩
  intro c hc
  obtain rfl : next = c := Option.some.inj hc
  rw [size_jump, exits_jump, succs_jump h htarget, if_neg hnext.current]
  exact ⟨hnext.nonneg, hnext.lt, hnext.succs, hnext.exits⟩

theorem Untouched.jump (hn : Untouched s n) (h : Good s) (htarget : s.proc.hasNode target = true)
    (hne : n ≠ next) : Untouched (s.jump target next) n :=
  hn.of_fixed (fixed_jump h htarget hne hn.current) (Int.le_of_eq (size_jump s target next).symm)

/-- A jump to a node that is itself new is part of the growth. -/
theorem Grows.jump (h : Grows s t) (htarget : t.proc.hasNode target = true)
    (hnext : Untouched t next) (hnew : s.size ≤ next) : Grows s (t.jump target next) := by
  refine ⟨h.good.jump htarget hnext, ?_, ?_, ?_, (header_jump t target next).trans h.header⟩
  · rw [size_jump]
    exact h.size
  · intro n hn hcurrent
    have hfixed := h.fixed n hn hcurrent
    exact hfixed.trans (fixed_jump h.good htarget (by omega) hfixed.current)
  · intro c hc
    rw [code_jump]
    exact h.code c hc

theorem Good.stop (h : Sized s) : Good s.stop :=
  ⟨⟨h.nodes, h.nonneg, h.exits⟩, fun _ hc => nomatch hc⟩

/-- The current path goes on to `target`, and what follows cannot be reached. -/
theorem grows_stop_jump (h : Good s) (htarget : s.proc.hasNode target = true) :
    Grows s (s.jump target next).stop := by
  refine ⟨.stop (h.toSized.jump target next), Int.le_of_eq (size_jump s target next).symm, ?_, ?_,
    header_jump s target next⟩
  · intro n _ hcurrent
    refine ⟨code_jump s target next n, ?_, iff_of_eq (congrArg _ (exits_jump s target next)), ?_⟩
    · exact (succs_jump h htarget next n).trans (if_neg hcurrent)
    · exact fun hc => nomatch hc
  · intro c _
    have hcode : s.code c <+: (s.jump target next).code c := by
      simp only [code_jump, List.prefix_rfl]
    exact hcode

theorem grows_stop (h : Good s) : Grows s s.stop :=
  ⟨.stop h.toSized, Int.le_refl _, fun _ _ _ => ⟨rfl, rfl, Iff.rfl, fun hc => nomatch hc⟩,
    fun _ _ => List.prefix_rfl, rfl⟩

theorem mem_exits_leave : n ∈ s.leave.exits ↔ n ∈ s.exits ∨ s.current = some n := by
  simp [leave]

theorem grows_leave (h : Good s) : Grows s s.leave := by
  refine ⟨⟨⟨h.nodes, h.nonneg, ?_⟩, fun _ hc => nomatch hc⟩, Int.le_refl _, ?_,
    fun _ _ => List.prefix_rfl, rfl⟩
  · intro n hn
    rcases mem_exits_leave.mp hn with hn | hn
    · exact h.exits n hn
    · obtain ⟨hnonneg, hlt, _⟩ := h.current n hn
      exact ⟨hnonneg, hlt⟩
  · intro n _ hcurrent
    refine ⟨rfl, rfl, ?_, fun hc => nomatch hc⟩
    rw [mem_exits_leave]
    exact or_iff_left hcurrent

end Jump

/-! ### Branches -/

/-- What a branch assumes, whichever way it goes. -/
def assumptions (loc : Location) (condition : Exp) (kinds : BranchKind × BranchKind) : List Instr :=
  [⟨loc, .assume_ condition true kinds.1⟩, ⟨loc, .assume_ condition false kinds.2⟩]

section Fork
variable {id yes no : Int} (loc : Location) (condition : Exp) (kinds : BranchKind × BranchKind)

theorem exits_fork (s : State) (source : Option Int) (yes no : Int) :
    (fork s source loc condition kinds yes no).exits = s.exits := by
  cases source <;> rfl

theorem temps_fork (s : State) (source : Option Int) (yes no : Int) :
    (fork s source loc condition kinds yes no).temps = s.temps := by
  cases source <;> rfl

theorem size_connect (p : Procedure) (a b : Int) : (p.connect a b).nextId = p.nextId := by
  unfold Procedure.connect
  split <;> rfl

theorem size_fork (s : State) (source : Option Int) (yes no : Int) :
    (fork s source loc condition kinds yes no).size = s.size := by
  cases source with
  | none => rfl
  | some id => simp [fork, connect, emitAt, size, size_connect, Procedure.modifyNode]

theorem header_fork (s : State) (source : Option Int) (yes no : Int) :
    (fork s source loc condition kinds yes no).header = s.header := by
  cases source with
  | none => rfl
  | some id => exact (header_connect _ id no).trans (header_connect _ id yes)

theorem hasNode_fork (s : State) (source : Option Int) (yes no : Int) :
    (fork s source loc condition kinds yes no).proc.hasNode n = s.proc.hasNode n := by
  cases source with
  | none => rfl
  | some id =>
    simp only [fork, connect, emitAt]
    rw [Procedure.hasNode_connect, Procedure.hasNode_addInstr, Procedure.hasNode_connect,
      Procedure.hasNode_addInstr]

theorem code_fork (hid : s.proc.hasNode id = true) :
    (fork s (some id) loc condition kinds yes no).code n =
      if n = id then s.code n ++ assumptions loc condition kinds else s.code n := by
  have hid' : ((s.proc.modifyNode id (·.addInstr ⟨loc, .assume_ condition true kinds.1⟩)).connect
      id yes).hasNode id = true := by
    rw [Procedure.hasNode_connect, Procedure.hasNode_addInstr, hid]
  simp only [fork, connect, emitAt, code]
  rw [Procedure.instrsAt_connect, Procedure.instrsAt_addInstr hid', Procedure.instrsAt_connect,
    Procedure.instrsAt_addInstr hid]
  split
  · rw [List.append_assoc]
    rfl
  · rfl

theorem mem_succs_fork (hid : s.proc.hasNode id = true) (hyes : s.proc.hasNode yes = true)
    (hno : s.proc.hasNode no = true) {m : Int} :
    m ∈ (fork s (some id) loc condition kinds yes no).succs n ↔
      m ∈ s.succs n ∨ n = id ∧ (m = yes ∨ m = no) := by
  simp only [fork, connect, emitAt, succs]
  rw [Procedure.successors_connect, Procedure.successors_addInstr, Procedure.successors_connect,
    Procedure.successors_addInstr]
  · split
    · rename_i heq
      simp [mem_insertNew, heq, or_assoc]
    · rename_i hne
      simp [hne]
  · rw [Procedure.hasNode_addInstr, hid]
  · rw [Procedure.hasNode_addInstr, hyes]
  · rw [Procedure.hasNode_addInstr, Procedure.hasNode_connect, Procedure.hasNode_addInstr, hid]
  · rw [Procedure.hasNode_addInstr, Procedure.hasNode_connect, Procedure.hasNode_addInstr, hno]

theorem succs_fork_of_ne (hne : n ≠ id) :
    (fork s (some id) loc condition kinds yes no).succs n = s.succs n := by
  simp only [fork, connect, emitAt, succs]
  rw [Procedure.successors_connect_of_ne hne, Procedure.successors_addInstr,
    Procedure.successors_connect_of_ne hne, Procedure.successors_addInstr]

end Fork

/-- The current path goes on to `yes` or to `no`, and `yes` is current from now on. -/
def branch (s : State) (loc : Location) (condition : Exp) (kinds : BranchKind × BranchKind)
    (yes no : Int) : State := (fork s s.current loc condition kinds yes no).moveTo yes

section Branch
variable {yes no : Int} {loc : Location} {condition : Exp} {kinds : BranchKind × BranchKind}

theorem size_branch (s : State) (yes no : Int) :
    (s.branch loc condition kinds yes no).size = s.size := size_fork loc condition kinds s _ yes no

theorem exits_branch (s : State) (yes no : Int) :
    (s.branch loc condition kinds yes no).exits = s.exits :=
  exits_fork loc condition kinds s _ yes no

theorem temps_branch (s : State) (yes no : Int) :
    (s.branch loc condition kinds yes no).temps = s.temps :=
  temps_fork loc condition kinds s _ yes no

theorem header_branch (s : State) (yes no : Int) :
    (s.branch loc condition kinds yes no).header = s.header :=
  header_fork loc condition kinds s _ yes no

theorem hasNode_branch (s : State) (yes no : Int) :
    (s.branch loc condition kinds yes no).proc.hasNode n = s.proc.hasNode n :=
  hasNode_fork loc condition kinds s _ yes no

theorem code_branch (h : Good s) : (s.branch loc condition kinds yes no).code n =
    if s.current = some n then s.code n ++ assumptions loc condition kinds else s.code n := by
  unfold branch
  cases hc : s.current with
  | none => rfl
  | some c =>
    refine (code_fork loc condition kinds (h.hasNode hc)).trans ?_
    simp [eq_comm]

theorem mem_succs_branch (h : Good s) (hyes : Untouched s yes) (hno : Untouched s no) {m : Int} :
    m ∈ (s.branch loc condition kinds yes no).succs n ↔
      m ∈ s.succs n ∨ s.current = some n ∧ (m = yes ∨ m = no) := by
  unfold branch
  cases hc : s.current with
  | none => simp [fork, moveTo]
  | some c =>
    refine (mem_succs_fork loc condition kinds (h.hasNode hc) (hyes.hasNode h)
      (hno.hasNode h)).trans ?_
    simp [eq_comm]

theorem succs_branch_of_ne (hcurrent : s.current ≠ some n) :
    (s.branch loc condition kinds yes no).succs n = s.succs n := by
  unfold branch
  rw [succs, proc_moveTo]
  cases hc : s.current with
  | none => rfl
  | some c =>
    have hne : n ≠ c := fun heq => hcurrent (heq ▸ hc)
    rw [← succs, succs_fork_of_ne loc condition kinds hne]

theorem fixed_branch (h : Good s) (hn : n ≠ yes) (hcurrent : s.current ≠ some n) :
    Fixed s (s.branch loc condition kinds yes no) n := by
  refine ⟨?_, succs_branch_of_ne hcurrent, by rw [exits_branch], ?_⟩
  · rw [code_branch h, if_neg hcurrent]
  · exact fun heq => hn (Option.some.inj heq).symm

theorem Good.branch (h : Good s) (hyes : Untouched s yes) :
    Good (s.branch loc condition kinds yes no) := by
  refine ⟨h.of_same (fun _ => hasNode_branch s yes no) (size_branch s yes no)
    (exits_branch s yes no), ?_⟩
  intro c hc
  obtain rfl : yes = c := Option.some.inj hc
  rw [size_branch, exits_branch]
  exact ⟨hyes.nonneg, hyes.lt, (succs_branch_of_ne hyes.current).trans hyes.succs, hyes.exits⟩

theorem Grows.branch (h : Grows s t) (hyes : Untouched t yes) (hnew : s.size ≤ yes) :
    Grows s (t.branch loc condition kinds yes no) := by
  refine ⟨h.good.branch hyes, ?_, ?_, ?_, (header_branch t yes no).trans h.header⟩
  · rw [size_branch]
    exact h.size
  · intro n hn hcurrent
    have hfixed := h.fixed n hn hcurrent
    exact hfixed.trans (fixed_branch h.good (by omega) hfixed.current)
  · intro c hc
    rw [code_branch h.good]
    split
    · exact (h.code c hc).trans (List.prefix_append _ _)
    · exact h.code c hc

theorem Untouched.branch (hn : Untouched s n) (h : Good s) (hne : n ≠ yes) :
    Untouched (s.branch loc condition kinds yes no) n :=
  hn.of_fixed (fixed_branch h hne hn.current) (Int.le_of_eq (size_branch s yes no).symm)

end Branch

/-! ### Clauses and loops -/

/-- Two new nodes. -/
def spare (s : State) : State := ((s.newNode .normal).2.newNode .normal).2

theorem current_spare (s : State) : s.spare.current = s.current := rfl

theorem grows_spare (h : Good s) : Grows s s.spare :=
  (grows_newNode .normal h).trans h (grows_newNode .normal (h.newNode .normal))

theorem untouched_spare (h : Good s) : Untouched s.spare s.size :=
  (grows_newNode .normal (h.newNode .normal)).untouched (untouched_newNode .normal h)

theorem untouched_spare_succ (h : Good s) : Untouched s.spare (s.size + 1) :=
  size_newNode .normal s ▸ untouched_newNode .normal (h.newNode .normal)

/-- The current path branches to two new nodes. -/
def openClause (s : State) (loc : Location) (condition : Exp) : State :=
  s.spare.branch loc condition (.ifTrue, .ifFalse) s.size (s.size + 1)

theorem grows_openClause (h : Good s) (loc : Location) (condition : Exp) :
    Grows s (s.openClause loc condition) :=
  (grows_spare h).branch (untouched_spare h) (Int.le_refl _)

theorem code_spare (h : Good s) : s.spare.code n = s.code n := by
  rw [spare, code_newNode .normal (h.newNode .normal).toSized, code_newNode .normal h.toSized]

theorem code_openClause (h : Good s) (loc : Location) (condition : Exp) :
    (s.openClause loc condition).code s.size = [] := by
  rw [openClause, code_branch (grows_spare h).good, if_neg (untouched_spare h).current]
  exact (untouched_spare h).code

theorem temps_openClause (s : State) (loc : Location) (condition : Exp) :
    (s.openClause loc condition).temps = s.temps := temps_branch s.spare s.size (s.size + 1)

theorem untouched_openClause (h : Good s) (loc : Location) (condition : Exp) :
    Untouched (s.openClause loc condition) (s.size + 1) := by
  apply (untouched_spare_succ h).branch (grows_spare h).good
  omega

/-- The head of a new loop is current; nodes for the body and for what comes after are there. -/
def openHead (s : State) : State := (s.newNode .loopHead).2.spare.jump s.size s.size

/-- The body of a new loop is current. -/
def openBody (s : State) (loc : Location) (condition : Exp) (kinds : BranchKind × BranchKind) :
    State :=
  s.openHead.branch loc condition kinds (s.size + 1) (s.size + 2)

theorem fork_connect (s : State) (loc : Location) (condition : Exp)
    (kinds : BranchKind × BranchKind) (target yes no : Int) :
    (fork (s.connect s.current target) (some target) loc condition kinds yes no).moveTo yes =
      (s.jump target target).branch loc condition kinds yes no := rfl

theorem openLoop_eq (loc : Location) (condition : Exp) (kinds : BranchKind × BranchKind)
    (s : State) : openLoop loc condition kinds s =
      (⟨s.size, s.size + 2⟩, s.openBody loc condition kinds) := by
  have hbody := size_newNode .loopHead s
  have hafter := size_newNode .normal (s.newNode .loopHead).2
  rw [hbody, Int.add_assoc] at hafter
  unfold openLoop openBody openHead
  rw [newNode_eq .loopHead s]
  dsimp only
  rw [newNode_eq .normal (s.newNode .loopHead).2]
  dsimp only
  rw [newNode_eq .normal ((s.newNode .loopHead).2.newNode .normal).2, hbody, hafter]
  exact congrArg (Prod.mk _) (fork_connect (s.newNode .loopHead).2.spare _ _ _ _ _ _)

theorem temps_openBody (s : State) (loc : Location) (condition : Exp)
    (kinds : BranchKind × BranchKind) : (s.openBody loc condition kinds).temps = s.temps :=
  (temps_branch s.openHead (s.size + 1) (s.size + 2)).trans
    (temps_jump (s.newNode .loopHead).2.spare s.size s.size)

section OpenLoop
variable (h : Good s)
include h

theorem grows_headNodes : Grows s (s.newNode .loopHead).2.spare :=
  (grows_newNode .loopHead h).trans h (grows_spare (h.newNode .loopHead))

theorem untouched_head : Untouched (s.newNode .loopHead).2.spare s.size :=
  (grows_spare (h.newNode .loopHead)).untouched (untouched_newNode .loopHead h)

theorem code_headNodes : (s.newNode .loopHead).2.spare.code n = s.code n :=
  (code_spare (h.newNode .loopHead)).trans (code_newNode .loopHead h.toSized)

theorem hasNode_head : (s.newNode .loopHead).2.spare.proc.hasNode s.size = true :=
  (untouched_head h).hasNode (grows_headNodes h).good

theorem grows_openHead : Grows s s.openHead :=
  (grows_headNodes h).jump (hasNode_head h) (untouched_head h) (Int.le_refl _)

theorem code_openHead : s.openHead.code s.size = [] :=
  (code_jump _ s.size s.size s.size).trans (untouched_head h).code

theorem untouched_openHead_body : Untouched s.openHead (s.size + 1) := by
  have hbody := untouched_spare (h.newNode .loopHead)
  rw [size_newNode] at hbody
  exact hbody.jump (grows_headNodes h).good (hasNode_head h) (by omega)

theorem untouched_openHead_after : Untouched s.openHead (s.size + 2) := by
  have hafter := untouched_spare_succ (h.newNode .loopHead)
  rw [size_newNode, Int.add_assoc] at hafter
  exact hafter.jump (grows_headNodes h).good (hasNode_head h) (by omega)

variable (loc : Location) (condition : Exp) (kinds : BranchKind × BranchKind)

theorem grows_openBody : Grows s (s.openBody loc condition kinds) :=
  (grows_openHead h).branch (untouched_openHead_body h) (by omega)

theorem code_openBody : (s.openBody loc condition kinds).code (s.size + 1) = [] := by
  have hbody := untouched_openHead_body h
  rw [openBody, code_branch (grows_openHead h).good, if_neg hbody.current]
  exact hbody.code

theorem untouched_openBody : Untouched (s.openBody loc condition kinds) (s.size + 2) :=
  (untouched_openHead_after h).branch (grows_openHead h).good (by omega)

end OpenLoop

end Lowering.State

end ActorOwnership
