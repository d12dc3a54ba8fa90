import ActorOwnership.Program.OfSource
import ActorOwnership.Proofs.Reaching
import ActorOwnership.Proofs.Regular
import ActorOwnership.Proofs.Simultaneous
import ActorOwnership.Proofs.Variables

/-! Temporaries are assigned once and defined before use. Lowering numbers them over the whole
program, so two parts of a program never share one; a part sets the temporaries that it makes, and
reads them before it leaves the node. -/

namespace ActorOwnership
set_option autoImplicit false

/-! ### Numbers -/

/-- Every number from `n` up to `m` is given away once at most, and no other number is. -/
structure Numbered {ι : Type} (R : ι → Nat → Prop) (n m : Nat) : Prop where
  le : n ≤ m
  range : ∀ a k, R a k → n ≤ k ∧ k < m
  once : ∀ a b k, R a k → R b k → a = b

namespace Numbered
variable {ι κ : Type} {R S T : ι → Nat → Prop} {n m l : Nat}

theorem empty (h : ∀ a k, ¬ R a k) : Numbered R n n :=
  ⟨Nat.le_refl n, fun a k hR => absurd hR (h a k), fun a _ k hR => absurd hR (h a k)⟩

theorem trans (hR : Numbered R n m) (hS : Numbered S m l) (hT : ∀ a k, T a k → R a k ∨ S a k) :
    Numbered T n l := by
  have hle := hR.le
  have hle' := hS.le
  refine ⟨Nat.le_trans hle hle', ?_, ?_⟩
  · intro a k ha
    rcases hT a k ha with ha | ha
    · have := hR.range a k ha
      omega
    · have := hS.range a k ha
      omega
  · intro a b k ha hb
    rcases hT a k ha with ha | ha <;> rcases hT b k hb with hb | hb
    · exact hR.once a b k ha hb
    · have := hR.range a k ha
      have := hS.range b k hb
      omega
    · have := hS.range a k ha
      have := hR.range b k hb
      omega
    · exact hS.once a b k ha hb

/-- The first number goes to `c`. -/
theorem reserve (hS : Numbered S (n + 1) m) (c : ι) (hT : ∀ a k, T a k → S a k ∨ a = c ∧ k = n) :
    Numbered T n m := by
  have hfirst : Numbered (fun a k => a = c ∧ k = n) n (n + 1) := by
    refine ⟨Nat.le_succ n, ?_, ?_⟩
    · rintro a k ⟨-, rfl⟩
      omega
    · rintro a b k ⟨rfl, -⟩ ⟨rfl, -⟩
      rfl
  exact hfirst.trans hS fun a k ha => (hT a k ha).symm

theorem map {S : κ → Nat → Prop} (hR : Numbered R n m) (f : ι → κ)
    (hS : ∀ b k, S b k → ∃ a, R a k ∧ f a = b) : Numbered S n m := by
  refine ⟨hR.le, ?_, ?_⟩
  · intro b k hb
    obtain ⟨a, ha, -⟩ := hS b k hb
    exact hR.range a k ha
  · intro b b' k hb hb'
    obtain ⟨a, ha, rfl⟩ := hS b k hb
    obtain ⟨a', ha', rfl⟩ := hS b' k hb'
    rw [hR.once a a' k ha ha']

end Numbered

namespace Lowering
open Surface State

/-! ### Code -/

/-- No temporary is among the names. -/
def Free (names : List String) : Prop := ∀ k, tempName k ∉ names

@[simp] theorem free_nil : Free [] := fun _ => List.not_mem_nil

@[simp] theorem free_append {xs ys : List String} : Free (xs ++ ys) ↔ Free xs ∧ Free ys := by
  simp [Free, forall_and]

theorem free_flatMap {α : Type} {xs : List α} {f : α → List String} :
    Free (xs.flatMap f) ↔ ∀ x ∈ xs, Free (f x) := by
  simp only [Free, List.mem_flatMap, not_exists, not_and]
  exact ⟨fun h x hx k => h k x hx, fun h k x hx => h x hx k⟩

theorem tempName_ne_empty (k : Nat) : tempName k ≠ "" := by
  intro h
  have hlist := congrArg String.toList h
  rw [tempName, String.toList_append] at hlist
  cases hlist

/-- A temporary is set before it is read, and no value is changed in place through one. -/
structure Sound (is : List Instr) : Prop where
  earlier : ∀ (j : Nat) (i : Instr) (k : Nat), is[j]? = some i → tempName k ∈ i.action.vars →
    ∃ l < j, ∃ i', is[l]? = some i' ∧ i'.action.sets? = some (tempName k)
  bases : ∀ i ∈ is, Free i.action.bases

theorem Sound.nil : Sound [] := by
  constructor
  · intro j i k hj
    simp at hj
  · simp

theorem Sound.concat {is : List Instr} (h : Sound is) {i : Instr} (hbases : Free i.action.bases)
    (hvars : ∀ k, tempName k ∈ i.action.vars →
      ∃ i' ∈ is, i'.action.sets? = some (tempName k)) : Sound (is ++ [i]) := by
  refine ⟨?_, List.forall_mem_append.mpr ⟨h.bases, List.forall_mem_singleton.mpr hbases⟩⟩
  intro j i' k hj hk
  have hearlier : ∃ l < j, ∃ i', is[l]? = some i' ∧ i'.action.sets? = some (tempName k) := by
    by_cases hlt : j < is.length
    · rw [List.getElem?_append_left hlt] at hj
      exact h.earlier j i' k hj hk
    · rw [List.getElem?_append_right (Nat.le_of_not_lt hlt)] at hj
      obtain rfl : i' = i := by simpa using List.mem_of_getElem? hj
      obtain ⟨i', hi', hset⟩ := hvars k hk
      obtain ⟨l, hl⟩ := List.mem_iff_getElem?.mp hi'
      have hlt' := (List.getElem?_eq_some_iff.mp hl).1
      exact ⟨l, by omega, i', hl, hset⟩
  obtain ⟨l, hlt, i', hl, hset⟩ := hearlier
  have hlen := (List.getElem?_eq_some_iff.mp hl).1
  exact ⟨l, hlt, i', by rw [List.getElem?_append_left hlen, hl], hset⟩

/-! ### States -/

/-- A place for an instruction: in a finished procedure, or in the graph under construction. -/
inductive Site where
  | finished (t : StatementId)
  | ahead (n : Int) (j : Nat)

namespace State
variable {s t u : State} {xs ys : List String} {a : Action} {loc : Location}

def Holds (s : State) : Site → Instr → Prop
  | .finished t, i => ∃ p ∈ s.program.procedures, p.instrAt? t = some i
  | .ahead n j, i => (s.code n)[j]? = some i

/-- The instruction at the site sets the temporary. -/
def Sets (s : State) (site : Site) (k : Nat) : Prop :=
  ∃ i, s.Holds site i ∧ i.action.sets? = some (tempName k)

/-- All code so far is sound, and no two procedures share a name. -/
structure Sound (s : State) : Prop where
  names : (s.program.procedures.map Procedure.name).Nodup
  program : ∀ p ∈ s.program.procedures, ∀ n, Lowering.Sound (p.instrsAt n)
  code : ∀ n, Lowering.Sound (s.code n)

/-- What happens from `s` to `t` sets temporaries that are made on the way, each once. -/
structure Tidy (s t : State) : Prop where
  numbered : Numbered (fun site k => t.Sets site k ∧ ¬ s.Sets site k) s.temps t.temps
  sound : s.Sound → t.Sound

theorem Tidy.trans (h : Tidy s t) (h' : Tidy t u) : Tidy s u := by
  refine ⟨h.numbered.trans h'.numbered ?_, h'.sound ∘ h.sound⟩
  rintro site k ⟨hu, hs⟩
  by_cases ht : t.Sets site k
  · exact Or.inl ⟨ht, hs⟩
  · exact Or.inr ⟨hu, ht⟩

/-- A step that emits nothing. -/
theorem Tidy.of_code (htemps : t.temps = s.temps) (hprogram : t.program = s.program)
    (hcode : ∀ n, t.code n = s.code n ∨ t.code n = []) : Tidy s t := by
  constructor
  · rw [htemps]
    apply Numbered.empty
    rintro (id | ⟨n, j⟩) k ⟨⟨i, hi, hset⟩, hs⟩
    · exact hs ⟨i, by rwa [Holds, ← hprogram], hset⟩
    · rcases hcode n with hn | hn
      · exact hs ⟨i, by rwa [Holds, ← hn], hset⟩
      · rw [Holds, hn] at hi
        cases hi
  · intro hs
    refine ⟨hprogram ▸ hs.names, hprogram ▸ hs.program, fun n => ?_⟩
    rcases hcode n with hn | hn
    · exact hn ▸ hs.code n
    · exact hn ▸ .nil

theorem Tidy.refl (s : State) : Tidy s s := .of_code rfl rfl fun _ => Or.inl rfl

/-! ### Emission -/

/-- In the current node the temporaries among the names are set. -/
def Covers (s : State) (names : List String) : Prop :=
  ∀ k, tempName k ∈ names → ∀ c, s.current = some c → s.proc.hasNode c = true →
    ∃ i ∈ s.code c, i.action.sets? = some (tempName k)

theorem Covers.of_free (h : Free xs) : s.Covers xs := fun k hk => absurd hk (h k)

theorem covers_append : s.Covers (xs ++ ys) ↔ s.Covers xs ∧ s.Covers ys := by
  simp [Covers, or_imp, forall_and]

theorem code_emit (s : State) (loc : Location) (a : Action) (n : Int) : (s.emit loc a).code n =
    if s.current = some n ∧ s.proc.hasNode n = true then s.code n ++ [⟨loc, a⟩] else s.code n := by
  cases hc : s.current with
  | none => simp [emit, hc]
  | some c =>
    by_cases hnode : s.proc.hasNode c = true
    · rw [emit_eq_emitAll, code_emitAll _ hc hnode]
      by_cases hn : n = c
      · simp [hn, hnode]
      · simp [hn, Ne.symm hn]
    · have hnone := Procedure.node?_of_hasNode_eq_false (Bool.eq_false_iff.mpr hnode)
      have hcode : (s.emit loc a).code n = s.code n := by
        simp only [emit, hc, emitAt, code, Procedure.instrsAt]
        rw [Procedure.node?_modifyNode (·.addInstr ⟨loc, a⟩) fun _ => rfl]
        by_cases hn : n = c
        · simp [hn, hnone]
        · simp [hn]
      rw [hcode, if_neg]
      rintro ⟨heq, hn⟩
      exact hnode (Option.some.inj heq ▸ hn)

theorem temps_emit (s : State) (loc : Location) (a : Action) : (s.emit loc a).temps = s.temps :=
  temps_emitAll [⟨loc, a⟩] s

theorem program_emit (s : State) (loc : Location) (a : Action) :
    (s.emit loc a).program = s.program := by
  unfold emit
  split <;> rfl

theorem Covers.emit (h : s.Covers xs) : (s.emit loc a).Covers xs := by
  intro k hk c hc hnode
  rw [current_emit] at hc
  rw [emit_eq_emitAll, hasNode_emitAll] at hnode
  obtain ⟨i, hi, hset⟩ := h k hk c hc hnode
  refine ⟨i, ?_, hset⟩
  rw [code_emit]
  split
  · exact List.mem_append_left _ hi
  · exact hi

theorem Covers.of_sets {x : String} (h : a.sets? = some x) : (s.emit loc a).Covers [x] := by
  intro k hk c hc hnode
  rw [current_emit] at hc
  rw [emit_eq_emitAll, hasNode_emitAll] at hnode
  obtain rfl := List.mem_singleton.mp hk
  refine ⟨⟨loc, a⟩, ?_, h⟩
  rw [code_emit, if_pos ⟨hc, hnode⟩]
  exact List.mem_append_right _ List.mem_cons_self

/-- What is set stays set as long as instructions are only added. -/
theorem Covers.emits {f : State → State} (hf : Emits f) (h : s.Covers xs) : (f s).Covers xs := by
  have hall : ∀ (is : List Instr) (s : State), s.Covers xs → (s.emitAll is).Covers xs := by
    intro is
    induction is with
    | nil => exact fun _ h => h
    | cons i is ih => exact fun s h => ih _ h.emit
  rw [hf s]
  exact hall _ s h

/-- Where the next instruction goes, if it is not dropped. -/
def nextSite (s : State) : Site := .ahead (s.current.getD 0) (s.code (s.current.getD 0)).length

theorem sets_emit {site : Site} {k : Nat} (h : (s.emit loc a).Sets site k) :
    s.Sets site k ∨ site = s.nextSite ∧ a.sets? = some (tempName k) := by
  obtain ⟨i, hi, hset⟩ := h
  cases site with
  | finished id =>
    rw [Holds, program_emit] at hi
    exact Or.inl ⟨i, hi, hset⟩
  | ahead n j =>
    rw [Holds, code_emit] at hi
    split at hi
    · rename_i hn
      by_cases hlt : j < (s.code n).length
      · rw [List.getElem?_append_left hlt] at hi
        exact Or.inl ⟨i, hi, hset⟩
      · have hj := (List.getElem?_eq_some_iff.mp hi).1
        rw [List.length_append, List.length_singleton] at hj
        obtain rfl : j = (s.code n).length := by omega
        rw [List.getElem?_concat_length] at hi
        obtain rfl := Option.some.inj hi
        exact Or.inr ⟨by rw [nextSite, hn.1, Option.getD_some], hset⟩
    · exact Or.inl ⟨i, hi, hset⟩

theorem Sound.emit (hs : s.Sound) (hvars : s.Covers a.vars) (hbases : Free a.bases) :
    (s.emit loc a).Sound := by
  refine ⟨program_emit s loc a ▸ hs.names, program_emit s loc a ▸ hs.program, fun n => ?_⟩
  rw [code_emit]
  split
  · rename_i hn
    exact (hs.code n).concat hbases fun k hk => hvars k hk n hn.1 hn.2
  · exact hs.code n

theorem Tidy.emit (h : Tidy s t) (hvars : t.Covers a.vars) (hbases : Free a.bases)
    (hset : Free a.sets?.toList) : Tidy s (t.emit loc a) := by
  refine ⟨?_, fun hs => (h.sound hs).emit hvars hbases⟩
  rw [temps_emit]
  refine h.numbered.map id ?_
  rintro site k ⟨ht, hs⟩
  refine ⟨site, ⟨?_, hs⟩, rfl⟩
  rcases sets_emit ht with ht | ⟨-, ha⟩
  · exact ht
  · exact absurd (Option.mem_toList.mpr ha) (hset k)

/-- The temporary that was made first is set last. -/
theorem Tidy.emit_newTemp (h : Tidy s.newTemp.2 t) (hvars : t.Covers a.vars)
    (hbases : Free a.bases) (hset : a.sets? = some s.newTemp.1) : Tidy s (t.emit loc a) := by
  -- making a temporary changes neither code nor program
  have hsound : s.Sound → s.newTemp.2.Sound := fun hs => ⟨hs.names, hs.program, hs.code⟩
  refine ⟨?_, fun hs => (h.sound (hsound hs)).emit hvars hbases⟩
  rw [temps_emit]
  refine h.numbered.reserve t.nextSite ?_
  rintro site k ⟨ht, hs⟩
  rcases sets_emit ht with ht | ⟨hsite, ha⟩
  · exact Or.inl ⟨ht, hs⟩
  · exact Or.inr ⟨hsite, tempName_injective (Option.some.inj (ha.symm.trans hset))⟩

/-- An action without temporaries. -/
theorem tidy_emit (hvars : Free a.vars) (hbases : Free a.bases) (hset : Free a.sets?.toList) :
    Tidy s (s.emit loc a) := (Tidy.refl s).emit (.of_free hvars) hbases hset

/-- One step after the other, where each keeps up what the next one needs. -/
theorem tidy_foldl {α : Type} {f : State → α → State} {Q : State → Prop} {as : List α}
    (hf : ∀ x ∈ as, ∀ s, Q s → Tidy s (f s x) ∧ Q (f s x)) (h : Q s) : Tidy s (as.foldl f s) := by
  induction as generalizing s with
  | nil => exact .refl s
  | cons x as ih =>
    obtain ⟨hx, hQ⟩ := hf x List.mem_cons_self s h
    exact hx.trans (ih (fun y hy => hf y (List.mem_cons_of_mem x hy)) hQ)

theorem tidy_each {α : Type} {f : State → α → State} {as : List α}
    (hf : ∀ x ∈ as, ∀ s, Tidy s (f s x)) : Tidy s (as.foldl f s) :=
  tidy_foldl (Q := fun _ => True) (fun x hx s _ => ⟨hf x hx s, trivial⟩) trivial

/-! ### Nodes and edges -/

/-- A new node is empty. A node whose number is given away again would be replaced. -/
theorem code_newNode_or (s : State) (kind : NodeKind) (n : Int) :
    (s.newNode kind).2.code n = s.code n ∨ (s.newNode kind).2.code n = [] := by
  have hcode : ∀ p : Procedure, (s.newNode kind).2.proc.nodes = p.nodes →
      (s.newNode kind).2.code n = p.instrsAt n := by
    intro p hp
    simp only [code, Procedure.instrsAt, Procedure.node?, hp]
  by_cases hnode : s.proc.hasNode s.size = true
  · have hnodes : (s.newNode kind).2.proc.nodes =
        (s.proc.modifyNode s.size fun m => { id := m.id, kind := kind }).nodes := by
      refine (if_pos hnode).trans (List.map_congr_left fun m _ => ?_)
      split
      · rename_i hid
        exact congrArg (fun id => { id := id, kind := kind : Node }) (beq_iff_eq.mp hid).symm
      · rfl
    rw [hcode _ hnodes, Procedure.instrsAt,
      Procedure.node?_modifyNode (fun m => { id := m.id, kind := kind }) fun _ => rfl]
    by_cases hn : n = s.size
    · right
      cases s.proc.node? n <;> simp [hn]
    · left
      simp [hn, Procedure.instrsAt]
  · left
    have hnodes : (s.newNode kind).2.proc.nodes = s.proc.nodes ++ [{ id := s.size, kind := kind }] :=
      if_neg hnode
    rw [hcode { s.proc with nodes := s.proc.nodes ++ [{ id := s.size, kind := kind }] } hnodes]
    simp only [code, Procedure.instrsAt, Procedure.node?, List.find?_append, List.find?_singleton]
    cases s.proc.nodes.find? (·.id == n) with
    | some m => rfl
    | none => split <;> rfl

theorem tidy_newNode (s : State) (kind : NodeKind) : Tidy s (s.newNode kind).2 :=
  .of_code rfl rfl (code_newNode_or s kind)

theorem tidy_connect (s : State) (source : Option Int) (target : Int) :
    Tidy s (s.connect source target) := by
  refine .of_code ?_ ?_ fun n => Or.inl (code_connect s source target n)
  · cases source <;> rfl
  · cases source <;> rfl

theorem tidy_moveTo (s : State) (n : Int) : Tidy s (s.moveTo n) :=
  .of_code rfl rfl fun _ => Or.inl rfl

theorem tidy_stop (s : State) : Tidy s s.stop := .of_code rfl rfl fun _ => Or.inl rfl

theorem tidy_leave (s : State) : Tidy s s.leave := .of_code rfl rfl fun _ => Or.inl rfl

theorem tidy_jump (s : State) (target next : Int) : Tidy s (s.jump target next) :=
  (tidy_connect s s.current target).trans (tidy_moveTo _ next)

theorem tidy_emitAt {condition : Exp} (h : Free condition.vars) {c : Int} (hc : s.current = some c)
    (loc : Location) (holds : Bool) (kind : BranchKind) :
    Tidy s (s.emitAt c ⟨loc, .assume_ condition holds kind⟩) := by
  have hemit : s.emitAt c ⟨loc, .assume_ condition holds kind⟩ =
      s.emit loc (.assume_ condition holds kind) := by rw [State.emit, hc]
  rw [hemit]
  exact tidy_emit h free_nil free_nil

theorem tidy_branch {condition : Exp} (h : Free condition.vars) (s : State) (loc : Location)
    (kinds : BranchKind × BranchKind) (yes no : Int) :
    Tidy s (s.branch loc condition kinds yes no) := by
  unfold branch
  refine Tidy.trans ?_ (tidy_moveTo _ yes)
  cases hc : s.current with
  | none => exact .refl s
  | some c =>
    have hyes := tidy_emitAt h hc loc true kinds.1
    have hedge := hyes.trans (tidy_connect _ (some c) yes)
    have hno := hedge.trans (tidy_emitAt h (by exact hc) loc false kinds.2)
    exact hno.trans (tidy_connect _ (some c) no)

end State

/-! ### Operands and assignments -/

section Operands
variable (catalog : Catalog) (loc : Location) {ret : Option String} {name : String}
  {receiver : Option Exp} {keywords : List (Option String)} {es : List Exp}

theorem sets?_callAction : (callAction catalog ret name receiver keywords es).sets? = ret := by
  unfold callAction
  split <;> rfl

theorem vars_callAction : (callAction catalog ret name receiver keywords es).vars =
    Exp.varsAll es ++ Exp.varsOpt receiver := by
  unfold callAction
  split <;> simp [Action.vars, Exp.vars]

theorem bases_callAction :
    (callAction catalog ret name receiver keywords es).bases = Exp.varsOpt receiver := by
  unfold callAction
  split <;> rfl

mutual

/-- An operand is lowered tidily, and the temporaries in its expression are set. -/
theorem tidy_lowerOperand : ∀ (v : Operand), Free v.vars → ∀ s : State,
    Tidy s (lowerOperand catalog loc v s).2 ∧
      (lowerOperand catalog loc v s).2.Covers (lowerOperand catalog loc v s).1.vars
  | .value e, h, s => ⟨.refl s, .of_free h⟩
  | .call name receiver args, h, s => by
    rw [lowerOperand]
    split
    · rw [Operand.vars, free_append] at h
      obtain ⟨htidy, hes⟩ := tidy_lowerArguments args h.1 s.newTemp.2
      refine ⟨htidy.emit_newTemp ?_ ?_ (sets?_callAction catalog), ?_⟩
      · rw [vars_callAction, covers_append]
        exact ⟨hes, .of_free h.2⟩
      · rw [bases_callAction]
        exact h.2
      · exact .of_sets (sets?_callAction catalog)
    · rw [← vars_toExp] at h
      exact ⟨.refl s, .of_free h⟩

theorem tidy_lowerArguments : ∀ (args : List Argument), Free (Argument.varsAll args) → ∀ s : State,
    Tidy s (lowerArguments catalog loc args s).2 ∧
      (lowerArguments catalog loc args s).2.Covers
        (Exp.varsAll (lowerArguments catalog loc args s).1)
  | [], h, s => ⟨.refl s, .of_free free_nil⟩
  | .mk _ v :: args, h, s => by
    rw [Argument.varsAll, free_append] at h
    obtain ⟨hv, he⟩ := tidy_lowerOperand v h.1 s
    obtain ⟨hargs, hes⟩ := tidy_lowerArguments args h.2 (lowerOperand catalog loc v s).2
    rw [lowerArguments]
    refine ⟨hv.trans hargs, covers_append.mpr ⟨?_, hes⟩⟩
    exact he.emits (plain_lowerArguments catalog loc args).2

end

theorem tidy_lowerCall {args : List Argument} (ret : Option String) (hret : Free ret.toList)
    (h : Free (Argument.varsAll args ++ Exp.varsOpt receiver)) (s : State) :
    Tidy s (lowerCall catalog loc ret name receiver args s) := by
  rw [free_append] at h
  obtain ⟨htidy, hes⟩ := tidy_lowerArguments catalog loc args h.1 s
  refine htidy.emit ?_ ?_ ?_
  · rw [vars_callAction, covers_append]
    exact ⟨hes, .of_free h.2⟩
  · rw [bases_callAction]
    exact h.2
  · rw [sets?_callAction]
    intro k hk
    have hmem := Option.mem_toList.mp hk
    exact hret k (Option.mem_toList.mpr (Option.mem_filter_iff.mp hmem).1)

/-- A call whose result goes to a new temporary. -/
theorem tidy_lowerCall_newTemp {args : List Argument}
    (h : Free (Argument.varsAll args ++ Exp.varsOpt receiver)) (s : State) :
    Tidy s (lowerCall catalog loc (some s.newTemp.1) name receiver args s.newTemp.2) ∧
      (lowerCall catalog loc (some s.newTemp.1) name receiver args s.newTemp.2).Covers
        [s.newTemp.1] := by
  rw [free_append] at h
  obtain ⟨htidy, hes⟩ := tidy_lowerArguments catalog loc args h.1 s.newTemp.2
  have hset : (callAction catalog ((some s.newTemp.1).filter (· ≠ "")) name receiver
      (args.map Argument.keyword) (lowerArguments catalog loc args s.newTemp.2).1).sets? =
      some s.newTemp.1 := by
    rw [sets?_callAction, Option.filter_some]
    exact if_pos (decide_eq_true (tempName_ne_empty s.temps))
  refine ⟨htidy.emit_newTemp ?_ ?_ hset, .of_sets hset⟩
  · rw [vars_callAction, covers_append]
    exact ⟨hes, .of_free h.2⟩
  · rw [bases_callAction]
    exact h.2

theorem tidy_writeTarget {value : Exp} {target : Target} (htarget : Free target.vars) {s : State}
    (hvalue : s.Covers value.vars) : Tidy s (writeTarget loc value s target) := by
  cases target with
  | name id => exact (Tidy.refl s).emit hvalue free_nil htarget
  | path text e =>
    exact (Tidy.refl s).emit (covers_append.mpr ⟨.of_free htarget, hvalue⟩) htarget free_nil

theorem tidy_writeEach {value : Exp} {targets : List Target} (h : Free (targets.flatMap Target.vars))
    {s : State} (hvalue : s.Covers value.vars) :
    Tidy s (targets.foldl (writeTarget loc value) s) := by
  refine tidy_foldl (Q := fun t => t.Covers value.vars) ?_ hvalue
  intro target htarget t ht
  exact ⟨tidy_writeTarget loc (free_flatMap.mp h target htarget) ht,
    ht.emits (emits_writeTarget loc value target)⟩

theorem tidy_writeTargets {value : Exp} {targets : List Target}
    (h : Free (targets.flatMap Target.vars)) {s : State} (hvalue : s.Covers value.vars) :
    Tidy s (writeTargets loc targets value s) := by
  unfold writeTargets
  split
  · rename_i func args receiver
    split
    · have htemp : Tidy s (s.newTemp.2.emit loc (.assign s.newTemp.1 (.call func args receiver))) :=
        (Tidy.refl s.newTemp.2).emit_newTemp hvalue free_nil rfl
      exact htemp.trans (tidy_writeEach loc h (.of_sets rfl))
    · exact tidy_writeEach loc h hvalue
  · exact tidy_writeEach loc h hvalue

theorem tidy_assignOperand {d : Destination} {v : Operand} (hd : Free d.vars) (hv : Free v.vars)
    (s : State) : Tidy s (assignOperand catalog loc d v s) := by
  unfold assignOperand
  split
  · rename_i id name receiver args
    exact tidy_lowerCall catalog loc (some id) hd hv s
  · obtain ⟨htidy, he⟩ := tidy_lowerOperand catalog loc v hv s
    exact htidy.trans (tidy_writeTargets loc hd he)

theorem tidy_assignTemp {v : Operand} (h : Free v.vars) (s : State) :
    Tidy s (assignTemp catalog loc v s).2 ∧
      (assignTemp catalog loc v s).2.Covers [(assignTemp catalog loc v s).1] := by
  cases v with
  | value e =>
    exact ⟨(Tidy.refl s.newTemp.2).emit_newTemp (.of_free h) free_nil rfl, .of_sets rfl⟩
  | call name receiver args => exact tidy_lowerCall_newTemp catalog loc h s

theorem tidy_assignTemps {pairs : List Pair} (h : ∀ p ∈ pairs, Free p.vars) (s : State) :
    Tidy s (assignTemps catalog loc pairs s).2 ∧
      (assignTemps catalog loc pairs s).2.Covers
        (Exp.varsAll (assignTemps catalog loc pairs s).1) := by
  induction pairs generalizing s with
  | nil => exact ⟨.refl s, .of_free free_nil⟩
  | cons p pairs ih =>
    have hp := (free_append.mp (h p List.mem_cons_self)).2
    obtain ⟨hfirst, htemp⟩ := tidy_assignTemp catalog loc hp s
    obtain ⟨hrest, htemps⟩ := ih (fun q hq => h q (List.mem_cons_of_mem p hq))
      (assignTemp catalog loc p.value s).2
    refine ⟨hfirst.trans hrest, covers_append.mpr ⟨?_, htemps⟩⟩
    exact htemp.emits (plain_assignTemps catalog loc pairs).2

theorem tidy_assignPairs {pairs : List Pair} (h : ∀ p ∈ pairs, Free p.vars) (s : State) :
    Tidy s (assignPairs catalog loc pairs s) := by
  unfold assignPairs
  split
  · obtain ⟨htidy, htemps⟩ := tidy_assignTemps catalog loc h s
    refine htidy.trans (tidy_foldl (Q := fun t => t.Covers (Exp.varsAll _)) ?_ htemps)
    rintro ⟨p, e⟩ hx t ht
    obtain ⟨hp, he⟩ := List.of_mem_zip hx
    have hvalue : t.Covers e.vars := by
      intro k hk
      refine ht k ?_
      rw [Exp.varsAll_eq_flatMap]
      exact List.mem_flatMap.mpr ⟨e, he, hk⟩
    exact ⟨tidy_writeTargets loc (free_append.mp (h p hp)).1 hvalue,
      ht.emits (emits_writeTargets loc _ e)⟩
  · refine tidy_each fun p hp t => ?_
    obtain ⟨hd, hv⟩ := free_append.mp (h p hp)
    exact tidy_assignOperand catalog loc hd hv t

theorem tidy_lowerWithItem {item : WithItem} (h : Free item.vars) (s : State) :
    Tidy s (lowerWithItem catalog loc s item) := by
  rw [WithItem.vars, free_append, free_flatMap] at h
  unfold lowerWithItem
  split
  · rename_i d hd
    exact tidy_assignOperand catalog loc (h.1 d (Option.mem_toList.mpr hd)) h.2 s
  · rename_i name receiver args _ hvalue
    rw [hvalue] at h
    exact tidy_lowerCall catalog loc none free_nil h.2 s
  · exact .refl s

theorem tidy_enterAll {items : List WithItem} (h : Free (items.flatMap WithItem.vars)) (s : State) :
    Tidy s (enterAll catalog loc items s) :=
  tidy_each fun item hitem => tidy_lowerWithItem catalog loc (free_flatMap.mp h item hitem)

theorem tidy_takeNext {targets : List Target} {iterable : Exp}
    (htargets : Free (targets.flatMap Target.vars)) (hiterable : Free iterable.vars) (s : State) :
    Tidy s (takeNext loc targets iterable s) := by
  refine tidy_writeTargets loc htargets (.of_free ?_)
  simpa [nextOf, Exp.vars, Exp.varsAll, Exp.varsOpt] using hiterable

theorem tidy_giveBack {v : Option Operand} (h : Free (v.toList.flatMap Operand.vars)) (s : State) :
    Tidy s (giveBack catalog loc v s) := by
  cases v with
  | none => exact tidy_emit free_nil free_nil free_nil
  | some v =>
    have hv : Free v.vars := by simpa using h
    obtain ⟨htidy, he⟩ := tidy_lowerOperand catalog loc v hv s
    exact htidy.emit he free_nil free_nil

/-- A statement that stays in its node. -/
theorem tidy_simple {stmt : Stmt} (hsimple : isSimple stmt = true) (h : Free stmt.vars)
    (loop : Option Loop) (s : State) : Tidy s (lowerStmt catalog loop stmt s) := by
  cases stmt with
  | call loc name receiver args =>
    rw [lowerStmt]
    exact tidy_lowerCall catalog loc none free_nil h s
  | declare loc name type init =>
    obtain ⟨hname, hinit⟩ : Free [name] ∧ Free (init.toList.flatMap Operand.vars) :=
      free_append.mp h
    cases init with
    | none =>
      rw [lowerStmt]
      exact tidy_emit free_nil free_nil free_nil
    | some v =>
      have hv : Free v.vars := by simpa using hinit
      obtain ⟨htidy, he⟩ := tidy_lowerOperand catalog loc v hv s
      rw [lowerStmt]
      exact htidy.emit he free_nil hname
  | assign loc d v =>
    obtain ⟨hd, hv⟩ := free_append.mp h
    rw [lowerStmt]
    exact tidy_assignOperand catalog loc hd hv s
  | assignEach loc pairs =>
    rw [lowerStmt]
    exact tidy_assignPairs catalog loc (free_flatMap.mp h) s
  | augment loc target op left v =>
    obtain ⟨htarget, hv⟩ := free_append.mp h
    obtain ⟨htarget, hleft⟩ := free_append.mp htarget
    obtain ⟨htidy, he⟩ := tidy_lowerOperand catalog loc v hv s
    rw [lowerStmt]
    exact htidy.trans (tidy_writeEach loc htarget (covers_append.mpr ⟨.of_free hleft, he⟩))
  | _ => cases hsimple

end Operands

/-! ### Statements -/

section Statements
variable (catalog : Catalog)

theorem tidy_openClause {condition : Exp} (h : Free condition.vars) (s : State) (loc : Location) :
    Tidy s (s.openClause loc condition) :=
  ((tidy_newNode s .normal).trans (tidy_newNode _ .normal)).trans (tidy_branch h s.spare loc _ _ _)

theorem tidy_openBody {condition : Exp} (h : Free condition.vars) (s : State) (loc : Location)
    (kinds : BranchKind × BranchKind) : Tidy s (s.openBody loc condition kinds) := by
  have hnodes : Tidy s (s.newNode .loopHead).2.spare :=
    ((tidy_newNode s .loopHead).trans (tidy_newNode _ .normal)).trans (tidy_newNode _ .normal)
  exact (hnodes.trans (tidy_jump _ s.size s.size)).trans (tidy_branch h s.openHead loc kinds _ _)

theorem tidy_openJoin (s : State) : Tidy s (openJoin s) :=
  ((tidy_newNode s .join).trans (tidy_jump _ s.size s.size)).trans (tidy_stop _)

theorem tidy_enterHandler (before bodyEnd : Option Int) (s : State) :
    Tidy s (enterHandler before bodyEnd s) :=
  (((tidy_newNode s .exception).trans (tidy_connect _ before _)).trans
    (tidy_connect _ bodyEnd _)).trans (tidy_moveTo _ _)

theorem tidy_goTo (pick : Loop → Int) (loop : Option Loop) (s : State) :
    Tidy s (goTo pick loop s) := by
  cases loop with
  | none => exact tidy_stop s
  | some l => exact (tidy_jump s (pick l) (pick l)).trans (tidy_stop _)

theorem tidy_closed (s : State) : Tidy s (closed s) := by
  have hexit : Tidy s (withExit s) := .of_code rfl rfl (code_newNode_or s .exit)
  exact (hexit.trans (tidy_connect _ _ _)).trans (tidy_each fun id _ t => tidy_connect t (some id) _)

theorem code_entered (owner : Option String) (f : Function) (s : State) (n : Int) :
    (entered owner f s).code n = [] := by
  obtain ⟨name, params, loc, isStatic, body⟩ := f
  have hnodes : (openFunction name owner params loc isStatic s).proc.nodes =
      [{ id := 0, kind := .entry }] := rfl
  by_cases hn : 0 = n
  · simp [entered, code, Procedure.instrsAt, Procedure.node?, hnodes, hn]
  · simp [entered, code, Procedure.instrsAt, Procedure.node?, hnodes, hn]

theorem nodup_addProcedure {g : Program} (h : (g.procedures.map Procedure.name).Nodup)
    (p : Procedure) : ((g.addProcedure p).procedures.map Procedure.name).Nodup := by
  unfold Program.addProcedure
  split
  · have hnames : (g.procedures.map fun q => if q.name == p.name then p else q).map Procedure.name =
        g.procedures.map Procedure.name := by
      rw [List.map_map]
      apply List.map_congr_left
      intro q _
      simp only [Function.comp]
      split
      · rename_i hq
        exact (beq_iff_eq.mp hq).symm
      · rfl
    rwa [hnames]
  · rename_i hnew
    rw [List.map_append, List.map_singleton]
    refine List.nodup_append.mpr ⟨h, List.nodup_singleton _, ?_⟩
    simpa using hnew

/-- The site of an instruction once its procedure is finished. -/
def Site.finish (name : String) : Site → Site
  | .finished t => .finished t
  | .ahead n j => .finished ⟨name, n, j⟩

/-- A procedure that was built aside joins the program, and the graph around it is left as it was. -/
theorem tidy_addProcedure {s e c : State} (h : Tidy e c) (hempty : ∀ n, e.code n = [])
    (htemps : e.temps = s.temps) (hprogram : e.program = s.program) :
    Tidy s { s with temps := c.temps, program := c.program.addProcedure c.proc } := by
  constructor
  · rw [← htemps]
    refine h.numbered.map (Site.finish c.proc.name) ?_
    rintro (id | ⟨n, j⟩) k ⟨⟨i, hi, hset⟩, hs⟩
    · obtain ⟨p, hp, hi⟩ := hi
      rcases mem_addProcedure hp with hp | rfl
      · refine ⟨.finished id, ⟨⟨i, ⟨p, hp, hi⟩, hset⟩, ?_⟩, rfl⟩
        rintro ⟨i', hi', hset'⟩
        rw [Holds, hprogram] at hi'
        exact hs ⟨i', hi', hset'⟩
      · obtain ⟨n, j, rfl, hj⟩ := Procedure.exists_of_instrAt? hi
        refine ⟨.ahead n j, ⟨⟨i, hj, hset⟩, ?_⟩, rfl⟩
        rintro ⟨i', hi', -⟩
        rw [Holds, hempty] at hi'
        cases hi'
    · exact absurd ⟨i, hi, hset⟩ hs
  · intro hs
    have he : e.Sound :=
      ⟨hprogram ▸ hs.names, hprogram ▸ hs.program, fun n => hempty n ▸ Lowering.Sound.nil⟩
    have hc := h.sound he
    refine ⟨nodup_addProcedure hc.names c.proc, ?_, hs.code⟩
    intro p hp
    rcases mem_addProcedure hp with hp | rfl
    · exact hc.program p hp
    · exact hc.code

theorem tidy_function {owner : Option String} {f : Function} {s : State}
    (hbody : Tidy (entered owner f s) (lowerBlock catalog none f.body (entered owner f s))) :
    Tidy s (lowerFunction catalog owner f s) := by
  have htidy := tidy_addProcedure (s := s) (hbody.trans (tidy_closed _)) (code_entered owner f s)
  obtain ⟨name, params, loc, isStatic, body⟩ := f
  rw [lowerFunction, closeFunction_eq]
  exact htidy rfl rfl

mutual

theorem tidy_lowerStmt : ∀ (stmt : Stmt) (loop : Option Loop) (s : State), Free stmt.vars →
    Tidy s (lowerStmt catalog loop stmt s)
  | .call .., loop, s, h => tidy_simple catalog rfl h loop s
  | .declare .., loop, s, h => tidy_simple catalog rfl h loop s
  | .assign .., loop, s, h => tidy_simple catalog rfl h loop s
  | .assignEach .., loop, s, h => tidy_simple catalog rfl h loop s
  | .augment .., loop, s, h => tidy_simple catalog rfl h loop s
  | .return_ loc v, loop, s, h => by
    rw [lowerStmt_return]
    exact (tidy_giveBack catalog loc h s).trans (tidy_leave _)
  | .raise, loop, s, h => by
    rw [lowerStmt]
    exact tidy_leave s
  | .branch clauses orElse, loop, s, h => by
    rw [Stmt.vars, free_append] at h
    rw [lowerStmt_branch]
    have hclauses := (tidy_newNode s .join).trans
      (tidy_lowerClauses clauses loop s.size (s.newNode .join).2 h.1)
    exact (hclauses.trans (tidy_lowerBlock orElse loop _ h.2)).trans (tidy_jump _ _ _)
  | .while_ loc condition body, loop, s, h => by
    rw [Stmt.vars, free_append] at h
    rw [lowerStmt_while]
    exact ((tidy_openBody h.1 s loc _).trans (tidy_lowerBlock body _ _ h.2)).trans (tidy_jump _ _ _)
  | .for_ loc targets iterable body, loop, s, h => by
    rw [Stmt.vars, free_append, free_append] at h
    rw [lowerStmt_for]
    have hcondition : Free (Exp.const (.bool true)).vars := free_nil
    have hnext := (tidy_openBody hcondition s loc (.forEnter, .forExit)).trans
      (tidy_takeNext loc h.1.1 h.1.2 _)
    exact (hnext.trans (tidy_lowerBlock body _ _ h.2)).trans (tidy_jump _ _ _)
  | .try_ body orElse handlers final, loop, s, h => by
    rw [Stmt.vars, free_append, free_append, free_append] at h
    obtain ⟨⟨⟨hbody, horElse⟩, hhandlers⟩, hfinal⟩ := h
    have hprotect : Tidy s (protect catalog loop body orElse s) :=
      (tidy_lowerBlock body loop s hbody).trans (tidy_lowerBlock orElse loop _ horElse)
    have hguarded : Tidy s (guarded catalog loop body orElse handlers s) := by
      unfold guarded
      split
      · exact hprotect
      · exact ((hprotect.trans (tidy_openJoin _)).trans
          (tidy_lowerHandlers handlers loop _ _ _ _ hhandlers)).trans (tidy_moveTo _ _)
    rw [lowerStmt_try]
    exact hguarded.trans (tidy_lowerBlock final loop _ hfinal)
  | .with_ loc items body, loop, s, h => by
    rw [Stmt.vars, free_append] at h
    rw [lowerStmt_with]
    exact (tidy_enterAll catalog loc h.1 s).trans (tidy_lowerBlock body loop _ h.2)
  | .break_, loop, s, h => by
    rw [lowerStmt_break]
    exact tidy_goTo Loop.after loop s
  | .continue_, loop, s, h => by
    rw [lowerStmt_continue]
    exact tidy_goTo Loop.head loop s
  | .define f, loop, s, h => by
    rw [lowerStmt]
    rw [Stmt.vars] at h
    exact tidy_lowerFunction none f s h

theorem tidy_lowerBlock : ∀ (stmts : List Stmt) (loop : Option Loop) (s : State),
    Free (Stmt.varsAll stmts) → Tidy s (lowerBlock catalog loop stmts s)
  | [], loop, s, h => by
    rw [lowerBlock]
    exact .refl s
  | stmt :: stmts, loop, s, h => by
    rw [Stmt.varsAll, free_append] at h
    rw [lowerBlock]
    exact (tidy_lowerStmt stmt loop s h.1).trans (tidy_lowerBlock stmts loop _ h.2)

theorem tidy_lowerClauses : ∀ (clauses : List Clause) (loop : Option Loop) (join : Int) (s : State),
    Free (Clause.varsAll clauses) → Tidy s (lowerClauses catalog loop join clauses s)
  | [], loop, join, s, h => by
    rw [lowerClauses]
    exact .refl s
  | .mk condition loc body :: clauses, loop, join, s, h => by
    rw [Clause.varsAll, free_append, free_append] at h
    rw [lowerClauses_cons]
    have hbody := (tidy_openClause h.1.1 s loc).trans (tidy_lowerBlock body loop _ h.1.2)
    exact (hbody.trans (tidy_jump _ join _)).trans (tidy_lowerClauses clauses loop join _ h.2)

theorem tidy_lowerHandlers : ∀ (handlers : List (List Stmt)) (loop : Option Loop)
    (before bodyEnd : Option Int) (join : Int) (s : State), Free (Stmt.varsOfEach handlers) →
    Tidy s (handlers.foldl (lowerHandler catalog loop before bodyEnd join) s)
  | [], _, _, _, _, s, h => .refl s
  | handler :: handlers, loop, before, bodyEnd, join, s, h => by
    rw [Stmt.varsOfEach, free_append] at h
    have hblock := (tidy_enterHandler before bodyEnd s).trans (tidy_lowerBlock handler loop _ h.1)
    have hone : Tidy s (lowerHandler catalog loop before bodyEnd join s handler) :=
      (hblock.trans (tidy_jump _ join join)).trans (tidy_stop _)
    exact hone.trans (tidy_lowerHandlers handlers loop before bodyEnd join _ h.2)

theorem tidy_lowerFunction : ∀ (owner : Option String) (f : Function) (s : State), Free f.vars →
    Tidy s (lowerFunction catalog owner f s)
  | owner, .mk name params loc isStatic body, s, h => by
    rw [Function.vars] at h
    exact tidy_function catalog (tidy_lowerBlock body none _ h)

end

theorem tidy_lowerTopLevel {u : TopLevel} (h : Free u.vars) (s : State) :
    Tidy s (lowerTopLevel catalog s u) := by
  cases u with
  | function f => exact tidy_lowerFunction catalog none f s h
  | class_ name methods =>
    exact tidy_each fun f hf s => tidy_lowerFunction catalog (some name) f s (free_flatMap.mp h f hf)

/-- The state in which the program of a module is finished. -/
theorem exists_tidy_lowerModule (library : Library) (file : String) {m : Module}
    (h : ∀ u ∈ m, Free u.vars) : ∃ t : State, t.program = lowerModule catalog library file m ∧
      t.Sound ∧ Numbered t.Sets 0 t.temps := by
  let start : State :=
    { program := { library := library, sourceFiles := [file] }, proc := { name := "" } }
  have htidy : Tidy start (m.foldl (lowerTopLevel catalog) start) :=
    tidy_each fun u hu => tidy_lowerTopLevel catalog (h u hu)
  have hsound : start.Sound :=
    ⟨List.nodup_nil, fun p hp => (List.not_mem_nil hp).elim, fun _ => Lowering.Sound.nil⟩
  refine ⟨_, rfl, htidy.sound hsound, htidy.numbered.map id ?_⟩
  intro site k hk
  refine ⟨site, ⟨hk, ?_⟩, rfl⟩
  rintro ⟨i, hi, -⟩
  cases site with
  | finished t =>
    obtain ⟨p, hp, -⟩ := hi
    exact List.not_mem_nil hp
  | ahead n j => cases hi

end Statements

end Lowering

/-! ### Programs -/

namespace Program
open Lowering State

/-- The statement writes the variable: it replaces its value or adds to it. -/
def WrittenAt (g : Program) (name : String) (p : Procedure) (t : StatementId) : Prop :=
  p ∈ g.procedures ∧
    (Flow.ofScope ⟨p, g.library⟩).defines ((Scope.mk p g.library).symbolOf name) t = true

/-- The variable stands in an expression of the statement, or the statement counts as reading it. -/
def ReadAt (g : Program) (name : String) (p : Procedure) (t : StatementId) : Prop :=
  p ∈ g.procedures ∧ ((∃ i, p.instrAt? t = some i ∧ name ∈ i.action.vars) ∨
    (Scope.mk p g.library).symbolOf name ∈ (Flow.ofScope ⟨p, g.library⟩).readsAt t)

/-- At most one statement of the whole program writes the variable. It replaces the value, and every
statement that reads the variable comes after it in the same node. -/
structure AssignedOnce (g : Program) (name : String) : Prop where
  once : ∀ p q t u, g.WrittenAt name p t → g.WrittenAt name q u → p = q ∧ t = u
  replaces : ∀ p ∈ g.procedures, ∀ t, ∀ e ∈ (Flow.ofScope ⟨p, g.library⟩).effectsAt t,
    e.symbol = (Scope.mk p g.library).symbolOf name → e.strong = true
  earlier : ∀ p t, g.ReadAt name p t → ∃ j < t.index, g.WrittenAt name p { t with index := j }

variable {g : Program} {name : String} {p : Procedure} {t : StatementId}

theorem writtenAt_iff : g.WrittenAt name p t ↔ p ∈ g.procedures ∧ ∃ i, p.instrAt? t = some i ∧
    ∃ e ∈ (Scope.mk p g.library).effectsOf i.action,
      e.symbol = (Scope.mk p g.library).symbolOf name := by
  rw [WrittenAt, Flow.defines, Flow.fact?_ofScope]
  cases p.instrAt? t with
  | none => simp
  | some i => simp [Fact.defines, Fact.ofStatement]

theorem ReadAt.exists_instr (h : g.ReadAt name p t) :
    ∃ i, p.instrAt? t = some i ∧ name ∈ i.action.vars := by
  rcases h.2 with h | h
  · exact h
  · rw [Flow.readsAt, Flow.fact?_ofScope] at h
    cases hi : p.instrAt? t with
    | none => simp [hi] at h
    | some i =>
      rw [hi] at h
      exact ⟨i, rfl, Scope.mem_vars_of_mem_readsOf h⟩

/-- In sound code, what has an effect on a temporary sets it. -/
theorem sets?_temporary {s : State} (hs : s.Sound) (hp : p ∈ s.program.procedures) {i : Instr}
    (hi : p.instrAt? t = some i) {e : Effect} {k : Nat}
    (he : e ∈ (Scope.mk p s.program.library).effectsOf i.action)
    (hsymbol : e.symbol = (Scope.mk p s.program.library).symbolOf (tempName k)) :
    i.action.sets? = some (tempName k) ∧ e.strong = true := by
  obtain ⟨n, j, -, hj⟩ := Procedure.exists_of_instrAt? hi
  rcases Scope.sets?_of_mem_effectsOf he hsymbol with hset | hbase
  · exact hset
  · exact absurd hbase ((hs.program p hp n).bases i (List.mem_of_getElem? hj) k)

theorem assignedOnce_of_sound {s : State} (hs : s.Sound) (hnumbered : Numbered s.Sets 0 s.temps)
    (k : Nat) : s.program.AssignedOnce (tempName k) := by
  constructor
  case once =>
    intro p q t u hwritten hwritten'
    obtain ⟨hp, i, hi, e, he, hsymbol⟩ := writtenAt_iff.mp hwritten
    obtain ⟨hq, i', hi', e', he', hsymbol'⟩ := writtenAt_iff.mp hwritten'
    have hsets : s.Sets (.finished t) k := ⟨i, ⟨p, hp, hi⟩, (sets?_temporary hs hp hi he hsymbol).1⟩
    have hsets' : s.Sets (.finished u) k :=
      ⟨i', ⟨q, hq, hi'⟩, (sets?_temporary hs hq hi' he' hsymbol').1⟩
    obtain rfl : t = u := by
      cases hnumbered.once _ _ k hsets hsets'
      rfl
    obtain ⟨n, j, rfl, -⟩ := Procedure.exists_of_instrAt? hi
    obtain ⟨n', j', heq, -⟩ := Procedure.exists_of_instrAt? hi'
    have hname : p.name = q.name := congrArg StatementId.procedure heq
    exact ⟨List.inj_on_of_nodup_map hs.names hp hq hname, rfl⟩
  case replaces =>
    intro p hp t e he hsymbol
    rw [Flow.effectsAt, Flow.fact?_ofScope] at he
    cases hi : p.instrAt? t with
    | none => simp [hi] at he
    | some i =>
      rw [hi] at he
      exact (sets?_temporary hs hp hi he hsymbol).2
  case earlier =>
    intro p t hread
    obtain ⟨i, hi, hvars⟩ := hread.exists_instr
    obtain ⟨n, j, rfl, hj⟩ := Procedure.exists_of_instrAt? hi
    obtain ⟨l, hlt, i', hl, hset⟩ := (hs.program p hread.1 n).earlier j i k hj hvars
    obtain ⟨e, he, hsymbol⟩ := Scope.exists_effect_of_sets? ⟨p, s.program.library⟩ hset
    refine ⟨l, Int.ofNat_lt.mpr hlt, writtenAt_iff.mpr ⟨hread.1, i', ?_, e, he, hsymbol⟩⟩
    rw [Procedure.instrAt?_mk, hl]

/-- Where no identifier looks like a temporary, each temporary is assigned once and defined before
use. -/
theorem assignedOnce_ofTree (catalog : Catalog) (library : Library) (file text : String)
    (root : Syntax.Tree) (hnames : ∀ d ∈ root.subtrees, d.kind = .identifier →
      ¬ "__tmp_".toList <+: ((Syntax.Source.ofText file text).text d).toList) (k : Nat) :
    (Program.ofTree catalog library file text root).AssignedOnce (tempName k) := by
  have hfree : ∀ u ∈ Surface.moduleOfTree (.ofText file text) root, Free u.vars := by
    intro u hu j hj
    refine Surface.vars_moduleOfTree (P := fun x => ¬ "__tmp_".toList <+: x.toList) hnames u hu
      (tempName j) hj ?_
    rw [tempName, String.toList_append]
    exact List.prefix_append _ _
  obtain ⟨s, hprogram, hs, hnumbered⟩ := exists_tidy_lowerModule catalog library file hfree
  rw [ofTree, ← hprogram]
  exact assignedOnce_of_sound hs hnumbered k

/-- Two hand-offs, one in the other, and an exchange. -/
def exchangeText : String := "def f(a, m): a, m = ask(ask(m)), a"

open Syntax in
def exchange : Tree :=
  let inner : Tree := .inLine .call none 24 30 [.inLine .identifier (some "function") 24 27 [],
    .inLine .argumentList (some "arguments") 27 30 [.inLine .identifier none 28 29 []]]
  let outer : Tree := .inLine .call none 20 31 [.inLine .identifier (some "function") 20 23 [],
    .inLine .argumentList (some "arguments") 23 31 [inner]]
  let left : Tree := .inLine .patternList (some "left") 13 17
    [.inLine .identifier none 13 14 [], .inLine .identifier none 16 17 []]
  let right : Tree := .inLine .expressionList (some "right") 20 34
    [outer, .inLine .identifier none 33 34 []]
  let params : Tree := .inLine .parameters (some "parameters") 5 11
    [.inLine .identifier none 6 7 [], .inLine .identifier none 9 10 []]
  .inLine .module none 0 34 [.inLine .functionDefinition none 0 34
    [.inLine .identifier (some "name") 4 5 [], params, .inLine .block (some "body") 13 34
      [.inLine .expressionStatement none 13 34 [.inLine .assignment none 13 34 [left, right]]]]]

def asks : Catalog := [{ name := "ask", args := [0] }]

theorem assignedOnce_ofTree_exchange :
    (∀ d ∈ exchange.subtrees, d.kind = .identifier →
      ¬ "__tmp_".toList <+: ((Syntax.Source.ofText "" exchangeText).text d).toList) ∧
    (Program.ofTree asks [] "" exchangeText exchange).AssignedOnce (tempName 1) ∧
    (Program.ofTree asks [] "" exchangeText exchange).procedures.map
      (fun p => (p.instrsAt 0).map Instr.render) =
        [["gives_up[0] __tmp_1 = ask(m)", "gives_up[0] __tmp_0 = ask(__tmp_1)", "__tmp_2 = a",
          "a = __tmp_0", "m = __tmp_2"]] := by
  have hnames : ∀ d ∈ exchange.subtrees, d.kind = .identifier →
      ¬ "__tmp_".toList <+: ((Syntax.Source.ofText "" exchangeText).text d).toList := by
    decide +kernel
  exact ⟨hnames, assignedOnce_ofTree asks [] "" exchangeText exchange hnames 1, by decide +kernel⟩

end Program

end ActorOwnership
