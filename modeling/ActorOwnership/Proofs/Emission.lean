import ActorOwnership.Proofs.Builder

/-! Steps that only emit instructions and make temporaries. What they emit depends on the number of
temporaries made before, and on nothing else of the state; where the code cannot be reached, the
instructions are dropped and the temporaries are counted all the same. -/

namespace ActorOwnership.Lowering
open Surface State
set_option autoImplicit false

namespace State

def setTemps (s : State) (n : Nat) : State := { s with temps := n }

theorem emit_setTemps (s : State) (n : Nat) (loc : Location) (action : Action) :
    (s.setTemps n).emit loc action = (s.emit loc action).setTemps n := by
  unfold emit
  cases hc : s.current with
  | none => simp [setTemps, hc]
  | some c => simp [setTemps, hc, emitAt]

theorem emitAll_setTemps (s : State) (n : Nat) (is : List Instr) :
    (s.setTemps n).emitAll is = (s.emitAll is).setTemps n := by
  induction is generalizing s with
  | nil => rfl
  | cons i is ih => rw [emitAll_cons, emit_setTemps, ih, emitAll_cons]

/-- Only the number of temporaries is not part of the graph. -/
theorem Grows.setTemps {s t : State} (h : Grows s t) (n : Nat) : Grows s (t.setTemps n) := by
  have hgood : Good (t.setTemps n) :=
    ⟨⟨h.good.nodes, h.good.nonneg, h.good.exits⟩, h.good.current⟩
  refine ⟨hgood, h.size, ?_, h.code, h.header⟩
  intro m hm hcurrent
  obtain ⟨hcode, hsuccs, hexits, hcurrent'⟩ := h.fixed m hm hcurrent
  exact ⟨hcode, hsuccs, hexits, hcurrent'⟩

end State

/-! ### The steps -/

/-- One empty node, and `n` temporaries. -/
def recorder (n : Nat) : State where
  temps := n
  proc := { name := "", nodes := [{ id := 0 }], nextId := 1 }
  current := some 0

/-- The instructions that a step emits after `n` temporaries. -/
def emitted (f : State → State) (n : Nat) : List Instr := (f (recorder n)).code 0

/-- The number of temporaries after a step. -/
def counted (f : State → State) (n : Nat) : Nat := (f (recorder n)).temps

/-- The step emits instructions and makes temporaries, according to the temporaries made before. -/
def Emits (f : State → State) : Prop :=
  ∀ s, f s = (s.emitAll (emitted f s.temps)).setTemps (counted f s.temps)

/-- The same for a step with a result. -/
def Plain {α : Type} (f : State → α × State) : Prop :=
  (∀ s, (f s).1 = (f (recorder s.temps)).1) ∧ Emits fun s => (f s).2

variable {α β : Type}

theorem emitted_of {f : State → State} (code : Nat → List Instr) (count : Nat → Nat)
    (h : ∀ s, f s = (s.emitAll (code s.temps)).setTemps (count s.temps)) (n : Nat) :
    emitted f n = code n := by
  have hnode : (recorder n).proc.hasNode 0 = true := rfl
  rw [emitted, h]
  refine (code_emitAll _ rfl hnode).trans ?_
  rw [if_pos rfl]
  rfl

theorem emits_of {f : State → State} (code : Nat → List Instr) (count : Nat → Nat)
    (h : ∀ s, f s = (s.emitAll (code s.temps)).setTemps (count s.temps)) : Emits f := by
  intro s
  have hcount : counted f s.temps = count s.temps := by
    rw [counted, h]
    rfl
  rw [emitted_of code count h, hcount, h]

theorem Emits.congr {f g : State → State} (hf : Emits f) (h : ∀ s, g s = f s) : Emits g :=
  funext h ▸ hf

theorem Emits.temps_eq {f : State → State} (hf : Emits f) (s : State) :
    (f s).temps = counted f s.temps := by
  rw [hf s]
  rfl

theorem emits_id : Emits fun s => s := emits_of (fun _ => []) (fun n => n) fun _ => rfl

theorem emits_emit (loc : Location) (action : Action) : Emits fun s => s.emit loc action := by
  apply emits_of (fun _ => [⟨loc, action⟩]) fun n => n
  intro s
  have htemps : (s.emit loc action).temps = s.temps := temps_emitAll [⟨loc, action⟩] s
  rw [← emit_eq_emitAll, ← htemps]
  rfl

/-- The second step may depend on how many temporaries there were before the first one. -/
theorem Emits.dep {f : State → State} (hf : Emits f) {g : Nat → State → State}
    (hg : ∀ n, Emits (g n)) : Emits fun s => g s.temps (f s) := by
  apply emits_of (fun n => emitted f n ++ emitted (g n) (counted f n))
    fun n => counted (g n) (counted f n)
  intro s
  rw [hg, hf s, emitAll_setTemps, emitAll_append]
  rfl

theorem Emits.comp {f g : State → State} (hg : Emits g) (hf : Emits f) : Emits fun s => g (f s) :=
  hf.dep fun _ => hg

theorem Emits.emitted_comp {f g : State → State} (hg : Emits g) (hf : Emits f) (n : Nat) :
    emitted (fun s => g (f s)) n = emitted f n ++ emitted g (counted f n) := by
  refine emitted_of (fun n => emitted f n ++ emitted g (counted f n))
    (fun n => counted g (counted f n)) ?_ n
  intro s
  rw [hg, hf s, emitAll_setTemps, emitAll_append]
  rfl

theorem Emits.foldl {f : State → α → State} (hf : ∀ a, Emits fun s => f s a) (as : List α) :
    Emits fun s => as.foldl f s := by
  induction as with
  | nil => exact emits_id
  | cons a as ih => exact ih.comp (hf a)

theorem plain_pure (a : α) : Plain fun s => (a, s) := ⟨fun _ => rfl, emits_id⟩

theorem plain_newTemp : Plain newTemp :=
  ⟨fun _ => rfl, emits_of (fun _ => []) (fun n => n + 1) fun _ => rfl⟩

theorem Plain.andThen {f : State → α × State} (hf : Plain f) {g : α → State → State}
    (hg : ∀ a, Emits (g a)) : Emits fun s => g (f s).1 (f s).2 := by
  have heq : (fun s => g (f s).1 (f s).2) = fun s => g (f (recorder s.temps)).1 (f s).2 := by
    funext s
    rw [← hf.1 s]
  rw [heq]
  exact hf.2.dep (g := fun n => g (f (recorder n)).1) fun n => hg _

theorem Plain.bind {f : State → α × State} (hf : Plain f) {g : α → State → β × State}
    (hg : ∀ a, Plain (g a)) : Plain fun s => g (f s).1 (f s).2 := by
  refine ⟨?_, hf.andThen fun a => (hg a).2⟩
  intro s
  -- the second result depends on the temporaries after the first step
  have htemps : (f s).2.temps = (f (recorder s.temps)).2.temps := hf.2.temps_eq s
  rw [(hg _).1 (f s).2, (hg _).1 (f (recorder s.temps)).2, hf.1 s, htemps]

/-! ### Operands and assignments -/

section Operands
variable (catalog : Catalog) (loc : Location)

mutual

theorem plain_lowerOperand : ∀ v, Plain (lowerOperand catalog loc v)
  | .value e => plain_pure e
  | .call name receiver args => by
    by_cases hname : (catalog.find? name).isSome = true
    · have hargs : ∀ temp, Plain fun s =>
          (Exp.var temp, (lowerArguments catalog loc args s).2.emit loc (callAction catalog
            (some temp) name receiver (args.map Argument.keyword)
              (lowerArguments catalog loc args s).1)) :=
        fun temp => ⟨fun _ => rfl, (plain_lowerArguments args).andThen fun es => emits_emit loc _⟩
      have hcall : lowerOperand catalog loc (.call name receiver args) = fun s =>
          (Exp.var s.newTemp.1, (lowerArguments catalog loc args s.newTemp.2).2.emit loc
            (callAction catalog (some s.newTemp.1) name receiver (args.map Argument.keyword)
              (lowerArguments catalog loc args s.newTemp.2).1)) := by
        funext s
        rw [lowerOperand, if_pos hname]
      rw [hcall]
      exact plain_newTemp.bind hargs
    · have hvalue : lowerOperand catalog loc (.call name receiver args) =
          fun s => ((Operand.call name receiver args).toExp, s) := by
        funext s
        rw [lowerOperand, if_neg hname]
      rw [hvalue]
      exact plain_pure _

theorem plain_lowerArguments : ∀ args, Plain (lowerArguments catalog loc args)
  | [] => plain_pure []
  | .mk _ v :: args =>
    (plain_lowerOperand v).bind (g := fun e s =>
        (e :: (lowerArguments catalog loc args s).1, (lowerArguments catalog loc args s).2))
      fun e => (plain_lowerArguments args).bind (g := fun es s => (e :: es, s))
        fun es => plain_pure (e :: es)

end

theorem emits_lowerCall (ret : Option String) (name : String) (receiver : Option Exp)
    (args : List Argument) : Emits (lowerCall catalog loc ret name receiver args) :=
  (plain_lowerArguments catalog loc args).andThen fun _ => emits_emit loc _

theorem emits_writeTarget (value : Exp) (target : Target) :
    Emits fun s => writeTarget loc value s target := by
  cases target with
  | name id => exact emits_emit loc _
  | path text e => exact emits_emit loc _

theorem emits_writeTargets (targets : List Target) (value : Exp) :
    Emits (writeTargets loc targets value) := by
  have hall : ∀ value, Emits fun s => targets.foldl (writeTarget loc value) s :=
    fun value => Emits.foldl (emits_writeTarget loc value) targets
  unfold writeTargets
  split
  · split
    · exact plain_newTemp.andThen
        (g := fun temp s =>
          targets.foldl (writeTarget loc (.var temp)) (s.emit loc (.assign temp _)))
        fun temp => (hall (.var temp)).comp (emits_emit loc _)
    · exact hall _
  · exact hall _

theorem emits_assignOperand (d : Destination) (v : Operand) :
    Emits (assignOperand catalog loc d v) := by
  unfold assignOperand
  split
  · exact emits_lowerCall catalog loc _ _ _ _
  · apply (plain_lowerOperand catalog loc v).andThen
    intro e
    exact emits_writeTargets loc _ e

theorem plain_assignTemp (v : Operand) : Plain (assignTemp catalog loc v) := by
  cases v with
  | value e =>
    exact plain_newTemp.bind (g := fun temp s => (temp, s.emit loc (.assign temp e)))
      fun temp => ⟨fun _ => rfl, emits_emit loc _⟩
  | call name receiver args =>
    exact plain_newTemp.bind
      (g := fun temp s => (temp, lowerCall catalog loc (some temp) name receiver args s))
      fun temp => ⟨fun _ => rfl, emits_lowerCall catalog loc _ _ _ _⟩

theorem plain_assignTemps (pairs : List Pair) : Plain (assignTemps catalog loc pairs) := by
  induction pairs with
  | nil => exact plain_pure []
  | cons p pairs ih =>
    exact (plain_assignTemp catalog loc p.value).bind (g := fun temp s =>
        (.var temp :: (assignTemps catalog loc pairs s).1, (assignTemps catalog loc pairs s).2))
      fun temp => ih.bind (g := fun temps s => (.var temp :: temps, s))
        fun temps => plain_pure (.var temp :: temps)

theorem emits_assignPairs (pairs : List Pair) : Emits (assignPairs catalog loc pairs) := by
  unfold assignPairs
  split
  · refine (plain_assignTemps catalog loc pairs).andThen (g := fun temps s =>
      (pairs.zip temps).foldl (fun s x => writeTargets loc x.1.destination.targets x.2 s) s) ?_
    intro temps
    apply Emits.foldl
    intro x
    exact emits_writeTargets loc _ x.2
  · apply Emits.foldl
    intro p
    exact emits_assignOperand catalog loc _ _

theorem emits_lowerWithItem (item : WithItem) :
    Emits fun s => lowerWithItem catalog loc s item := by
  unfold lowerWithItem
  split
  · exact emits_assignOperand catalog loc _ _
  · exact emits_lowerCall catalog loc _ _ _ _
  · exact emits_id

end Operands

end ActorOwnership.Lowering
