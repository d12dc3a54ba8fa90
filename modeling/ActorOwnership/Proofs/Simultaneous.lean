import ActorOwnership.Proofs.Emission
import ActorOwnership.Proofs.Reading
import Mathlib.Data.List.Forall2
import Mathlib.Data.Set.Basic

/-! Assignments of several values at once. The values are read before any target is written, unless
no value mentions a target, and then the order does not matter. -/

namespace ActorOwnership
open Syntax Surface
set_option autoImplicit false

/-! ### Stores -/

/-- The tags that each symbol holds. -/
abbrev Store (α : Type) := Symbol → Set α

namespace Store
variable {α : Type}

def gather (σ : Store α) (xs : List Symbol) : Set α := {d | ∃ x ∈ xs, d ∈ σ x}

/-- All effects of an action at once. A strong effect replaces the tags of its symbol. -/
def write (σ : Store α) (es : List Effect) : Store α := fun x =>
  {d | (∃ e ∈ es, e.symbol = x ∧ d ∈ σ.gather e.sources) ∨
    ((∀ e ∈ es, e.symbol = x → e.strong = false) ∧ d ∈ σ x)}

def exec (sc : Scope) (σ : Store α) (is : List Instr) : Store α :=
  is.foldl (fun σ i => σ.write (sc.effectsOf i.action)) σ

variable {σ τ : Store α} {x : Symbol} {xs : List Symbol}

theorem write_strong : σ.write [⟨x, true, xs⟩] = Function.update σ x (σ.gather xs) := by
  funext y
  ext d
  by_cases hy : y = x
  · simp [write, hy]
  · simp [write, hy, Ne.symm hy]

theorem gather_congr (h : ∀ y ∈ xs, σ y = τ y) : σ.gather xs = τ.gather xs := by
  ext d
  exact exists_congr fun y => and_congr_right fun hy => by rw [h y hy]

@[simp] theorem gather_singleton (x : Symbol) : σ.gather [x] = σ x := by
  simp [gather]

/-- Each target of `ws` with the tags that its sources have in `σ`, the last ones if it stands there
several times, and every other symbol as in `τ`. -/
def assigned (σ : Store α) (ws : List (Symbol × List Symbol)) (τ : Store α) : Store α := fun x =>
  match ws.reverse.find? (·.1 = x) with
  | some w => σ.gather w.2
  | none => τ x

theorem assigned_cons (w : Symbol × List Symbol) (ws : List (Symbol × List Symbol)) :
    σ.assigned (w :: ws) τ = σ.assigned ws (Function.update τ w.1 (σ.gather w.2)) := by
  funext x
  rw [assigned, assigned, List.reverse_cons, List.find?_append]
  cases ws.reverse.find? (·.1 = x) with
  | some _ => rfl
  | none =>
    by_cases hx : w.1 = x
    · simp [hx]
    · simp [hx, Function.update_of_ne (Ne.symm hx)]

theorem assigned_congr (ws : List (Symbol × List Symbol)) {ρ : Store α} (h : σ x = τ x) :
    ρ.assigned ws σ x = ρ.assigned ws τ x := by
  rw [assigned, assigned, h]

theorem exec_cons (sc : Scope) (i : Instr) (is : List Instr) :
    σ.exec sc (i :: is) = (σ.write (sc.effectsOf i.action)).exec sc is := rfl

theorem exec_eq_foldl (sc : Scope) (is : List Instr) :
    σ.exec sc is = (is.map fun i => sc.effectsOf i.action).foldl write σ := List.foldl_map.symm

theorem exec_append (sc : Scope) (is js : List Instr) :
    σ.exec sc (is ++ js) = (σ.exec sc is).exec sc js := List.foldl_append

end Store

namespace Lowering
open State

/-! ### Moves -/

/-- The symbol whose tags are replaced when the target is written. -/
def strongSymbol? (sc : Scope) : Target → Option Symbol
  | .name id => some (sc.symbolOf id)
  | .path _ e => if sc.isSelfField e then sc.resolve e else none

def writeInstr (loc : Location) (value : Exp) : Target → Instr
  | .name id => ⟨loc, .assign id value⟩
  | .path _ e => ⟨loc, .store e value⟩

theorem effectsOf_writeInstr {sc : Scope} {loc : Location} {value : Exp} {target : Target}
    {x : Symbol} (h : strongSymbol? sc target = some x) :
    sc.effectsOf (writeInstr loc value target).action = [⟨x, true, sc.flowing value⟩] := by
  cases target with
  | name id =>
    obtain rfl := Option.some.inj h
    rfl
  | path text e =>
    simp only [strongSymbol?, Option.ite_none_right_eq_some] at h
    simp [writeInstr, Scope.effectsOf, h.1, h.2]

theorem writeTargets_singleton (loc : Location) (target : Target) (value : Exp) (s : State) :
    writeTargets loc [target] value s = s.emitAll [writeInstr loc value target] := by
  have hone : writeTarget loc value s target = s.emitAll [writeInstr loc value target] := by
    cases target <;> rfl
  unfold writeTargets
  split
  · exact hone
  · exact hone

/-- A value, and a place that it replaces the tags of. -/
structure Move (sc : Scope) where
  target : Target
  value : Exp
  symbol : Symbol
  strong : strongSymbol? sc target = some symbol

def Move.binding {sc : Scope} (m : Move sc) : Symbol × List Symbol := (m.symbol, sc.flowing m.value)

section Moves
variable {catalog : Catalog} {loc : Location} {sc : Scope} {pairs : List Pair} {ms : List (Move sc)}

def IsMove (p : Pair) (m : Move sc) : Prop :=
  p.destination.targets = [m.target] ∧ p.value = .value m.value

def direct (loc : Location) (ms : List (Move sc)) : List Instr :=
  ms.map fun m => writeInstr loc m.value m.target

/-- All values go to temporaries first, from the `n`th one on. -/
def reads (loc : Location) (n : Nat) (ms : List (Move sc)) : List Instr :=
  (ms.zipIdx n).map fun x => ⟨loc, .assign (tempName x.2) x.1.value⟩

def writes (loc : Location) (n : Nat) (ms : List (Move sc)) : List Instr :=
  (ms.zipIdx n).map fun x => writeInstr loc (.var (tempName x.2)) x.1.target

def moveCode (loc : Location) (overlap : Bool) (ms : List (Move sc)) (n : Nat) : List Instr :=
  if overlap then reads loc n ms ++ writes loc n ms else direct loc ms

theorem assignOperand_move {p : Pair} {m : Move sc} (h : IsMove p m) (s : State) :
    assignOperand catalog loc p.destination p.value s =
      s.emitAll [writeInstr loc m.value m.target] := by
  rw [h.2, ← writeTargets_singleton, ← h.1]
  cases p.destination <;> rfl

theorem foldl_assignOperand (h : List.Forall₂ IsMove pairs ms) (s : State) :
    pairs.foldl (fun s p => assignOperand catalog loc p.destination p.value s) s =
      s.emitAll (direct loc ms) := by
  induction h generalizing s with
  | nil => rfl
  | cons hm _ ih =>
    rw [List.foldl_cons, ih, assignOperand_move hm]
    rfl

theorem assignTemps_moves (h : List.Forall₂ IsMove pairs ms) (s : State) :
    assignTemps catalog loc pairs s =
      ((ms.zipIdx s.temps).map fun x => .var (tempName x.2),
        (s.emitAll (reads loc s.temps ms)).setTemps (s.temps + ms.length)) := by
  induction h generalizing s with
  | nil => rfl
  | @cons p m pairs ms hm _ ih =>
    have htemp : assignTemp catalog loc p.value s =
        (tempName s.temps, (s.emitAll [⟨loc, .assign (tempName s.temps) m.value⟩]).setTemps
          (s.temps + 1)) := by
      rw [hm.2, assignTemp, ← emit_eq_emitAll, ← emit_setTemps]
      rfl
    have hcount : s.temps + 1 + ms.length = s.temps + (ms.length + 1) := by omega
    rw [assignTemps, htemp]
    simp only [ih, List.zipIdx_cons, List.map_cons, List.length_cons]
    rw [emitAll_setTemps]
    exact Prod.ext rfl (congrArg (s.emitAll (reads loc s.temps (m :: ms))).setTemps hcount)

theorem foldl_writeTargets (h : List.Forall₂ IsMove pairs ms) (n : Nat) (s : State) :
    (pairs.zip ((ms.zipIdx n).map fun x => .var (tempName x.2))).foldl
        (fun s x => writeTargets loc x.1.destination.targets x.2 s) s =
      s.emitAll (writes loc n ms) := by
  induction h generalizing n s with
  | nil => rfl
  | cons hm _ ih =>
    rw [List.zipIdx_cons, List.map_cons, List.zip_cons_cons, List.foldl_cons, ih, hm.1,
      writeTargets_singleton]
    rfl

theorem assignPairs_moves (h : List.Forall₂ IsMove pairs ms) (s : State) :
    assignPairs catalog loc pairs s = (s.emitAll (moveCode loc (overlaps pairs) ms s.temps)).setTemps
      (if overlaps pairs then s.temps + ms.length else s.temps) := by
  rw [assignPairs, moveCode]
  cases overlaps pairs with
  | false =>
    rw [if_neg Bool.false_ne_true, if_neg Bool.false_ne_true, if_neg Bool.false_ne_true,
      foldl_assignOperand h, ← emitAll_setTemps]
    rfl
  | true =>
    rw [if_pos rfl, if_pos rfl, if_pos rfl, assignTemps_moves h, emitAll_append]
    exact (foldl_writeTargets h s.temps _).trans (emitAll_setTemps _ _ _)

theorem emitted_assignPairs (h : List.Forall₂ IsMove pairs ms) (n : Nat) :
    emitted (assignPairs catalog loc pairs) n = moveCode loc (overlaps pairs) ms n :=
  emitted_of (moveCode loc (overlaps pairs) ms)
    (fun n => if overlaps pairs then n + ms.length else n) (assignPairs_moves h) n

theorem not_mem_mentions (h : overlaps pairs = false) {p q : Pair} (hp : p ∈ pairs) (hq : q ∈ pairs)
    {target : Target} (htarget : target ∈ p.destination.targets) : target.text ∉ q.mentions := by
  intro hmention
  have hnames : target.text ∈ pairs.flatMap fun p => p.destination.targets.map Target.text :=
    List.mem_flatMap.mpr ⟨p, hp, List.mem_map_of_mem htarget⟩
  have hnone := List.any_eq_false.mp h q hq
  exact hnone (List.any_eq_true.mpr ⟨_, hmention, List.contains_iff_mem.mpr hnames⟩)

end Moves

/-! ### Execution -/

theorem tempName_injective {m n : Nat} (h : tempName m = tempName n) : m = n := by
  have hrepr : m.repr = n.repr := (String.append_right_inj _).mp h
  rw [Nat.repr_eq_ofList_toDigits, Nat.repr_eq_ofList_toDigits, String.ofList_inj] at hrepr
  have hread := congrArg (Nat.ofDigitChars 10 · 0) hrepr
  simpa only [Nat.ofDigitChars_toDigits (b := 10) (by decide) (by decide)] using hread

/-- The symbol is none of those that hold a temporary. -/
def Lasting (sc : Scope) (x : Symbol) : Prop := ∀ n, x ≠ sc.symbolOf (tempName n)

section Execution
variable {α : Type} {sc : Scope} {loc : Location} {ms : List (Move sc)} {σ τ : Store α} {x : Symbol}

theorem write_writeInstr (m : Move sc) (value : Exp) :
    σ.write (sc.effectsOf (writeInstr loc value m.target).action) =
      Function.update σ m.symbol (σ.gather (sc.flowing value)) := by
  rw [effectsOf_writeInstr m.strong, Store.write_strong]

/-- If no value comes from a target, then the order of the moves does not matter. -/
theorem exec_direct (hapart : ∀ m ∈ ms, ∀ m' ∈ ms, m.symbol ∉ sc.flowing m'.value)
    (hsame : ∀ m ∈ ms, ∀ y ∈ sc.flowing m.value, τ y = σ y) :
    τ.exec sc (direct loc ms) = σ.assigned (ms.map Move.binding) τ := by
  induction ms generalizing τ with
  | nil => rfl
  | cons m ms ih =>
    -- The later values are still as in `σ`, since none of them comes from the target of `m`.
    have hm : m ∈ m :: ms := List.mem_cons_self
    rw [direct, List.map_cons, Store.exec_cons, write_writeInstr, Store.gather_congr (hsame m hm),
      List.map_cons, Store.assigned_cons, ← direct]
    refine ih (fun a ha b hb => hapart a (List.mem_cons_of_mem m ha) b (List.mem_cons_of_mem m hb)) ?_
    intro m' hm' y hy
    have hne : y ≠ m.symbol := by
      rintro rfl
      exact hapart m hm m' (List.mem_cons_of_mem m hm') hy
    rw [Function.update_of_ne hne]
    exact hsame m' (List.mem_cons_of_mem m hm') y hy

/-- The temporaries from the `n`th one on take the tags of the values, and nothing else changes. -/
theorem exec_reads (loc : Location) (σ : Store α)
    (hlasting : ∀ m ∈ ms, ∀ y ∈ sc.flowing m.value, Lasting sc y) (n : Nat) :
    (∀ y, (∀ k, n ≤ k → y ≠ sc.symbolOf (tempName k)) → σ.exec sc (reads loc n ms) y = σ y) ∧
      ∀ p ∈ ms.zipIdx n, σ.exec sc (reads loc n ms) (sc.symbolOf (tempName p.2)) =
        σ.gather (sc.flowing p.1.value) := by
  induction ms generalizing n σ with
  | nil => exact ⟨fun _ _ => rfl, by simp⟩
  | cons m ms ih =>
    have hfirst : σ.exec sc (reads loc n (m :: ms)) = Store.exec sc
        (Function.update σ (sc.symbolOf (tempName n)) (σ.gather (sc.flowing m.value)))
        (reads loc (n + 1) ms) := by
      rw [reads, List.zipIdx_cons, List.map_cons, Store.exec_cons, Scope.effectsOf,
        Store.write_strong]
      rfl
    have hms : ∀ m' ∈ ms, ∀ y ∈ sc.flowing m'.value, Lasting sc y :=
      fun m' hm' => hlasting m' (List.mem_cons_of_mem m hm')
    rw [hfirst]
    obtain ⟨hrest, htemps⟩ := ih (Function.update σ (sc.symbolOf (tempName n)) _) hms (n + 1)
    constructor
    · intro y hy
      rw [hrest y fun k hk => hy k (by omega), Function.update_of_ne (hy n le_rfl)]
    · intro p hp
      rw [List.zipIdx_cons, List.mem_cons] at hp
      rcases hp with rfl | hp
      · have hlater : ∀ k, n + 1 ≤ k → sc.symbolOf (tempName n) ≠ sc.symbolOf (tempName k) := by
          intro k hk heq
          have := tempName_injective (Scope.symbolOf_injective heq)
          omega
        rw [hrest _ hlater, Function.update_self]
      · rw [htemps p hp]
        apply Store.gather_congr
        intro y hy
        exact Function.update_of_ne (hms p.1 (List.fst_mem_of_mem_zipIdx hp) y hy n) _ _

theorem exec_writes (hlasting : ∀ m ∈ ms, Lasting sc m.symbol) (n : Nat)
    (htemps : ∀ p ∈ ms.zipIdx n, τ (sc.symbolOf (tempName p.2)) = σ.gather (sc.flowing p.1.value)) :
    τ.exec sc (writes loc n ms) = σ.assigned (ms.map Move.binding) τ := by
  induction ms generalizing n τ with
  | nil => rfl
  | cons m ms ih =>
    have hm : τ.gather (sc.flowing (.var (tempName n))) = σ.gather (sc.flowing m.value) := by
      rw [Scope.flowing, Store.gather_singleton]
      exact htemps (m, n) (by rw [List.zipIdx_cons]; exact List.mem_cons_self)
    rw [writes, List.zipIdx_cons, List.map_cons, Store.exec_cons, write_writeInstr, hm,
      List.map_cons, Store.assigned_cons, ← writes]
    refine ih (fun m' hm' => hlasting m' (List.mem_cons_of_mem m hm')) (n + 1) ?_
    intro p hp
    rw [Function.update_of_ne (hlasting m List.mem_cons_self p.2).symm]
    exact htemps p (by rw [List.zipIdx_cons]; exact List.mem_cons_of_mem _ hp)

/-- The moves take place at once, as far as lasting symbols are concerned. -/
theorem exec_moveCode {overlap : Bool} (n : Nat)
    (htargets : ∀ m ∈ ms, Lasting sc m.symbol)
    (hvalues : ∀ m ∈ ms, ∀ y ∈ sc.flowing m.value, Lasting sc y)
    (hapart : overlap = false → ∀ m ∈ ms, ∀ m' ∈ ms, m.symbol ∉ sc.flowing m'.value)
    (hx : Lasting sc x) : σ.exec sc (moveCode loc overlap ms n) x =
      σ.assigned (ms.map Move.binding) σ x := by
  cases overlap with
  | false => exact congrFun (exec_direct (hapart rfl) fun _ _ _ _ => rfl) x
  | true =>
    -- The temporaries hold the tags of all values before the first target is written.
    obtain ⟨hrest, htemps⟩ := exec_reads loc σ hvalues n
    rw [moveCode, if_pos rfl, Store.exec_append, exec_writes htargets n htemps]
    exact Store.assigned_congr _ (hrest x fun k _ => hx k)

end Execution

/-! ### Assignments in a tree -/

def elementsOf (t : Tree) : List Tree :=
  t.namedChildren.filter fun c => c.kind ≠ .comment ∧ c.kind ≠ .lineContinuation

/-- What the targets take, each from the value beside it. -/
def bindingsOf (src : Source) (sc : Scope) (left values : Tree) : List (Symbol × List Symbol) :=
  ((elementsOf left).zip (elementsOf values)).filterMap fun p =>
    (symbolOfTree? src sc p.1).map fun x => (x, sc.flowing (expOfTree src p.2))

/-- Equally many targets and values without splats and line continuations. The targets are names and
fields of the receiver, no value has a call, a field of the receiver is spelled in one way only, and
no name looks like a temporary. -/
structure TupleAssignment (src : Source) (sc : Scope) (t left values : Tree) : Prop where
  kind : t.kind = .assignment
  left_eq : t.child? "left" = some left
  values_eq : (t.child? "right").map unwrap = some values
  targetList : left.kind.isCollection = true
  valueList : values.kind = .expressionList ∨ values.kind = .tupleDisplay ∨ values.kind = .listDisplay
  arity : (elementsOf left).length = (elementsOf values).length
  noSplat : ∀ c ∈ elementsOf left ++ elementsOf values, isSplat c = false
  noContinuation : ∀ c ∈ left.namedChildren ++ values.namedChildren, c.kind ≠ .lineContinuation
  targets : ∀ c ∈ elementsOf left, (symbolOfTree? src sc c).isSome = true
  callFree : ∀ c ∈ elementsOf values, CallFree c
  spelling : ∀ d ∈ t.subtrees, ∀ d' ∈ t.subtrees, (ownField? src sc d).isSome = true →
    ownField? src sc d = ownField? src sc d' → src.text d = src.text d'
  names : ∀ d ∈ t.subtrees, d.kind = .identifier → ¬ "__tmp_".toList <+: (src.text d).toList
  tokens : BareTokens t

section Trees
variable {src : Source} {sc : Scope} {t left values d d' : Tree} {x y : Symbol}

theorem pairElements_eq (h : ∀ c ∈ t.namedChildren, c.kind ≠ .lineContinuation) :
    pairElements t = elementsOf t := by
  apply List.filter_congr
  intro c hc
  simp [notComment, h c hc]

theorem mem_bindingsOf {w : Symbol × List Symbol} (hw : w ∈ bindingsOf src sc left values) :
    ∃ p ∈ (elementsOf left).zip (elementsOf values), symbolOfTree? src sc p.1 = some w.1 ∧
      sc.flowing (expOfTree src p.2) = w.2 := by
  obtain ⟨p, hp, hw⟩ := List.mem_filterMap.mp hw
  obtain ⟨x, hx, rfl⟩ := Option.map_eq_some_iff.mp hw
  exact ⟨p, hp, hx, rfl⟩

theorem unwrap_of_plain (h : t.kind.isWrapper = false) : unwrap t = t := by
  rw [unwrap_eq, h]

theorem targets_of_symbol (h : symbolOfTree? src sc d = some x) :
    ∃ target, (destinationOf src d).targets = [target] ∧ strongSymbol? sc target = some x ∧
      target.text = src.text d := by
  rcases symbolOfTree?_cases h with ⟨hkind, rfl⟩ | ⟨f, hf, rfl⟩
  · rw [destinationOf, if_pos hkind]
    exact ⟨.name (src.text d), rfl, rfl, rfl⟩
  · obtain ⟨hkind, self, hexp, hself⟩ := ownField?_eq_some hf
    refine ⟨.path (src.text d) (expOfTree src d), ?_, ?_, rfl⟩
    · rw [destinationOf, if_neg (by simp [hkind]), Destination.targets, targetsOf, Tree.fold_eq,
        hkind]
    · simp [strongSymbol?, hexp, Scope.isSelfField, Scope.isSelf, Scope.resolve, hself]

theorem exists_move (hx : symbolOfTree? src sc d = some x) (hcalls : CallFree d') :
    ∃ m : Move sc, IsMove ⟨destinationOf src d, operandOfTree src d', mentionsOf src d'⟩ m ∧
      m.binding = (x, sc.flowing (expOfTree src d')) := by
  obtain ⟨target, htargets, hstrong, -⟩ := targets_of_symbol hx
  exact ⟨⟨target, expOfTree src d', x, hstrong⟩, ⟨htargets, operandOfTree_callFree hcalls⟩, rfl⟩

theorem exists_moves (ps : List (Tree × Tree))
    (htargets : ∀ p ∈ ps, (symbolOfTree? src sc p.1).isSome = true) (hcalls : ∀ p ∈ ps, CallFree p.2) :
    ∃ ms : List (Move sc),
      List.Forall₂ IsMove
        (ps.map fun (t, v) => ⟨destinationOf src t, operandOfTree src v, mentionsOf src v⟩) ms ∧
      ps.filterMap (fun p => (symbolOfTree? src sc p.1).map fun x =>
        (x, sc.flowing (expOfTree src p.2))) = ms.map Move.binding := by
  induction ps with
  | nil => exact ⟨[], .nil, rfl⟩
  | cons p ps ih =>
    obtain ⟨ms, hms, hbindings⟩ := ih (fun q hq => htargets q (List.mem_cons_of_mem p hq))
      fun q hq => hcalls q (List.mem_cons_of_mem p hq)
    obtain ⟨x, hx⟩ := Option.isSome_iff_exists.mp (htargets p List.mem_cons_self)
    obtain ⟨m, hm, hbinding⟩ := exists_move hx (hcalls p List.mem_cons_self)
    refine ⟨m :: ms, .cons hm hms, ?_⟩
    rw [List.filterMap_cons, hx, List.map_cons, hbinding, ← hbindings]
    rfl

namespace TupleAssignment
variable (h : TupleAssignment src sc t left values)
include h

theorem pairElements_left : pairElements left = elementsOf left :=
  pairElements_eq fun c hc => h.noContinuation c (List.mem_append_left _ hc)

theorem pairElements_values : pairElements values = elementsOf values :=
  pairElements_eq fun c hc => h.noContinuation c (List.mem_append_right _ hc)

theorem statements_eq :
    assignmentStatements src t = [.assignEach (locationOf src t) (pairsOf src left values)] := by
  obtain ⟨right, hright, rfl⟩ := Option.map_eq_some_iff.mp h.values_eq
  have hsingle : right.kind ≠ .assignment := by
    intro heq
    have hvalues := h.valueList
    rw [unwrap_of_plain (by rw [heq]; rfl), heq] at hvalues
    simp at hvalues
  have hsplat : (elementsOf left ++ elementsOf (unwrap right)).any isSplat = false :=
    List.any_eq_false.mpr fun c hc => by simp [h.noSplat c hc]
  have hpairwise : isPairwise left (unwrap right) = true := by
    rw [isPairwise, h.pairElements_left, h.pairElements_values, hsplat]
    simpa [h.targetList, h.arity, or_assoc] using h.valueList
  have hsimple : simpleAssignment src t left =
      [.assignEach (locationOf src t) (pairsOf src left (unwrap right))] := by
    unfold simpleAssignment
    split
    · rename_i hleft
      have := h.targetList
      simp [hleft, Kind.isCollection] at this
    · simp [hright, hpairwise]
  have hfind : (t.children.map fun c => (c, assignmentStatements src c)).find?
      (fun k => k.1.field == some "right") = some (right, assignmentStatements src right) := by
    rw [List.find?_map]
    exact congrArg (Option.map _) hright
  unfold assignmentStatements at hfind ⊢
  rw [Tree.fold_eq, h.kind, h.left_eq, hfind]
  exact (if_neg hsingle).trans hsimple

theorem target_mem (hd : d ∈ elementsOf left) : d ∈ t.subtrees := by
  have hd : d ∈ left.children := Tree.mem_children_of_named (List.mem_filter.mp hd).1
  exact Tree.mem_subtrees_of_child (Tree.mem_children_of_child? h.left_eq)
    (Tree.mem_subtrees_of_child hd d.self_mem_subtrees)

theorem value_mem (hd : d ∈ elementsOf values) : d ∈ t.subtrees := by
  obtain ⟨right, hright, rfl⟩ := Option.map_eq_some_iff.mp h.values_eq
  have hd : d ∈ (unwrap right).children := Tree.mem_children_of_named (List.mem_filter.mp hd).1
  refine Tree.mem_subtrees_of_child (Tree.mem_children_of_child? hright) ?_
  exact Tree.subtrees_trans (Tree.mem_subtrees_of_child hd d.self_mem_subtrees)
    (unwrap_mem_subtrees right)

theorem lasting (hd : d ∈ t.subtrees) (hx : symbolOfTree? src sc d = some x) : Lasting sc x := by
  intro n heq
  rcases symbolOfTree?_cases hx with ⟨hkind, rfl⟩ | ⟨f, -, rfl⟩
  · refine h.names d hd hkind ?_
    rw [Scope.symbolOf_injective heq, tempName, String.toList_append]
    exact List.prefix_append _ _
  · exact Scope.symbolOf_ne_fieldOf _ _ heq.symm

theorem text_eq (hd : d ∈ t.subtrees) (hd' : d' ∈ t.subtrees) (hx : symbolOfTree? src sc d = some x)
    (hx' : symbolOfTree? src sc d' = some x) : src.text d = src.text d' := by
  rcases symbolOfTree?_cases hx with ⟨-, rfl⟩ | ⟨f, hf, rfl⟩
  · rcases symbolOfTree?_cases hx' with ⟨-, heq⟩ | ⟨f', -, heq⟩
    · exact Scope.symbolOf_injective heq
    · exact absurd heq (Scope.symbolOf_ne_fieldOf _ _)
  · rcases symbolOfTree?_cases hx' with ⟨-, heq⟩ | ⟨f', hf', heq⟩
    · exact absurd heq.symm (Scope.symbolOf_ne_fieldOf _ _)
    · refine h.spelling d hd d' hd' (by rw [hf]; rfl) ?_
      have hname : f = f' := congrArg Symbol.name heq
      rw [hf, hf', hname]

theorem mentioned (hd : d ∈ elementsOf values) (hx : x ∈ sc.flowing (expOfTree src d)) :
    Mentioned src sc d x := by
  have htokens : BareTokens d := fun c hc => h.tokens c (Tree.subtrees_trans hc (h.value_mem hd))
  exact (mentioned_reading (h.callFree d hd) htokens).1 x hx

theorem moves : ∃ ms : List (Move sc), List.Forall₂ IsMove (pairsOf src left values) ms ∧
    bindingsOf src sc left values = ms.map Move.binding := by
  rw [pairsOf, h.pairElements_left, h.pairElements_values]
  exact exists_moves _ (fun p hp => h.targets p.1 (List.of_mem_zip hp).1)
    fun p hp => h.callFree p.2 (List.of_mem_zip hp).2

/-- If no value mentions a target, then no value comes from one. -/
theorem apart (hoverlaps : overlaps (pairsOf src left values) = false) {p q : Tree × Tree}
    (hp : p ∈ (elementsOf left).zip (elementsOf values))
    (hq : q ∈ (elementsOf left).zip (elementsOf values))
    (hx : symbolOfTree? src sc p.1 = some x) : x ∉ sc.flowing (expOfTree src q.2) := by
  intro hflows
  obtain ⟨d, hd, htext, hx'⟩ := h.mentioned (List.of_mem_zip hq).2 hflows
  obtain ⟨target, htargets, -, htarget⟩ := targets_of_symbol hx
  -- The symbol has one spelling, so the value mentions the text of the target.
  have heq : src.text d = target.text := by
    rw [htarget]
    exact h.text_eq (Tree.subtrees_trans hd (h.value_mem (List.of_mem_zip hq).2))
      (h.target_mem (List.of_mem_zip hp).1) hx' hx
  rw [pairsOf, h.pairElements_left, h.pairElements_values] at hoverlaps
  have hmem : target ∈ (destinationOf src p.1).targets := by
    rw [htargets]
    exact List.mem_singleton_self target
  refine not_mem_mentions hoverlaps (List.mem_map_of_mem hp) (List.mem_map_of_mem hq) hmem ?_
  rwa [← heq]

end TupleAssignment

/-- An assignment of several values takes place at once: each target has the tags that its own value
has in the store before, and every other symbol that is not a temporary keeps its tags. -/
theorem assignment_simultaneous {α : Type} (h : TupleAssignment src sc t left values) (catalog : Catalog)
    (loop : Option Loop) :
    Emits (lowerBlock catalog loop (assignmentStatements src t)) ∧
      ∀ (n : Nat) (σ : Store α) (x : Symbol), Lasting sc x →
        σ.exec sc (emitted (lowerBlock catalog loop (assignmentStatements src t)) n) x =
          σ.assigned (bindingsOf src sc left values) σ x := by
  obtain ⟨ms, hms, hbindings⟩ := h.moves
  have hlower : lowerBlock catalog loop (assignmentStatements src t) =
      assignPairs catalog (locationOf src t) (pairsOf src left values) := by
    funext s
    rw [h.statements_eq, lowerBlock, lowerBlock, lowerStmt]
  have hmove : ∀ m ∈ ms, m.binding ∈ bindingsOf src sc left values :=
    fun m hm => hbindings ▸ List.mem_map_of_mem hm
  rw [hlower]
  refine ⟨emits_assignPairs catalog _ _, ?_⟩
  intro n σ x hx
  rw [emitted_assignPairs hms, hbindings]
  refine exec_moveCode n ?_ ?_ ?_ hx
  · intro m hm
    obtain ⟨p, hp, hsymbol, -⟩ := mem_bindingsOf (hmove m hm)
    exact h.lasting (h.target_mem (List.of_mem_zip hp).1) hsymbol
  · intro m hm y hy
    obtain ⟨p, hp, -, (hflows : _ = sc.flowing m.value)⟩ := mem_bindingsOf (hmove m hm)
    obtain ⟨d, hd, -, hsymbol⟩ := h.mentioned (List.of_mem_zip hp).2 (hflows ▸ hy)
    exact h.lasting (Tree.subtrees_trans hd (h.value_mem (List.of_mem_zip hp).2)) hsymbol
  · intro hoverlaps m hm m' hm'
    obtain ⟨p, hp, hsymbol, -⟩ := mem_bindingsOf (hmove m hm)
    obtain ⟨q, hq, -, (hflows : _ = sc.flowing m'.value)⟩ := mem_bindingsOf (hmove m' hm')
    exact hflows ▸ h.apart hoverlaps hp hq hsymbol

end Trees

/-! ### Two swaps -/

def swapScope : Scope where
  procedure := { name := "C.m", params := [("self", .unknown), ("a", .unknown)], isMethod := true,
                 className := some "C" }

def swapSource : Source := .ofText "" "self.f, a = a, self.f"

def ownFieldAt (start : Nat) : Tree :=
  .inLine .attribute none start (start + 6) [.inLine .identifier (some "object") start (start + 4) [],
    .inLine .identifier (some "attribute") (start + 5) (start + 6) []]

def swapTargets : Tree :=
  .inLine .patternList (some "left") 0 9 [ownFieldAt 0, .inLine .identifier none 8 9 []]

def swapValues : Tree :=
  .inLine .expressionList (some "right") 12 21 [.inLine .identifier none 12 13 [], ownFieldAt 15]

def swap : Tree := .inLine .assignment none 0 21 [swapTargets, swapValues]

theorem tupleAssignment_swap : TupleAssignment swapSource swapScope swap swapTargets swapValues where
  kind := rfl
  left_eq := rfl
  values_eq := rfl
  targetList := rfl
  valueList := Or.inl rfl
  arity := rfl
  noSplat := by decide
  noContinuation := by decide
  targets := by decide +kernel
  callFree := by decide
  spelling := by decide +kernel
  names := by decide +kernel
  tokens := by decide

/-- A field of the receiver and a variable change places. -/
theorem assignment_simultaneous_swap :
    TupleAssignment swapSource swapScope swap swapTargets swapValues ∧ ∀ σ : Store Nat,
      let τ := σ.exec swapScope (emitted (lowerBlock [] none (assignmentStatements swapSource swap)) 0)
      τ (swapScope.fieldOf "f") = σ (swapScope.symbolOf "a") ∧
        τ (swapScope.symbolOf "a") = σ (swapScope.fieldOf "f") := by
  refine ⟨tupleAssignment_swap, fun σ => ?_⟩
  have hbindings : bindingsOf swapSource swapScope swapTargets swapValues =
      [(swapScope.fieldOf "f", [swapScope.symbolOf "a"]),
        (swapScope.symbolOf "a", [swapScope.fieldOf "f"])] := by decide +kernel
  have hlasting : ∀ d ∈ elementsOf swapTargets, ∀ x, symbolOfTree? swapSource swapScope d = some x →
      Lasting swapScope x :=
    fun d hd x => tupleAssignment_swap.lasting (tupleAssignment_swap.target_mem hd)
  have hfield : Lasting swapScope (swapScope.fieldOf "f") :=
    hlasting _ List.mem_cons_self _ (by decide +kernel)
  have hname : Lasting swapScope (swapScope.symbolOf "a") :=
    hlasting _ (List.mem_cons_of_mem _ List.mem_cons_self) _ (by decide +kernel)
  have hexec := (assignment_simultaneous tupleAssignment_swap [] none).2 0 σ
  rw [hbindings] at hexec
  refine ⟨(hexec _ hfield).trans ?_, (hexec _ hname).trans ?_⟩
  · exact σ.gather_singleton _
  · exact σ.gather_singleton _

def continuedScope : Scope where
  procedure := { name := "f", params := [("a", .unknown), ("b", .unknown)] }

def continuedSource : Source := .ofText "" "a, b = b, \\\na"

def continuedTargets : Tree := .inLine .patternList (some "left") 0 4
  [.inLine .identifier none 0 1 [], .inLine .identifier none 3 4 []]

def continuedValues : Tree := .inLine .expressionList (some "right") 7 13
  [.inLine .identifier none 7 8 [], .inLine .lineContinuation none 10 12 [],
    .inLine .identifier none 12 13 []]

def continuedSwap : Tree := .inLine .assignment none 0 13 [continuedTargets, continuedValues]

/-- A line that goes on counts as one more value, so both targets take both values. -/
theorem continued_swap_not_simultaneous :
    (elementsOf continuedTargets).length = (elementsOf continuedValues).length ∧ ∃ σ : Store Nat,
      σ.exec continuedScope
          (emitted (lowerBlock [] none (assignmentStatements continuedSource continuedSwap)) 0)
          (continuedScope.symbolOf "a") ≠
        σ.assigned (bindingsOf continuedSource continuedScope continuedTargets continuedValues) σ
          (continuedScope.symbolOf "a") := by
  let a := continuedScope.symbolOf "a"
  let b := continuedScope.symbolOf "b"
  have heffects :
      (emitted (lowerBlock [] none (assignmentStatements continuedSource continuedSwap)) 0).map
        (fun i => continuedScope.effectsOf i.action) =
      [[⟨a, true, [b, a]⟩], [⟨b, true, [b, a]⟩]] := by
    decide +kernel
  have hbindings : bindingsOf continuedSource continuedScope continuedTargets continuedValues =
      [(a, [b]), (b, [a])] := by decide +kernel
  have hab : a ≠ b := by decide
  -- Only `a` has a tag at first, so `b` has none to give.
  let σ : Store Nat := fun x => {n | x = a}
  have hright : σ.assigned [(a, [b]), (b, [a])] σ a = σ b := by
    simp [Store.assigned, hab.symm]
  refine ⟨rfl, σ, fun heq => ?_⟩
  rw [Store.exec_eq_foldl, heffects, hbindings, hright, List.foldl_cons, List.foldl_cons, List.foldl_nil,
    Store.write_strong, Store.write_strong, Function.update_of_ne hab, Function.update_self] at heq
  have hmem : 0 ∈ σ.gather [b, a] := ⟨a, List.mem_cons_of_mem b List.mem_cons_self, rfl⟩
  rw [heq] at hmem
  exact hab hmem.symm

end Lowering

end ActorOwnership
