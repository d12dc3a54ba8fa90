import ActorOwnership.Flow.Effect
import ActorOwnership.Surface.StatementOfTree

/-! Readings of syntax trees, node by node, and where the value of an expression comes from. In a
value without calls every symbol that flows into it is mentioned: a variable by its name, a field of
the receiver by the text of its access path. -/

namespace ActorOwnership
open Syntax Surface
set_option autoImplicit false

/-! ### Trees -/

namespace Syntax.Tree

theorem induct {P : Tree → Prop} (h : ∀ t, (∀ c ∈ t.children, P c) → P t) : ∀ t, P t
  | .node kind start stop named field children =>
    h (.node kind start stop named field children) fun c (_ : c ∈ children) => induct h c

/-- All nodes at or below a node. -/
def subtrees (t : Tree) : List Tree := t.fold fun t kids => t :: kids.flatMap Prod.snd

theorem mem_subtrees {d t : Tree} : d ∈ t.subtrees ↔ d = t ∨ ∃ c ∈ t.children, d ∈ c.subtrees := by
  rw [subtrees, fold_eq, List.flatMap_map]
  simp [subtrees]

theorem self_mem_subtrees (t : Tree) : t ∈ t.subtrees := mem_subtrees.mpr (Or.inl rfl)

theorem mem_subtrees_of_child {c d t : Tree} (hc : c ∈ t.children) (hd : d ∈ c.subtrees) :
    d ∈ t.subtrees := mem_subtrees.mpr (Or.inr ⟨c, hc, hd⟩)

theorem subtrees_trans {c d t : Tree} (hd : d ∈ c.subtrees) (hc : c ∈ t.subtrees) : d ∈ t.subtrees := by
  induction t using induct with
  | h t ih =>
    rcases mem_subtrees.mp hc with rfl | ⟨c', hc', hc⟩
    · exact hd
    · exact mem_subtrees_of_child hc' (ih c' hc' hc)

theorem mem_children_of_named {c t : Tree} (hc : c ∈ t.namedChildren) : c ∈ t.children :=
  (List.mem_filter.mp hc).1

theorem mem_children_of_child? {c t : Tree} {f : String} (hc : t.child? f = some c) :
    c ∈ t.children := List.mem_of_find?_eq_some hc

/-- A node in a source of one line. -/
def inLine (kind : Kind) (field : Option String) (start stop : Nat) (children : List Tree) : Tree :=
  .node kind ⟨start, 0, start⟩ ⟨stop, 0, stop⟩ true field children

def word (field : Option String) (start stop : Nat) : Tree := inLine .identifier field start stop []

/-- An attribute of a name; the dot is at `dot`. -/
def dotted (field : Option String) (start dot stop : Nat) : Tree :=
  inLine .attribute field start stop
    [word (some "object") start dot, word (some "attribute") (dot + 1) stop]

/-- A call of a name; the arguments open at `paren`. -/
def plainCall (field : Option String) (start paren stop : Nat) (args : List Tree) : Tree :=
  inLine .call field start stop
    [word (some "function") start paren, inLine .argumentList (some "arguments") paren stop args]

def methodCall (field : Option String) (start dot paren stop : Nat) (args : List Tree) : Tree :=
  inLine .call field start stop [dotted (some "function") start dot paren,
    inLine .argumentList (some "arguments") paren stop args]

/-- A module that is a class with a name of one letter. -/
def classModule (stop : Nat) (members : List Tree) : Tree :=
  inLine .module none 0 stop [inLine .classDefinition none 0 stop
    [word (some "name") 6 7, inLine .block (some "body") 9 stop members]]

end Syntax.Tree

/-- A place in a source of one line. -/
def Location.onLine (start stop : Nat) : Location := ⟨"", 1, start, some 1, some stop⟩

/-! ### Readings -/

namespace Surface
variable {src : Source} {t : Tree}

def kidsOf (src : Source) (t : Tree) : Reading.Kids := t.children.map fun c => (c, readingOf src c)

theorem readingOf_eq (src : Source) (t : Tree) :
    readingOf src t = Reading.step src t (kidsOf src t) := Tree.fold_eq _ t

theorem find?_field_map {α : Type} (f : Tree → α) (r : String) :
    (t.children.map fun c => (c, f c)).find? (fun k => k.1.field == some r) =
      (t.child? r).map fun c => (c, f c) := by
  simp only [Tree.child?, List.find?_map, Function.comp_def]

theorem child?_map {α : Type} (f : Tree → α) (r : String) :
    Folded.child? (t.children.map fun c => (c, f c)) r = (t.child? r).map f := by
  rw [Folded.child?, find?_field_map, Option.map_map]
  rfl

theorem child?_kidsOf (f : String) :
    Folded.child? (kidsOf src t) f = (t.child? f).map (readingOf src) :=
  child?_map (readingOf src) f

theorem named_map {α : Type} (f : Tree → α) :
    Folded.named (t.children.map fun c => (c, f c)) = t.namedChildren.map f := by
  simp [Folded.named, Tree.namedChildren, List.filter_map, Function.comp_def]

theorem named_kidsOf : Folded.named (kidsOf src t) = t.namedChildren.map (readingOf src) :=
  named_map (readingOf src)

theorem expOf_kidsOf (f : String) : Reading.expOf (kidsOf src t) f = expOfTree? src (t.child? f) := by
  rw [Reading.expOf, child?_kidsOf, expOfTree?, Option.map_map]
  rfl

theorem operandOfTree_eq (src : Source) (t : Tree) :
    operandOfTree src t = Reading.operandOf src t (kidsOf src t) := by
  rw [operandOfTree, readingOf_eq]
  rfl

theorem expOfTree_eq (src : Source) (t : Tree) : expOfTree src t = (operandOfTree src t).toExp := by
  rw [expOfTree, operandOfTree, readingOf_eq]
  rfl

/-- Parentheses and `await` stand for their first part. -/
theorem operandOfTree_wrapper (ht : t.kind.isWrapper = true) {c : Tree} {cs : List Tree}
    (hcs : t.namedChildren = c :: cs) : operandOfTree src t = operandOfTree src c := by
  rw [operandOfTree_eq, Reading.operandOf, ht, named_kidsOf, hcs]
  rfl

theorem operandOfTree_plain (ht : t.kind.isWrapper = false ∨ t.namedChildren = [])
    (hcall : t.kind ≠ .call) :
    operandOfTree src t = .value (Reading.plainExp src t (kidsOf src t)) := by
  rw [operandOfTree_eq, Reading.operandOf, named_kidsOf]
  rcases ht with ht | ht
  · rw [ht]
    exact if_neg hcall
  · rw [ht]
    cases t.kind.isWrapper <;> exact if_neg hcall

theorem operandOfTree_cases (src : Source) (hcall : t.kind ≠ .call) :
    (∃ c ∈ t.namedChildren, operandOfTree src t = operandOfTree src c) ∨
      operandOfTree src t = .value (Reading.plainExp src t (kidsOf src t)) := by
  cases hwrap : t.kind.isWrapper with
  | false => exact Or.inr (operandOfTree_plain (Or.inl hwrap) hcall)
  | true =>
    cases hcs : t.namedChildren with
    | nil => exact Or.inr (operandOfTree_plain (Or.inr hcs) hcall)
    | cons c cs => exact Or.inl ⟨c, List.mem_cons_self, operandOfTree_wrapper hwrap hcs⟩

theorem unwrap_eq (t : Tree) : unwrap t =
    match t.kind.isWrapper, t.namedChildren with
    | true, c :: _ => unwrap c
    | _, _ => t := by
  have hfold : unwrap t = match t.kind.isWrapper, t.namedChildren.map unwrap with
      | true, inner :: _ => inner
      | _, _ => t := by
    rw [← named_map]
    exact Tree.fold_eq _ t
  rw [hfold]
  cases t.kind.isWrapper <;> cases t.namedChildren <;> rfl

theorem isWrapper_unwrap (t : Tree) :
    (unwrap t).kind.isWrapper = false ∨ (unwrap t).namedChildren = [] := by
  induction t using Tree.induct with
  | h t ih =>
    rw [unwrap_eq]
    split
    · rename_i c rest _ heq
      exact ih c (Tree.mem_children_of_named (heq ▸ List.mem_cons_self))
    · rename_i hstop
      cases hwrap : t.kind.isWrapper with
      | false => exact Or.inl rfl
      | true =>
        cases hnamed : t.namedChildren with
        | nil => exact Or.inr rfl
        | cons c rest => exact absurd hnamed (hstop c rest hwrap)

theorem operandOfTree_unwrap (src : Source) (t : Tree) :
    operandOfTree src (unwrap t) = operandOfTree src t := by
  induction t using Tree.induct with
  | h t ih =>
    rw [unwrap_eq]
    split
    · rename_i c rest hwrap heq
      rw [ih c (Tree.mem_children_of_named (heq ▸ List.mem_cons_self)), operandOfTree_wrapper hwrap heq]
    · rfl

theorem unwrap_mem_subtrees (t : Tree) : unwrap t ∈ t.subtrees := by
  induction t using Tree.induct with
  | h t ih =>
    rw [unwrap_eq]
    split
    · rename_i c rest _ heq
      have hc : c ∈ t.children := Tree.mem_children_of_named (heq ▸ List.mem_cons_self)
      exact Tree.mem_subtrees_of_child hc (ih c hc)
    · exact t.self_mem_subtrees

theorem argument_eq (src : Source) (t : Tree) : (readingOf src t).argument =
    Reading.argumentOf src t (kidsOf src t) (operandOfTree src t) := by
  rw [operandOfTree, readingOf_eq]
  rfl

theorem arguments_eq (src : Source) (t : Tree) : (readingOf src t).arguments =
    if t.kind = .generatorExpression then [.mk none (operandOfTree src t)]
    else t.children.flatMap fun c => (readingOf src c).argument := by
  have hkids : (kidsOf src t).flatMap (fun k => k.2.argument) =
      t.children.flatMap fun c => (readingOf src c).argument := by
    rw [kidsOf, List.flatMap_map]
  rw [operandOfTree, readingOf_eq, ← hkids]
  rfl

theorem referencesBelow_kidsOf : Reading.referencesBelow (kidsOf src t) =
    t.namedChildren.flatMap fun c => (readingOf src c).references := by
  rw [Reading.referencesBelow, named_kidsOf, List.flatMap_map]

theorem references_eq (src : Source) (t : Tree) : (readingOf src t).references =
    if t.kind.isPath || t.kind = .call then [expOfTree src t]
    else if t.kind.isInert then []
    else t.namedChildren.flatMap fun c => (readingOf src c).references := by
  rw [expOfTree, readingOf_eq, ← referencesBelow_kidsOf]
  rfl

theorem elements_eq (src : Source) (t : Tree) : (readingOf src t).elements =
    if t.kind = .pair then [expOfTree? src (t.child? "key"), expOfTree? src (t.child? "value")]
    else [expOfTree src t] := by
  rw [← expOf_kidsOf, ← expOf_kidsOf, expOfTree, readingOf_eq]
  rfl

/-! ### Mentions -/

theorem mentionsOf_eq (src : Source) (t : Tree) : mentionsOf src t =
    (if t.kind.isPath then [src.text t] else []) ++ t.namedChildren.flatMap (mentionsOf src) := by
  unfold mentionsOf
  rw [Tree.fold_eq]
  simp [Folded.named, Tree.namedChildren, List.filter_map, Function.comp_def, List.flatMap]

theorem text_mem_mentionsOf (ht : t.kind.isPath = true) : src.text t ∈ mentionsOf src t := by
  rw [mentionsOf_eq, if_pos ht]
  exact List.mem_append.mpr (Or.inl List.mem_cons_self)

theorem mem_mentionsOf_of_named {c : Tree} (hc : c ∈ t.namedChildren) {text : String}
    (h : text ∈ mentionsOf src c) : text ∈ mentionsOf src t := by
  rw [mentionsOf_eq]
  exact List.mem_append.mpr (Or.inr (List.mem_flatMap.mpr ⟨c, hc, h⟩))

end Surface

/-! ### Sources of a value -/

namespace Scope
variable {sc : Scope}

theorem flowing_of_resolve {e : Exp} {x : Symbol} (h : sc.resolve e = some x) :
    sc.flowing e = [x] := by
  cases e with
  | var name => simpa [resolve, flowing] using h
  | field base name => simp [flowing, h]
  | index base key => simp [flowing, h]
  | _ => simp [resolve] at h

theorem resolve_field {base : Exp} (name : String) (hbase : ∀ root, base ≠ .var root) :
    sc.resolve (.field base name) = sc.resolve base := by
  cases base with
  | var root => exact absurd rfl (hbase root)
  | _ => simp [resolve]

theorem resolve_index (base key : Exp) : sc.resolve (.index base key) = sc.resolve base := by
  simp [resolve]

/-- The value of a field is part of the value of its base, unless it is a field of the receiver. -/
theorem mem_flowing_field {base : Exp} {name : String} {y : Symbol}
    (h : y ∈ sc.flowing (.field base name)) :
    (∃ self, base = .var self ∧ sc.isSelfName self = true ∧ y = sc.fieldOf name) ∨
      y ∈ sc.flowing base := by
  have hbase : (∀ self, base ≠ .var self) → y ∈ sc.flowing base := by
    intro hvar
    rw [flowing, resolve_field name hvar] at h
    split at h
    · rename_i x hx
      rwa [flowing_of_resolve hx]
    · exact h
  cases base with
  | var self =>
    simp only [flowing, resolve, List.mem_singleton] at h
    split at h
    · rename_i hself
      exact Or.inl ⟨self, rfl, hself, h⟩
    · rw [flowing]
      exact Or.inr (List.mem_singleton.mpr h)
  | _ => exact Or.inr (hbase fun _ heq => by cases heq)

theorem flowing_index (base key : Exp) : sc.flowing (.index base key) = sc.flowing base := by
  rw [flowing, resolve_index]
  split
  · rename_i x hx
    rw [flowing_of_resolve hx]
  · rfl

theorem mem_flowing_aggregate {es : List Exp} {y : Symbol} :
    y ∈ sc.flowing (.aggregate es) ↔ ∃ e ∈ es, y ∈ sc.flowing e := by
  rw [flowing, mem_distinct, flowingAll_eq_map, ← List.flatMap_def, List.mem_flatMap]

end Scope

/-! ### Mentioned symbols -/

/-- The field of the receiver that an access path is. -/
def ownField? (src : Source) (sc : Scope) (d : Tree) : Option String :=
  match d.kind, expOfTree src d with
  | .attribute, .field (.var self) f => if sc.isSelfName self then some f else none
  | _, _ => none

/-- The symbol that a name or a field of the receiver stands for. -/
def symbolOfTree? (src : Source) (sc : Scope) (d : Tree) : Option Symbol :=
  if d.kind = .identifier then some (sc.symbolOf (src.text d))
  else (ownField? src sc d).map sc.fieldOf

/-- A node at or below `t`, whose text `t` mentions, stands for the symbol. -/
def Mentioned (src : Source) (sc : Scope) (t : Tree) (y : Symbol) : Prop :=
  ∃ d ∈ t.subtrees, src.text d ∈ mentionsOf src t ∧ symbolOfTree? src sc d = some y

/-- A token has no parts, and is no name. -/
def BareTokens (t : Tree) : Prop :=
  ∀ d ∈ t.subtrees, d.named = false → d.children = [] ∧ d.kind.isPath = false

/-- No part of the value is a call. -/
def CallFree (t : Tree) : Prop := ∀ d ∈ t.subtrees, d.kind ≠ .call

instance (t : Tree) : Decidable (BareTokens t) :=
  inferInstanceAs (Decidable (∀ d ∈ t.subtrees, d.named = false → d.children = [] ∧ _))

instance (t : Tree) : Decidable (CallFree t) :=
  inferInstanceAs (Decidable (∀ d ∈ t.subtrees, d.kind ≠ .call))

section Mentioned
variable {src : Source} {sc : Scope} {t c : Tree} {y : Symbol}

theorem symbolOfTree?_cases (h : symbolOfTree? src sc c = some y) :
    (c.kind = .identifier ∧ y = sc.symbolOf (src.text c)) ∨
      ∃ f, ownField? src sc c = some f ∧ y = sc.fieldOf f := by
  rw [symbolOfTree?] at h
  split at h
  · rename_i hkind
    exact Or.inl ⟨hkind, (Option.some.inj h).symm⟩
  · obtain ⟨f, hf, rfl⟩ := Option.map_eq_some_iff.mp h
    exact Or.inr ⟨f, hf, rfl⟩

theorem ownField?_eq_some {f : String} (h : ownField? src sc c = some f) : c.kind = .attribute ∧
    ∃ self, expOfTree src c = .field (.var self) f ∧ sc.isSelfName self = true := by
  rw [ownField?] at h
  split at h
  · rename_i self f' hkind hexp
    obtain ⟨hself, heq⟩ := Option.ite_none_right_eq_some.mp h
    obtain rfl := Option.some.inj heq
    exact ⟨hkind, self, hexp, hself⟩
  · cases h

theorem Mentioned.of_named (h : Mentioned src sc c y) (hc : c ∈ t.namedChildren) :
    Mentioned src sc t y := by
  obtain ⟨d, hd, htext, hy⟩ := h
  exact ⟨d, Tree.mem_subtrees_of_child (Tree.mem_children_of_named hc) hd,
    mem_mentionsOf_of_named hc htext, hy⟩

theorem BareTokens.child (h : BareTokens t) (hc : c ∈ t.children) : BareTokens c :=
  fun d hd => h d (Tree.mem_subtrees_of_child hc hd)

theorem CallFree.child (h : CallFree t) (hc : c ∈ t.children) : CallFree c :=
  fun d hd => h d (Tree.mem_subtrees_of_child hc hd)

theorem operandOfTree_callFree (h : CallFree t) :
    operandOfTree src t = .value (expOfTree src t) := by
  induction t using Tree.induct with
  | h t ih =>
    rcases operandOfTree_cases src (h t t.self_mem_subtrees) with ⟨c, hc, hoperand⟩ | hoperand
    · have hc := Tree.mem_children_of_named hc
      rw [expOfTree_eq, hoperand, ← expOfTree_eq]
      exact ih c hc (h.child hc)
    · rw [expOfTree_eq, hoperand, Operand.toExp]

/-- What flows into the part of a node in some role flows into one of its children. -/
theorem mem_flowing_role {f : String} (hy : y ∈ sc.flowing (expOfTree? src (t.child? f))) :
    ∃ c ∈ t.children, y ∈ sc.flowing (expOfTree src c) := by
  cases hc : t.child? f with
  | none => simp [hc, expOfTree?, Exp.null, Scope.flowing] at hy
  | some c =>
    rw [hc] at hy
    exact ⟨c, Tree.mem_children_of_child? hc, hy⟩

/-- What flows into the value of a node, given what flows into those of its children. -/
theorem mentioned_plainExp
    (hexp : ∀ c ∈ t.children, ∀ y ∈ sc.flowing (expOfTree src c), Mentioned src sc t y)
    (hreferences : ∀ c ∈ t.namedChildren, ∀ e ∈ (readingOf src c).references,
      ∀ y ∈ sc.flowing e, Mentioned src sc t y)
    (helements : ∀ c ∈ t.namedChildren, ∀ e ∈ (readingOf src c).elements,
      ∀ y ∈ sc.flowing e, Mentioned src sc t y)
    (hself : expOfTree src t = Reading.plainExp src t (kidsOf src t)) :
    ∀ y ∈ sc.flowing (Reading.plainExp src t (kidsOf src t)), Mentioned src sc t y := by
  have hrole : ∀ f, ∀ y ∈ sc.flowing (Reading.expOf (kidsOf src t) f), Mentioned src sc t y := by
    intro f y hy
    rw [expOf_kidsOf] at hy
    obtain ⟨c, hc, hy⟩ := mem_flowing_role hy
    exact hexp c hc y hy
  have hnamed : ∀ r ∈ Folded.named (kidsOf src t), ∀ y ∈ sc.flowing r.exp, Mentioned src sc t y := by
    intro r hr
    rw [named_kidsOf] at hr
    obtain ⟨c, hc, rfl⟩ := List.mem_map.mp hr
    exact hexp c (Tree.mem_children_of_named hc)
  have hbelow : ∀ (part : Reading → List Exp),
      (∀ c ∈ t.namedChildren, ∀ e ∈ part (readingOf src c), ∀ y ∈ sc.flowing e, Mentioned src sc t y) →
      ∀ y ∈ sc.flowing (.aggregate ((Folded.named (kidsOf src t)).flatMap part)),
        Mentioned src sc t y := by
    intro part hpart y hy
    obtain ⟨e, he, hy⟩ := Scope.mem_flowing_aggregate.mp hy
    rw [named_kidsOf, List.flatMap_map] at he
    obtain ⟨c, hc, he⟩ := List.mem_flatMap.mp he
    exact hpart c hc e he y hy
  intro y hy
  unfold Reading.plainExp at hy
  split at hy
  case h_1 hkind =>
    rw [Scope.flowing, List.mem_singleton] at hy
    have hpath : t.kind.isPath = true := by rw [hkind]; rfl
    refine ⟨t, t.self_mem_subtrees, text_mem_mentionsOf hpath, ?_⟩
    rw [symbolOfTree?, if_pos hkind, hy]
  case h_2 | h_3 | h_4 | h_5 | h_6 | h_7 | h_8 | h_9 => simp [Scope.flowing, Exp.null] at hy
  case h_10 | h_11 =>
    rw [Scope.flowing, mem_distinct, List.mem_append] at hy
    exact hy.elim (hrole "left" y) (hrole "right" y)
  case h_12 =>
    split at hy
    · rename_i first second rest heq
      rw [Scope.flowing, mem_distinct, List.mem_append] at hy
      exact hy.elim (hnamed first (by simp [heq]) y) (hnamed second (by simp [heq]) y)
    · simp [Scope.flowing] at hy
  case h_13 | h_14 => exact hrole "argument" y (by simpa only [Scope.flowing] using hy)
  case h_15 hkind =>
    rcases Scope.mem_flowing_field hy with ⟨self, hbase, hname, rfl⟩ | hy
    · have hpath : t.kind.isPath = true := by rw [hkind]; rfl
      refine ⟨t, t.self_mem_subtrees, text_mem_mentionsOf hpath, ?_⟩
      simp only [Reading.plainExp, hkind, hbase] at hself
      simp [symbolOfTree?, ownField?, hkind, hself, hname]
    · exact hrole "object" y hy
  case h_16 =>
    rw [Scope.flowing_index] at hy
    exact hrole "value" y hy
  case h_17 =>
    split at hy
    · rename_i yes condition no heq
      rw [Scope.flowing, mem_distinct, List.mem_append, List.mem_append] at hy
      rcases hy with (hy | hy) | hy
      · exact hnamed condition (by simp [heq]) y hy
      · exact hnamed yes (by simp [heq]) y hy
      · exact hnamed no (by simp [heq]) y hy
    · exact hbelow Reading.references hreferences y hy
  case h_18 | h_19 | h_20 =>
    split at hy
    · rename_i r hr
      rw [child?_kidsOf] at hr
      obtain ⟨c, hc, rfl⟩ := Option.map_eq_some_iff.mp hr
      exact hexp c (Tree.mem_children_of_child? hc) y hy
    · cases hlast : (Folded.named (kidsOf src t)).getLast? with
      | none => simp [hlast, Exp.null, Scope.flowing] at hy
      | some r =>
        rw [hlast] at hy
        exact hnamed r (List.mem_of_getLast? hlast) y hy
  case h_21 =>
    split at hy
    · exact hbelow Reading.elements helements y hy
    · exact hbelow Reading.references hreferences y hy

/-- A token mentions nothing, so what a child mentions its parent mentions, too. -/
theorem Mentioned.of_child (h : Mentioned src sc c y) (hbare : BareTokens t) (hc : c ∈ t.children) :
    Mentioned src sc t y := by
  cases hnamed : c.named with
  | true => exact h.of_named (List.mem_filter.mpr ⟨hc, hnamed⟩)
  | false =>
    obtain ⟨hnone, hpath⟩ := hbare c (Tree.mem_subtrees_of_child hc c.self_mem_subtrees) hnamed
    obtain ⟨_, _, htext, _⟩ := h
    simp [mentionsOf_eq, Tree.namedChildren, hnone, hpath] at htext

theorem mentioned_reading (hcalls : CallFree t) (hbare : BareTokens t) :
    (∀ y ∈ sc.flowing (expOfTree src t), Mentioned src sc t y) ∧
      (∀ e ∈ (readingOf src t).references, ∀ y ∈ sc.flowing e, Mentioned src sc t y) ∧
      ∀ e ∈ (readingOf src t).elements, ∀ y ∈ sc.flowing e, Mentioned src sc t y := by
  induction t using Tree.induct with
  | h t ih =>
    have hchild : ∀ c ∈ t.children, ∀ y ∈ sc.flowing (expOfTree src c), Mentioned src sc t y :=
      fun c hc y hy => ((ih c hc (hcalls.child hc) (hbare.child hc)).1 y hy).of_child hbare hc
    have hreferences : ∀ c ∈ t.namedChildren, ∀ e ∈ (readingOf src c).references,
        ∀ y ∈ sc.flowing e, Mentioned src sc t y := by
      intro c hc e he y hy
      have hc' := Tree.mem_children_of_named hc
      exact ((ih c hc' (hcalls.child hc') (hbare.child hc')).2.1 e he y hy).of_named hc
    have helements : ∀ c ∈ t.namedChildren, ∀ e ∈ (readingOf src c).elements,
        ∀ y ∈ sc.flowing e, Mentioned src sc t y := by
      intro c hc e he y hy
      have hc' := Tree.mem_children_of_named hc
      exact ((ih c hc' (hcalls.child hc') (hbare.child hc')).2.2 e he y hy).of_named hc
    have hexp : ∀ y ∈ sc.flowing (expOfTree src t), Mentioned src sc t y := by
      rcases operandOfTree_cases src (hcalls t t.self_mem_subtrees) with ⟨c, hc, hoperand⟩ | hoperand
      · rw [expOfTree_eq, hoperand, ← expOfTree_eq]
        exact hchild c (Tree.mem_children_of_named hc)
      · have hself : expOfTree src t = Reading.plainExp src t (kidsOf src t) := by
          rw [expOfTree_eq, hoperand, Operand.toExp]
        rw [hself]
        exact mentioned_plainExp hchild hreferences helements hself
    have hrole : ∀ f, ∀ y ∈ sc.flowing (expOfTree? src (t.child? f)), Mentioned src sc t y := by
      intro f y hy
      obtain ⟨c, hc, hy⟩ := mem_flowing_role hy
      exact hchild c hc y hy
    refine ⟨hexp, ?_, ?_⟩
    · intro e he
      rw [references_eq] at he
      split at he
      · obtain rfl := List.mem_singleton.mp he
        exact hexp
      · split at he
        · cases he
        · obtain ⟨c, hc, he⟩ := List.mem_flatMap.mp he
          exact hreferences c hc e he
    · intro e he
      rw [elements_eq] at he
      split at he
      · simp only [List.mem_cons, List.not_mem_nil, or_false] at he
        rcases he with rfl | rfl
        · exact hrole "key"
        · exact hrole "value"
      · obtain rfl := List.mem_singleton.mp he
        exact hexp

end Mentioned

end ActorOwnership
