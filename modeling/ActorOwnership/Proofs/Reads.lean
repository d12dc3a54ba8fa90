import ActorOwnership.Proofs.Reading
import Mathlib.Data.List.Basic
import Mathlib.Tactic.MkIffOfInductiveProp

/-! The names that occur in an expression are read. An occurrence counts for the innermost access
path around it: `self` in `self.f[k]` for the field `f`, any other name for itself. Some parts of an
expression are passed over, and what occurs there may be missing from the reads. -/

namespace ActorOwnership
open Syntax Surface
set_option autoImplicit false

/-! ### Places -/

/-- Where a node stands: as a value, among the references that are gathered, as an element of a
display, as an argument, or as the arguments of a call. -/
inductive Place where
  | value
  | reference
  | element
  | argument
  | arguments
  deriving DecidableEq

namespace Place

def exps (r : Reading) : Place → List Exp
  | value => [r.exp]
  | reference => r.references
  | element => r.elements
  | argument => Argument.toExps r.argument
  | arguments => Argument.toExps r.arguments

/-- Whether the node has no reading of its own in the place, so that the references below it are
gathered. -/
def gathers (place : Place) (t : Tree) : Bool :=
  match t.kind with
  | .identifier | .attribute | .subscript | .call | .string | .concatenatedString | .lambda_ => false
  | .pair => place ≠ element
  | .argumentList => place ≠ arguments
  | .conditionalExpression => place = reference || t.namedChildren.length ≠ 3
  | .await_ | .parenthesizedExpression | .binaryOperator | .booleanOperator | .comparisonOperator
  | .unaryOperator | .notOperator | .listSplat | .dictionarySplat | .keywordArgument =>
    place = reference
  | k => place = reference || !k.isCollection

def below (place : Place) (t : Tree) : Place :=
  if place.gathers t then reference
  else if t.kind.isCollection then element
  else if t.kind = .call then arguments
  else if place = arguments then argument
  else value

end Place

/-! ### Occurrences -/

def baseOf (t : Tree) : Option Tree :=
  match t.kind with
  | .attribute => t.child? "object"
  | .subscript => t.child? "value"
  | _ => none

/-- Children in which no name is read. -/
def Unread (t c : Tree) : Prop :=
  match t.kind with
  | .lambda_ => True
  | .attribute => c.field = some "attribute"
  | .keywordArgument => c.field = some "name"
  -- What is called by an attribute is read through its object.
  | .call => c.field = some "function" ∧ (c.kind = .identifier ∨ c.kind = .attribute)
  | .forInClause => c.field = some "left"
  | _ => False

/-- Children that are not looked at. -/
def PassedOver (place : Place) (t c : Tree) : Prop :=
  match t.kind with
  -- A string is a constant, whatever is interpolated.
  | .string | .concatenatedString => True
  | .comparisonOperator => c ∉ t.namedChildren.take 2
  | .subscript => c.field = some "subscript" ∧ t.child? "subscript" ≠ some c
  | .call => c.field = some "function" ∧ c.kind ≠ .identifier ∧ c.kind ≠ .attribute
  -- Only a comment or a line continuation can stand beside the part that is meant.
  | .await_ | .parenthesizedExpression => t.namedChildren.head? ≠ some c
  | .listSplat | .dictionarySplat =>
    if place = .argument then t.namedChildren.head? ≠ some c else t.namedChildren.getLast? ≠ some c
  | _ => False

/-- The name `d` is read in `t`, and `p` is the innermost access path around it. -/
inductive Occurs : Place → Tree → Tree → Tree → Prop where
  | name {place : Place} {t : Tree} (ht : t.kind = .identifier) : Occurs place t t t
  | base {place : Place} {t c d : Tree} (hc : baseOf t = some c) (hd : unwrap c = d)
      (hname : d.kind = .identifier) : Occurs place t d t
  | receiver {place : Place} {t f o d p : Tree} (ht : t.kind = .call)
      (hf : t.child? "function" = some f) (hkind : f.kind = .attribute)
      (ho : f.child? "object" = some o) (h : Occurs .value o d p) : Occurs place t d p
  | part {place : Place} {t c d p : Tree} (hc : c ∈ t.namedChildren) (hread : ¬ Unread t c)
      (hkept : place.gathers t = true ∨ ¬ PassedOver place t c)
      (hbase : baseOf t = some c → (unwrap c).kind ≠ .identifier) (h : Occurs (place.below t) c d p) :
      Occurs place t d p

/-- The field of the receiver that a path reads, or else the variable that it starts from. -/
def pathSymbol (src : Source) (sc : Scope) (d p : Tree) : Symbol :=
  if p.kind = .attribute ∧ sc.isSelfName (src.text d) = true then
    sc.fieldOf (src.textOr "" (p.child? "attribute"))
  else sc.symbolOf (src.text d)

/-! ### Shapes -/

def isExtra (t : Tree) : Bool := t.kind = .comment || t.kind = .lineContinuation

def isLeafKind : Kind → Bool
  | .identifier | .integer | .float | .trueLiteral | .falseLiteral | .noneLiteral | .comment
  | .lineContinuation | .punctuation _ => true
  | _ => false

def isSeparator : Kind → Bool
  | .comment | .punctuation _ => true
  | _ => false

/-- Kinds that hand over the value of one of their parts. -/
def isSpread : Kind → Bool
  | .listSplat | .dictionarySplat | .keywordArgument => true
  | _ => false

/-- The roles of the parts, where each part has one. -/
def rolesOf : Kind → List String
  | .binaryOperator | .booleanOperator => ["left", "right"]
  | .unaryOperator | .notOperator => ["argument"]
  | .attribute => ["object", "attribute"]
  | .subscript => ["value", "subscript"]
  | .call => ["function", "arguments"]
  | .keywordArgument => ["name", "value"]
  | .pair => ["key", "value"]
  | _ => []

/-- What the grammar promises of a node. -/
@[mk_iff]
structure ShapedNode (t : Tree) : Prop where
  leaf : isLeafKind t.kind = true → t.namedChildren = []
  roles : rolesOf t.kind ≠ [] → ∀ c ∈ t.namedChildren,
    isExtra c = true ∨ ∃ f ∈ rolesOf t.kind, c.field = some f
  single : ∀ f ∈ rolesOf t.kind, f ≠ "subscript" →
    (t.children.filter (·.field == some f)).length ≤ 1
  arguments : t.kind = .call → ∀ c ∈ t.namedChildren, c.field = some "arguments" →
    c.kind = .argumentList ∨ c.kind = .generatorExpression
  base : ∀ c ∈ baseOf t, isSpread (unwrap c).kind = false
  comparison : t.kind = .comparisonOperator → 2 ≤ t.namedChildren.length
  splat : t.kind = .listSplat ∨ t.kind = .dictionarySplat →
    t.children.all (·.field != some "value") = true

instance (t : Tree) : Decidable (ShapedNode t) := decidable_of_iff _ (shapedNode_iff t).symm

def Shaped (t : Tree) : Prop := ∀ d ∈ t.subtrees, ShapedNode d

instance (t : Tree) : Decidable (Shaped t) :=
  inferInstanceAs (Decidable (∀ d ∈ t.subtrees, ShapedNode d))

/-! ### Reads of expressions -/

namespace Scope
variable {sc : Scope} {x : Symbol}

theorem mem_readsInAll {es : List Exp} :
    x ∈ sc.readsInAll es ↔ ∃ e ∈ es, x ∈ sc.readsIn false e := by
  induction es with
  | nil => simp [readsInAll]
  | cons e es ih => simp [readsInAll, ih]

/-- What is not counted below a path is the symbol of the path. -/
theorem mem_readsIn_true {e : Exp} (h : x ∈ sc.readsIn false e) :
    x ∈ sc.readsIn true e ∨ sc.resolve e = some x := by
  cases e with
  | var name => simpa [readsIn, resolve, eq_comm] using h
  | field base name =>
    simp only [readsIn, Bool.false_eq_true, if_false, List.mem_append, Option.mem_toList] at h
    simpa [readsIn] using h.symm
  | index base key =>
    simp only [readsIn, Bool.false_eq_true, if_false, List.mem_append, Option.mem_toList] at h
    simp only [readsIn, if_true, List.nil_append, List.mem_append]
    rcases h with (h | h) | h
    · exact Or.inr h
    · exact Or.inl (Or.inl h)
    · exact Or.inl (Or.inr h)
  | _ => exact Or.inl (by simpa only [readsIn] using h)

theorem mem_readsIn_field {base : Exp} {name : String} (hbase : ∀ root, base ≠ .var root)
    (h : x ∈ sc.readsIn false base) : x ∈ sc.readsIn false (.field base name) := by
  rw [readsIn, if_neg Bool.false_ne_true, List.mem_append, Option.mem_toList, resolve_field name hbase]
  exact (mem_readsIn_true h).symm

theorem mem_readsIn_index {base : Exp} (key : Exp) (h : x ∈ sc.readsIn false base) :
    x ∈ sc.readsIn false (.index base key) := by
  rw [readsIn, if_neg Bool.false_ne_true, List.mem_append, List.mem_append, Option.mem_toList,
    resolve_index]
  exact (mem_readsIn_true h).elim Or.inr fun h => Or.inl (Or.inl h)

end Scope

/-! ### Readings in their places -/

section Places
variable {src : Source} {sc : Scope} {place : Place} {t c : Tree} {x : Symbol}

def Place.reads (place : Place) (src : Source) (sc : Scope) (t : Tree) : List Symbol :=
  sc.readsInAll (place.exps (readingOf src t))

theorem mem_reads_value :
    x ∈ Place.value.reads src sc t ↔ x ∈ sc.readsIn false (expOfTree src t) := by
  simp [Place.reads, Place.exps, Scope.mem_readsInAll, expOfTree]

theorem mem_toExps {e : Exp} {args : List Argument} :
    e ∈ Argument.toExps args ↔ ∃ keyword value, .mk keyword value ∈ args ∧ e = value.toExp := by
  induction args with
  | nil => simp [Argument.toExps]
  | cons a args ih =>
    cases a with
    | mk keyword value =>
      rw [Argument.toExps, List.mem_cons, ih]
      constructor
      · rintro (rfl | ⟨k, v, hmem, rfl⟩)
        · exact ⟨keyword, value, List.mem_cons_self, rfl⟩
        · exact ⟨k, v, List.mem_cons_of_mem _ hmem, rfl⟩
      · rintro ⟨k, v, hmem, rfl⟩
        rcases List.mem_cons.mp hmem with heq | hmem
        · cases heq
          exact Or.inl rfl
        · exact Or.inr ⟨k, v, hmem, rfl⟩

theorem expOfTree_plain (hwrap : t.kind.isWrapper = false) (hcall : t.kind ≠ .call) :
    expOfTree src t = Reading.plainExp src t (kidsOf src t) := by
  rw [expOfTree_eq, operandOfTree_plain (Or.inl hwrap) hcall, Operand.toExp]

theorem expOfTree_of_kind {k : Kind} (hkind : t.kind = k) (hk : k.isWrapper = false ∧ k ≠ .call) :
    expOfTree src t = Reading.plainExp src t (kidsOf src t) :=
  expOfTree_plain (hkind ▸ hk.1) (hkind ▸ hk.2)

theorem expOfTree_unwrap (src : Source) (t : Tree) : expOfTree src (unwrap t) = expOfTree src t := by
  rw [expOfTree_eq, operandOfTree_unwrap, ← expOfTree_eq]

/-- The node stands for its own value in the place. -/
structure Place.Own (place : Place) (t : Tree) : Prop where
  reference : place = .reference → t.kind.isPath = true ∨ t.kind = .call
  element : place = .element → t.kind ≠ .pair
  argument : place = .argument → isSpread t.kind = false ∧ isSeparator t.kind = false
  arguments : place = .arguments → t.kind = .generatorExpression

theorem mem_reads_of_own (hown : place.Own t) (hx : x ∈ sc.readsIn false (expOfTree src t)) :
    x ∈ place.reads src sc t := by
  refine Scope.mem_readsInAll.mpr ⟨expOfTree src t, ?_, hx⟩
  cases place with
  | value => exact List.mem_singleton_self _
  | reference =>
    rw [Place.exps, references_eq, if_pos (by simpa using hown.reference rfl)]
    exact List.mem_singleton_self _
  | element =>
    rw [Place.exps, elements_eq, if_neg (hown.element rfl)]
    exact List.mem_singleton_self _
  | argument =>
    obtain ⟨hspread, hseparator⟩ := hown.argument rfl
    rw [Place.exps, mem_toExps, argument_eq, Reading.argumentOf]
    refine ⟨none, operandOfTree src t, ?_, expOfTree_eq src t⟩
    split
    case h_1 hkind | h_2 hkind => simp [isSeparator, hkind] at hseparator
    case h_3 hkind | h_4 hkind | h_5 hkind => simp [isSpread, hkind] at hspread
    case h_6 => exact List.mem_singleton_self _
  | arguments =>
    rw [Place.exps, mem_toExps, arguments_eq, if_pos (hown.arguments rfl)]
    exact ⟨none, operandOfTree src t, List.mem_singleton_self _, expOfTree_eq src t⟩

/-! ### Parts in roles -/

theorem ShapedNode.child?_eq (h : ShapedNode t) (hc : c ∈ t.namedChildren) {f : String}
    (hf : f ∈ rolesOf t.kind) (hsingle : f ≠ "subscript") (hfield : c.field = some f) :
    t.child? f = some c := by
  have hmem : c ∈ t.children.filter (·.field == some f) :=
    List.mem_filter.mpr ⟨Tree.mem_children_of_named hc, by simp [hfield]⟩
  obtain ⟨d, hd⟩ := List.length_eq_one_iff.mp
    (Nat.le_antisymm (h.single f hf hsingle) (List.length_pos_of_mem hmem))
  rw [hd, List.mem_singleton] at hmem
  rw [Tree.child?, ← List.head?_filter, hd, hmem]
  rfl

theorem ShapedNode.not_leaf (h : ShapedNode t) (hc : c ∈ t.namedChildren) :
    isLeafKind t.kind = false := by
  cases hleaf : isLeafKind t.kind with
  | false => rfl
  | true =>
    rw [h.leaf hleaf] at hc
    cases hc

theorem expOf_role {f : String} (h : t.child? f = some c) :
    Reading.expOf (kidsOf src t) f = expOfTree src c := by
  rw [expOf_kidsOf, h]
  rfl

theorem Occurs.not_extra {d p : Tree} (h : Occurs place t d p) (hshape : ShapedNode t) :
    isExtra t = false := by
  cases h with
  | name ht => simp [isExtra, ht]
  | base hc =>
    rw [baseOf] at hc
    split at hc
    case h_1 hkind | h_2 hkind => simp [isExtra, hkind]
    case h_3 => cases hc
  | receiver ht => simp [isExtra, ht]
  | part hc =>
    cases hextra : isExtra t with
    | false => rfl
    | true =>
      have hleaf : isLeafKind t.kind = true := by
        rw [isExtra, Bool.or_eq_true, decide_eq_true_iff, decide_eq_true_iff] at hextra
        rcases hextra with hkind | hkind <;> rw [hkind] <;> rfl
      rw [hshape.not_leaf hc] at hleaf
      cases hleaf

/-! ### Gathered references -/

theorem expOfTree_gathered (hshape : ShapedNode t) (hc : c ∈ t.namedChildren)
    (hplace : place ≠ .reference) (hg : place.gathers t = true) :
    expOfTree src t = .aggregate (t.namedChildren.flatMap fun c => (readingOf src c).references) := by
  have hleaf := hshape.not_leaf hc
  have hwrap : t.kind.isWrapper = false := by
    unfold Kind.isWrapper
    split
    case h_1 hkind | h_2 hkind => simp [Place.gathers, hkind, hplace] at hg
    case h_3 => rfl
  have hcall : t.kind ≠ .call := by
    intro hkind
    simp [Place.gathers, hkind] at hg
  have hcollection : t.kind.isCollection = false := by
    cases hcollection : t.kind.isCollection with
    | false => rfl
    | true =>
      unfold Kind.isCollection at hcollection
      split at hcollection
      case h_9 => cases hcollection
      all_goals
        rename_i hkind
        simp [Place.gathers, hkind, hplace, Kind.isCollection] at hg
  rw [expOfTree_plain hwrap hcall, ← referencesBelow_kidsOf]
  unfold Reading.plainExp
  split
  case h_2 hkind | h_3 hkind | h_6 hkind | h_7 hkind | h_8 hkind => simp [isLeafKind, hkind] at hleaf
  case h_17 hkind =>
    split
    · rename_i yes condition no hnamed
      have hthree : t.namedChildren.length = 3 := by
        rw [← List.length_map (readingOf src), ← named_kidsOf, hnamed]
        rfl
      simp [Place.gathers, hkind, hplace, hthree] at hg
    · rfl
  case h_21 => rw [hcollection, if_neg Bool.false_ne_true]
  all_goals
    rename_i hkind
    simp [Place.gathers, hkind, hplace] at hg

theorem isSeparator_of_not_leaf {k : Kind} (h : isLeafKind k = false) : isSeparator k = false := by
  unfold isSeparator
  split
  · cases h
  · cases h
  · rfl

theorem own_of_gathers (hleaf : isLeafKind t.kind = false)
    (harguments : place = .arguments → t.kind = .argumentList ∨ t.kind = .generatorExpression)
    (hplace : place ≠ .reference) (hg : place.gathers t = true) : place.Own t where
  reference h := absurd h hplace
  element := by
    rintro rfl hkind
    simp [Place.gathers, hkind] at hg
  argument := by
    rintro rfl
    refine ⟨?_, isSeparator_of_not_leaf hleaf⟩
    unfold isSpread
    split
    case h_1 hkind | h_2 hkind | h_3 hkind => simp [Place.gathers, hkind] at hg
    case h_4 => rfl
  arguments := by
    rintro rfl
    refine (harguments rfl).resolve_left fun hkind => ?_
    simp [Place.gathers, hkind] at hg

theorem mem_reads_gathered (hshape : ShapedNode t)
    (harguments : place = .arguments → t.kind = .argumentList ∨ t.kind = .generatorExpression)
    (hg : place.gathers t = true) (hc : c ∈ t.namedChildren) (hx : x ∈ Place.reference.reads src sc c) :
    x ∈ place.reads src sc t := by
  obtain ⟨e, he, hx⟩ := Scope.mem_readsInAll.mp hx
  have hmem : e ∈ t.namedChildren.flatMap fun c => (readingOf src c).references :=
    List.mem_flatMap.mpr ⟨c, hc, he⟩
  have hleaf := hshape.not_leaf hc
  by_cases hplace : place = .reference
  · subst hplace
    refine Scope.mem_readsInAll.mpr ⟨e, ?_, hx⟩
    rw [Place.exps, references_eq, if_neg, if_neg]
    · exact hmem
    · intro hinert
      unfold Kind.isInert at hinert
      split at hinert
      case h_1 hkind | h_8 hkind => simp [Place.gathers, hkind] at hg
      case h_9 => cases hinert
      all_goals
        rename_i hkind
        simp [isLeafKind, hkind] at hleaf
    · intro hpath
      rw [Bool.or_eq_true, decide_eq_true_iff] at hpath
      rcases hpath with hpath | hkind
      · unfold Kind.isPath at hpath
        split at hpath
        case h_4 => cases hpath
        all_goals
          rename_i hkind
          simp [Place.gathers, hkind] at hg
      · simp [Place.gathers, hkind] at hg
  · refine mem_reads_of_own ?_ ?_
    · exact own_of_gathers hleaf harguments hplace hg
    · rw [expOfTree_gathered hshape hc hplace hg, Scope.readsIn]
      exact Scope.mem_readsInAll.mpr ⟨e, hmem, hx⟩

/-! ### Parts that are read -/

/-- A part has a role, and is what the node reads in this role. -/
theorem exists_role (hshape : ShapedNode t) (hc : c ∈ t.namedChildren) (hextra : isExtra c = false)
    (hroles : rolesOf t.kind ≠ []) : ∃ f ∈ rolesOf t.kind, c.field = some f ∧
      (f ≠ "subscript" → t.child? f = some c) := by
  rcases hshape.roles hroles c hc with hc' | ⟨f, hf, hfield⟩
  · rw [hextra] at hc'
    cases hc'
  · exact ⟨f, hf, hfield, fun hsingle => hshape.child?_eq hc hf hsingle hfield⟩

theorem either_role (hshape : ShapedNode t) (hc : c ∈ t.namedChildren) (hextra : isExtra c = false)
    {f g : String} (hroles : rolesOf t.kind = [f, g]) :
    (c.field = some f ∧ (f ≠ "subscript" → t.child? f = some c)) ∨
      (c.field = some g ∧ (g ≠ "subscript" → t.child? g = some c)) := by
  obtain ⟨h, hh, hc⟩ := exists_role hshape hc hextra (by simp [hroles])
  simp only [hroles, List.mem_cons, List.not_mem_nil, or_false] at hh
  rcases hh with rfl | rfl
  · exact Or.inl hc
  · exact Or.inr hc

theorem mem_reads_binary (hshape : ShapedNode t) (hc : c ∈ t.namedChildren) (hextra : isExtra c = false)
    (hkind : t.kind = .binaryOperator ∨ t.kind = .booleanOperator)
    (hx : x ∈ sc.readsIn false (expOfTree src c)) : x ∈ sc.readsIn false (expOfTree src t) := by
  have hroles : rolesOf t.kind = ["left", "right"] := by
    rcases hkind with hkind | hkind <;> rw [hkind] <;> rfl
  obtain ⟨op, hexp⟩ : ∃ op, expOfTree src t =
      .binary op (Reading.expOf (kidsOf src t) "left") (Reading.expOf (kidsOf src t) "right") := by
    rcases hkind with hkind | hkind <;>
      exact ⟨_, by rw [expOfTree_of_kind hkind (by decide), Reading.plainExp, hkind]⟩
  rw [hexp, Scope.readsIn, List.mem_append]
  rcases either_role hshape hc hextra hroles with ⟨-, hchild⟩ | ⟨-, hchild⟩
  · exact Or.inl (expOf_role (hchild (by decide)) ▸ hx)
  · exact Or.inr (expOf_role (hchild (by decide)) ▸ hx)

theorem mem_reads_unary (hshape : ShapedNode t) (hc : c ∈ t.namedChildren) (hextra : isExtra c = false)
    (hkind : t.kind = .unaryOperator ∨ t.kind = .notOperator)
    (hx : x ∈ sc.readsIn false (expOfTree src c)) : x ∈ sc.readsIn false (expOfTree src t) := by
  have hroles : rolesOf t.kind = ["argument"] := by
    rcases hkind with hkind | hkind <;> rw [hkind] <;> rfl
  obtain ⟨op, hexp⟩ : ∃ op, expOfTree src t =
      .unary op (Reading.expOf (kidsOf src t) "argument") := by
    rcases hkind with hkind | hkind <;>
      exact ⟨_, by rw [expOfTree_of_kind hkind (by decide), Reading.plainExp, hkind]⟩
  obtain ⟨f, hf, -, hchild⟩ := exists_role hshape hc hextra (by simp [hroles])
  obtain rfl : f = "argument" := by simpa [hroles] using hf
  rwa [hexp, Scope.readsIn, expOf_role (hchild (by decide))]

theorem mem_reads_comparison (hshape : ShapedNode t) (hkind : t.kind = .comparisonOperator)
    (hkept : ¬ PassedOver place t c) (hx : x ∈ sc.readsIn false (expOfTree src c)) :
    x ∈ sc.readsIn false (expOfTree src t) := by
  have hfirst : c ∈ t.namedChildren.take 2 := by simpa [PassedOver, hkind] using hkept
  have htwo := hshape.comparison hkind
  rw [expOfTree_of_kind hkind (by decide), Reading.plainExp, hkind, named_kidsOf]
  rcases hnamed : t.namedChildren with _ | ⟨a, _ | ⟨b, rest⟩⟩
  · simp [hnamed] at htwo
  · simp [hnamed] at htwo
  · simp only [hnamed, List.take_succ_cons, List.take_zero, List.mem_cons, List.not_mem_nil, or_false]
      at hfirst
    simp only [List.map_cons, Scope.readsIn, List.mem_append]
    rcases hfirst with rfl | rfl
    · exact Or.inl hx
    · exact Or.inr hx

theorem mem_reads_conditional (hkind : t.kind = .conditionalExpression) (hc : c ∈ t.namedChildren)
    (hthree : t.namedChildren.length = 3) (hx : x ∈ sc.readsIn false (expOfTree src c)) :
    x ∈ sc.readsIn false (expOfTree src t) := by
  rw [expOfTree_of_kind hkind (by decide), Reading.plainExp, hkind, named_kidsOf]
  obtain ⟨yes, condition, no, hnamed⟩ := List.length_eq_three.mp hthree
  rw [hnamed]
  simp only [hnamed, List.mem_cons, List.not_mem_nil, or_false] at hc
  simp only [List.map_cons, List.map_nil, Scope.readsIn, List.mem_append]
  rcases hc with rfl | rfl | rfl
  · exact Or.inl (Or.inr hx)
  · exact Or.inl (Or.inl hx)
  · exact Or.inr hx

theorem mem_reads_wrapper (hwrap : t.kind.isWrapper = true) (hkept : ¬ PassedOver place t c)
    (hx : x ∈ sc.readsIn false (expOfTree src c)) : x ∈ sc.readsIn false (expOfTree src t) := by
  have hfirst : t.namedChildren.head? = some c := by
    unfold Kind.isWrapper at hwrap
    split at hwrap
    case h_1 hkind | h_2 hkind => simpa [PassedOver, hkind] using hkept
    case h_3 => cases hwrap
  obtain ⟨rest, hrest⟩ := List.head?_eq_some_iff.mp hfirst
  rwa [expOfTree_eq, operandOfTree_wrapper hwrap hrest, ← expOfTree_eq]

theorem expOfTree_call (src : Source) (hkind : t.kind = .call) : expOfTree src t =
    .call (.const (.text (Reading.calleeOf src (kidsOf src t)).1))
      (Argument.toExps (((t.child? "arguments").map fun c => (readingOf src c).arguments).getD []))
      (Reading.calleeOf src (kidsOf src t)).2 := by
  have hwrap : t.kind.isWrapper = false := by rw [hkind]; rfl
  rw [expOfTree_eq, operandOfTree_eq, Reading.operandOf, hwrap, if_pos hkind, Reading.callOf,
    child?_kidsOf, Option.map_map]
  rfl

/-- Only a name reads as a variable, apart from parts that hand over another value. -/
theorem expOfTree_ne_var (hname : (unwrap c).kind ≠ .identifier)
    (hspread : isSpread (unwrap c).kind = false) (root : String) : expOfTree src c ≠ .var root := by
  rw [← expOfTree_unwrap]
  have hstop := isWrapper_unwrap c
  generalize unwrap c = u at hname hspread hstop
  by_cases hcall : u.kind = .call
  · rw [expOfTree_call src hcall]
    exact Exp.noConfusion
  rw [expOfTree_eq, operandOfTree_plain hstop hcall, Operand.toExp]
  unfold Reading.plainExp
  split
  case h_1 hkind => exact absurd hkind hname
  case h_12 | h_17 => split <;> exact Exp.noConfusion
  case h_18 hkind | h_19 hkind | h_20 hkind => simp [isSpread, hkind] at hspread
  case h_21 => split <;> exact Exp.noConfusion
  all_goals exact Exp.noConfusion

theorem mem_reads_attribute (hshape : ShapedNode t) (hc : c ∈ t.namedChildren)
    (hextra : isExtra c = false) (hkind : t.kind = .attribute) (hread : ¬ Unread t c)
    (hbase : baseOf t = some c → (unwrap c).kind ≠ .identifier)
    (hx : x ∈ sc.readsIn false (expOfTree src c)) : x ∈ sc.readsIn false (expOfTree src t) := by
  have hroles : rolesOf t.kind = ["object", "attribute"] := by rw [hkind]; rfl
  rcases either_role hshape hc hextra hroles with ⟨hfield, hchild⟩ | ⟨hfield, hchild⟩
  · have hobject := hchild (by decide)
    have hc : baseOf t = some c := by rw [baseOf, hkind, hobject]
    rw [expOfTree_of_kind hkind (by decide), Reading.plainExp, hkind,
      expOf_role hobject]
    exact Scope.mem_readsIn_field (expOfTree_ne_var (hbase hc) (hshape.base c hc)) hx
  · exact absurd hfield (by simpa [Unread, hkind] using hread)

theorem mem_reads_subscript (hshape : ShapedNode t) (hc : c ∈ t.namedChildren)
    (hextra : isExtra c = false) (hkind : t.kind = .subscript) (hkept : ¬ PassedOver place t c)
    (hx : x ∈ sc.readsIn false (expOfTree src c)) : x ∈ sc.readsIn false (expOfTree src t) := by
  have hroles : rolesOf t.kind = ["value", "subscript"] := by rw [hkind]; rfl
  rw [expOfTree_of_kind hkind (by decide), Reading.plainExp, hkind]
  rcases either_role hshape hc hextra hroles with ⟨hfield, hchild⟩ | ⟨hfield, hchild⟩
  · rw [expOf_role (hchild (by decide))]
    exact Scope.mem_readsIn_index _ hx
  · have hfirst : t.child? "subscript" = some c := by simpa [PassedOver, hkind, hfield] using hkept
    rw [expOf_role hfirst, Scope.readsIn, List.mem_append, List.mem_append]
    exact Or.inl (Or.inr hx)

theorem mem_reads_receiver {f o : Tree} (hkind : t.kind = .call) (hf : t.child? "function" = some f)
    (hattribute : f.kind = .attribute) (ho : f.child? "object" = some o)
    (hx : x ∈ sc.readsIn false (expOfTree src o)) : x ∈ sc.readsIn false (expOfTree src t) := by
  have hfind : (kidsOf src t).find? (fun k => k.1.field == some "function") =
      some (f, readingOf src f) := by
    rw [kidsOf, List.find?_map]
    exact congrArg (Option.map _) hf
  have hexp : (readingOf src f).exp = .field (expOfTree src o) (Reading.textOf src f "attribute") := by
    rw [← expOf_role ho]
    refine (expOfTree_of_kind hattribute (by decide)).trans ?_
    rw [Reading.plainExp, hattribute]
  have hcallee : (Reading.calleeOf src (kidsOf src t)).2 = some (expOfTree src o) := by
    rw [Reading.calleeOf, hfind]
    simp only [hattribute, hexp]
  rw [expOfTree_call src hkind, hcallee, Scope.readsIn, List.mem_append, Scope.readsInOpt]
  exact Or.inr hx

theorem child?_arguments (hshape : ShapedNode t) (hc : c ∈ t.namedChildren) (hextra : isExtra c = false)
    (hkind : t.kind = .call) (hread : ¬ Unread t c) (hkept : ¬ PassedOver place t c) :
    t.child? "arguments" = some c := by
  have hroles : rolesOf t.kind = ["function", "arguments"] := by rw [hkind]; rfl
  rcases either_role hshape hc hextra hroles with ⟨hfield, hchild⟩ | ⟨hfield, hchild⟩
  · simp only [Unread, hkind, hfield, true_and, not_or] at hread
    simp only [PassedOver, hkind, hfield, true_and] at hkept
    exact absurd hread hkept
  · exact hchild (by decide)

theorem mem_reads_arguments (hkind : t.kind = .call) (hargs : t.child? "arguments" = some c)
    (hx : x ∈ Place.arguments.reads src sc c) : x ∈ sc.readsIn false (expOfTree src t) := by
  rw [expOfTree_call src hkind, hargs, Scope.readsIn, List.mem_append]
  exact Or.inl hx

theorem mem_reads_collection (hcollection : t.kind.isCollection = true) (hc : c ∈ t.namedChildren)
    (hx : x ∈ Place.element.reads src sc c) : x ∈ sc.readsIn false (expOfTree src t) := by
  have hexp : expOfTree src t =
      .aggregate (t.namedChildren.flatMap fun c => (readingOf src c).elements) := by
    have hfold : (Folded.named (kidsOf src t)).flatMap Reading.elements =
        t.namedChildren.flatMap fun c => (readingOf src c).elements := by
      rw [named_kidsOf, List.flatMap_map]
    rw [← hfold]
    unfold Kind.isCollection at hcollection
    split at hcollection
    case h_9 => cases hcollection
    all_goals
      rename_i hkind
      rw [expOfTree_of_kind hkind (by decide), Reading.plainExp, hkind]
      rfl
  obtain ⟨e, he, hx⟩ := Scope.mem_readsInAll.mp hx
  rw [hexp, Scope.readsIn]
  exact Scope.mem_readsInAll.mpr ⟨e, List.mem_flatMap.mpr ⟨c, hc, he⟩, hx⟩

theorem mem_reads_splat (hshape : ShapedNode t) (hkind : t.kind = .listSplat ∨ t.kind = .dictionarySplat)
    (hplace : place ≠ .argument) (hkept : ¬ PassedOver place t c)
    (hx : x ∈ sc.readsIn false (expOfTree src c)) : x ∈ sc.readsIn false (expOfTree src t) := by
  have hlast : t.namedChildren.getLast? = some c := by
    rcases hkind with hkind | hkind <;> simpa [PassedOver, hkind, hplace] using hkept
  have hvalue : Folded.child? (kidsOf src t) "value" = none := by
    rw [child?_kidsOf, Option.map_eq_none_iff, Tree.child?, List.find?_eq_none]
    intro d hd
    simpa using List.all_eq_true.mp (hshape.splat hkind) d hd
  have hexp : expOfTree src t = expOfTree src c := by
    rcases hkind with hkind | hkind <;>
      rw [expOfTree_of_kind hkind (by decide), Reading.plainExp, hkind, hvalue,
        named_kidsOf, List.getLast?_map, hlast] <;> rfl
  rwa [hexp]

theorem child?_keyword (hshape : ShapedNode t) (hc : c ∈ t.namedChildren) (hextra : isExtra c = false)
    (hkind : t.kind = .keywordArgument) (hread : ¬ Unread t c) : t.child? "value" = some c := by
  have hroles : rolesOf t.kind = ["name", "value"] := by rw [hkind]; rfl
  rcases either_role hshape hc hextra hroles with ⟨hfield, hchild⟩ | ⟨hfield, hchild⟩
  · exact absurd hfield (by simpa [Unread, hkind] using hread)
  · exact hchild (by decide)

theorem mem_reads_keyword (hkind : t.kind = .keywordArgument) (hvalue : t.child? "value" = some c)
    (hx : x ∈ sc.readsIn false (expOfTree src c)) : x ∈ sc.readsIn false (expOfTree src t) := by
  have hexp : expOfTree src t = expOfTree src c := by
    rw [expOfTree_of_kind hkind (by decide), Reading.plainExp, hkind, child?_kidsOf,
      hvalue]
    rfl
  rwa [hexp]

theorem mem_reads_given (keyword : Option String)
    (hgiven : .mk keyword (operandOfTree src c) ∈ (readingOf src t).argument)
    (hx : x ∈ sc.readsIn false (expOfTree src c)) : x ∈ Place.argument.reads src sc t := by
  refine Scope.mem_readsInAll.mpr ⟨expOfTree src c, ?_, hx⟩
  exact mem_toExps.mpr ⟨keyword, operandOfTree src c, hgiven, expOfTree_eq src c⟩

theorem mem_reads_spread (hshape : ShapedNode t) (hc : c ∈ t.namedChildren) (hextra : isExtra c = false)
    (hspread : isSpread t.kind = true) (hread : ¬ Unread t c) (hkept : ¬ PassedOver .argument t c)
    (hx : x ∈ sc.readsIn false (expOfTree src c)) : x ∈ Place.argument.reads src sc t := by
  unfold isSpread at hspread
  split at hspread
  case h_1 hkind =>
    have hfirst : t.namedChildren.head? = some c := by simpa [PassedOver, hkind] using hkept
    refine mem_reads_given none ?_ hx
    rw [argument_eq, Reading.argumentOf, hkind, named_kidsOf, List.head?_map, hfirst]
    exact List.mem_singleton_self _
  case h_2 hkind =>
    have hfirst : t.namedChildren.head? = some c := by simpa [PassedOver, hkind] using hkept
    refine mem_reads_given (some "**") ?_ hx
    rw [argument_eq, Reading.argumentOf, hkind, named_kidsOf, List.head?_map, hfirst]
    exact List.mem_singleton_self _
  case h_3 hkind =>
    have hvalue := child?_keyword hshape hc hextra hkind hread
    refine mem_reads_given (some (Reading.textOf src t "name")) ?_ hx
    rw [argument_eq, Reading.argumentOf, hkind, child?_kidsOf, hvalue]
    exact List.mem_singleton_self _
  case h_4 => cases hspread

theorem mem_reads_pair (hshape : ShapedNode t) (hc : c ∈ t.namedChildren) (hextra : isExtra c = false)
    (hkind : t.kind = .pair) (hx : x ∈ sc.readsIn false (expOfTree src c)) :
    x ∈ Place.element.reads src sc t := by
  have hroles : rolesOf t.kind = ["key", "value"] := by rw [hkind]; rfl
  refine Scope.mem_readsInAll.mpr ⟨expOfTree src c, ?_, hx⟩
  rw [Place.exps, elements_eq, if_pos hkind]
  rcases either_role hshape hc hextra hroles with ⟨-, hchild⟩ | ⟨-, hchild⟩
  · rw [hchild (by decide)]
    exact List.mem_cons_self
  · rw [hchild (by decide)]
    exact List.mem_cons_of_mem _ (List.mem_singleton_self _)

theorem mem_reads_argumentList (hkind : t.kind = .argumentList) (hc : c ∈ t.namedChildren)
    (hx : x ∈ Place.argument.reads src sc c) : x ∈ Place.arguments.reads src sc t := by
  obtain ⟨e, he, hx⟩ := Scope.mem_readsInAll.mp hx
  obtain ⟨keyword, value, hgiven, rfl⟩ := mem_toExps.mp he
  refine Scope.mem_readsInAll.mpr ⟨value.toExp, mem_toExps.mpr ⟨keyword, value, ?_, rfl⟩, hx⟩
  rw [arguments_eq, if_neg (by simp [hkind])]
  exact List.mem_flatMap.mpr ⟨c, Tree.mem_children_of_named hc, hgiven⟩

/-! ### Every occurrence is read -/

theorem mem_reads_name (ht : t.kind = .identifier) :
    pathSymbol src sc t t ∈ sc.readsIn false (expOfTree src t) := by
  rw [expOfTree_of_kind ht (by decide), Reading.plainExp, ht, pathSymbol, if_neg (by simp [ht])]
  exact List.mem_singleton_self _

theorem mem_reads_base (hc : baseOf t = some c) (hname : (unwrap c).kind = .identifier) :
    pathSymbol src sc (unwrap c) t ∈ sc.readsIn false (expOfTree src t) := by
  have hroot : expOfTree src c = .var (src.text (unwrap c)) := by
    rw [← expOfTree_unwrap, expOfTree_of_kind hname (by decide), Reading.plainExp, hname]
  rw [baseOf] at hc
  split at hc
  case h_1 hkind =>
    rw [expOfTree_of_kind hkind (by decide), Reading.plainExp, hkind, expOf_role hc, hroot]
    simp only [Scope.readsIn, Bool.false_eq_true, if_false, if_true, List.append_nil, Scope.resolve,
      Option.toList_some, List.mem_singleton, pathSymbol, hkind, true_and]
    rfl
  case h_2 hkind =>
    rw [expOfTree_of_kind hkind (by decide), Reading.plainExp, hkind, expOf_role hc, hroot,
      pathSymbol, if_neg (by simp [hkind])]
    exact Scope.mem_readsIn_index _ (List.mem_singleton_self _)
  case h_3 => cases hc

/-- A node with a value of its own reads what its parts read. -/
theorem mem_readsIn_part (hshape : ShapedNode t) (hc : c ∈ t.namedChildren) (hextra : isExtra c = false)
    (hread : ¬ Unread t c) (hkept : ¬ PassedOver place t c)
    (hbase : baseOf t = some c → (unwrap c).kind ≠ .identifier) (hg : place.gathers t = false)
    (hspread : isSpread t.kind = true → place ≠ .argument) (hcollection : t.kind.isCollection = false)
    (hrest : t.kind ≠ .call ∧ t.kind ≠ .pair ∧ t.kind ≠ .argumentList)
    (hx : x ∈ sc.readsIn false (expOfTree src c)) : x ∈ sc.readsIn false (expOfTree src t) := by
  unfold Place.gathers at hg
  split at hg
  case h_1 hkind =>
    have hleaf := hshape.not_leaf hc
    simp [isLeafKind, hkind] at hleaf
  case h_2 hkind => exact mem_reads_attribute hshape hc hextra hkind hread hbase hx
  case h_3 hkind => exact mem_reads_subscript hshape hc hextra hkind hkept hx
  case h_4 hkind => exact absurd hkind hrest.1
  case h_5 hkind | h_6 hkind => simp [PassedOver, hkind] at hkept
  case h_7 hkind => simp [Unread, hkind] at hread
  case h_8 hkind => exact absurd hkind hrest.2.1
  case h_9 hkind => exact absurd hkind hrest.2.2
  case h_10 hkind =>
    have hthree : t.namedChildren.length = 3 := by simpa using (Bool.or_eq_false_iff.mp hg).2
    exact mem_reads_conditional hkind hc hthree hx
  case h_11 hkind | h_12 hkind => exact mem_reads_wrapper (by rw [hkind]; rfl) hkept hx
  case h_13 hkind => exact mem_reads_binary hshape hc hextra (Or.inl hkind) hx
  case h_14 hkind => exact mem_reads_binary hshape hc hextra (Or.inr hkind) hx
  case h_15 hkind => exact mem_reads_comparison hshape hkind hkept hx
  case h_16 hkind => exact mem_reads_unary hshape hc hextra (Or.inl hkind) hx
  case h_17 hkind => exact mem_reads_unary hshape hc hextra (Or.inr hkind) hx
  case h_18 hkind =>
    exact mem_reads_splat hshape (Or.inl hkind) (hspread (by rw [hkind]; rfl)) hkept hx
  case h_19 hkind =>
    exact mem_reads_splat hshape (Or.inr hkind) (hspread (by rw [hkind]; rfl)) hkept hx
  case h_20 hkind =>
    exact mem_reads_keyword hkind (child?_keyword hshape hc hextra hkind hread) hx
  case h_21 => simp [hcollection] at hg

theorem isCollection_of_isSpread {k : Kind} (h : isSpread k = true) :
    k.isCollection = false ∧ k ≠ .call := by
  unfold isSpread at h
  split at h
  case h_4 => cases h
  all_goals exact ⟨rfl, by decide⟩

theorem isPath_of_reference (hread : ¬ Unread t c) (hkept : ¬ PassedOver .reference t c)
    (hg : Place.reference.gathers t = false) : t.kind.isPath = true ∨ t.kind = .call := by
  unfold Place.gathers at hg
  split at hg
  case h_1 hkind | h_2 hkind | h_3 hkind => exact Or.inl (by rw [hkind]; rfl)
  case h_4 hkind => exact Or.inr hkind
  case h_5 hkind | h_6 hkind => simp [PassedOver, hkind] at hkept
  case h_7 hkind => simp [Unread, hkind] at hread
  all_goals simp at hg

theorem mem_reads_part (hshape : ShapedNode t) (hc : c ∈ t.namedChildren) (hextra : isExtra c = false)
    (hread : ¬ Unread t c) (hkept : ¬ PassedOver place t c)
    (hbase : baseOf t = some c → (unwrap c).kind ≠ .identifier)
    (harguments : place = .arguments → t.kind = .argumentList ∨ t.kind = .generatorExpression)
    (hg : place.gathers t = false) (hx : x ∈ (place.below t).reads src sc c) :
    x ∈ place.reads src sc t := by
  rw [Place.below, hg, if_neg Bool.false_ne_true] at hx
  by_cases hlist : t.kind = .argumentList
  · obtain rfl : place = .arguments := by simpa [Place.gathers, hlist] using hg
    rw [hlist] at hx
    exact mem_reads_argumentList hlist hc hx
  have hplace : place ≠ .arguments := by
    rintro rfl
    simp [Place.gathers, (harguments rfl).resolve_left hlist, Kind.isCollection] at hg
  by_cases hpair : t.kind = .pair
  · obtain rfl : place = .element := by simpa [Place.gathers, hpair] using hg
    rw [hpair] at hx
    exact mem_reads_pair hshape hc hextra hpair (mem_reads_value.mp hx)
  by_cases hspread : isSpread t.kind = true ∧ place = .argument
  · obtain ⟨hspread, rfl⟩ := hspread
    obtain ⟨hcollection, hcall⟩ := isCollection_of_isSpread hspread
    rw [hcollection, if_neg Bool.false_ne_true, if_neg hcall] at hx
    exact mem_reads_spread hshape hc hextra hspread hread hkept (mem_reads_value.mp hx)
  have hown : place.Own t := by
    refine ⟨?_, fun _ => hpair, ?_, fun h => absurd h hplace⟩
    · rintro rfl
      exact isPath_of_reference hread hkept hg
    · rintro rfl
      exact ⟨by simpa using hspread, isSeparator_of_not_leaf (hshape.not_leaf hc)⟩
  apply mem_reads_of_own hown
  cases hcollection : t.kind.isCollection with
  | true =>
    rw [hcollection] at hx
    exact mem_reads_collection hcollection hc hx
  | false =>
    rw [hcollection, if_neg Bool.false_ne_true] at hx
    by_cases hcall : t.kind = .call
    · rw [if_pos hcall] at hx
      exact mem_reads_arguments hcall (child?_arguments hshape hc hextra hcall hread hkept) hx
    · rw [if_neg hcall, if_neg hplace] at hx
      exact mem_readsIn_part hshape hc hextra hread hkept hbase hg (fun h h' => hspread ⟨h, h'⟩)
        hcollection ⟨hcall, hpair, hlist⟩ (mem_reads_value.mp hx)

theorem own_of_path (hpath : t.kind.isPath = true ∨ t.kind = .call)
    (harguments : place = .arguments → t.kind = .argumentList ∨ t.kind = .generatorExpression) :
    place.Own t where
  reference _ := hpath
  element _ hkind := by simp [hkind, Kind.isPath] at hpath
  argument _ := by
    rcases hpath with hpath | hkind
    · unfold Kind.isPath at hpath
      split at hpath
      case h_1 hkind | h_2 hkind | h_3 hkind => rw [hkind]; exact ⟨rfl, rfl⟩
      case h_4 => cases hpath
    · rw [hkind]
      exact ⟨rfl, rfl⟩
  arguments h := (harguments h).resolve_left fun hkind => by simp [hkind, Kind.isPath] at hpath

theorem kind_of_baseOf (hc : baseOf t = some c) : t.kind.isPath = true := by
  rw [baseOf] at hc
  split at hc
  case h_1 hkind | h_2 hkind => rw [hkind]; rfl
  case h_3 => cases hc

theorem call_of_below (h : place.below t = .arguments) : t.kind = .call := by
  unfold Place.below at h
  split at h
  · cases h
  split at h
  · cases h
  split at h
  · assumption
  split at h
  · cases h
  · cases h

theorem mem_reads_of_occurs {d p : Tree} (h : Occurs place t d p) (hshape : Shaped t)
    (harguments : place = .arguments → t.kind = .argumentList ∨ t.kind = .generatorExpression) :
    pathSymbol src sc d p ∈ place.reads src sc t := by
  -- On the occurrence: each step up keeps the symbol among the reads, in the place of the parent.
  induction h with
  | @name place t ht =>
    exact mem_reads_of_own (own_of_path (Or.inl (by rw [ht]; rfl)) harguments) (mem_reads_name ht)
  | @base place t c d hc hd hname =>
    subst hd
    exact mem_reads_of_own (own_of_path (Or.inl (kind_of_baseOf hc)) harguments) (mem_reads_base hc hname)
  | @receiver place t f o d p ht hf hkind ho _ ih =>
    have hobject : Shaped o := fun d hd => hshape d <|
      Tree.mem_subtrees_of_child (Tree.mem_children_of_child? hf)
        (Tree.mem_subtrees_of_child (Tree.mem_children_of_child? ho) hd)
    have hx := mem_reads_value.mp (ih hobject fun h => by cases h)
    exact mem_reads_of_own (own_of_path (Or.inr ht) harguments) (mem_reads_receiver ht hf hkind ho hx)
  | @part place t c d p hc hread hkept hbase h ih =>
    have hnode : ShapedNode t := hshape t t.self_mem_subtrees
    have hbelow : Shaped c := fun d hd =>
      hshape d (Tree.mem_subtrees_of_child (Tree.mem_children_of_named hc) hd)
    have hextra := h.not_extra (hbelow c c.self_mem_subtrees)
    cases hg : place.gathers t with
    | true =>
      have hplace : place.below t = .reference := by rw [Place.below, hg, if_pos rfl]
      rw [hplace] at ih
      exact mem_reads_gathered hnode harguments hg hc (ih hbelow fun h => by cases h)
    | false =>
      have hkept := hkept.resolve_left (by simp [hg])
      refine mem_reads_part hnode hc hextra hread hkept hbase harguments hg (ih hbelow fun hplace => ?_)
      have hcall := call_of_below hplace
      have hfield := List.find?_some (child?_arguments hnode hc hextra hcall hread hkept)
      exact hnode.arguments hcall c hc (eq_of_beq hfield)

/-- Every name that occurs in an expression outside the parts that are passed over is read: the
symbol that the innermost access path around it stands for is among the reads. -/
theorem occurrence_read (src : Source) (sc : Scope) {e d p : Tree} (hshape : Shaped e)
    (h : Occurs .value e d p) :
    pathSymbol src sc d p ∈ sc.readsOfExp (expOfTree src e) := by
  rw [Scope.readsOfExp, mem_distinct]
  exact mem_reads_value.mp (mem_reads_of_occurs h hshape fun h => by cases h)

end Places

/-! ### Two expressions -/

def readingScope : Scope where
  procedure := { name := "C.m", params := [("self", .unknown), ("o", .unknown), ("k", .unknown)],
                 isMethod := true, className := some "C" }

def keptSource : Source := .ofText "" "o.m(self.f[k], n=x)"

def keptField : Tree := .inLine .attribute (some "value") 4 10
  [.inLine .identifier (some "object") 4 8 [], .inLine .identifier (some "attribute") 9 10 []]

def keptElement : Tree :=
  .inLine .subscript none 4 13 [keptField, .inLine .identifier (some "subscript") 11 12 []]

def keptArguments : Tree := .inLine .argumentList (some "arguments") 3 19 [keptElement,
  .inLine .keywordArgument none 15 18 [.inLine .identifier (some "name") 15 16 [],
    .inLine .identifier (some "value") 17 18 []]]

def keptCallee : Tree := .inLine .attribute (some "function") 0 3
  [.inLine .identifier (some "object") 0 1 [], .inLine .identifier (some "attribute") 2 3 []]

def keptCall : Tree := .inLine .call none 0 19 [keptCallee, keptArguments]

/-- The receiver of a call, and a field of `self` in an element that is an argument. -/
theorem occurrence_read_call : Shaped keptCall ∧
    readingScope.symbolOf "o" ∈ readingScope.readsOfExp (expOfTree keptSource keptCall) ∧
    readingScope.fieldOf "f" ∈ readingScope.readsOfExp (expOfTree keptSource keptCall) := by
  let receiver : Tree := .inLine .identifier (some "object") 0 1 []
  let self : Tree := .inLine .identifier (some "object") 4 8 []
  have hshape : Shaped keptCall := by decide
  have hreceiver : Occurs .value keptCall receiver receiver := .receiver rfl rfl rfl rfl (.name rfl)
  have hfield : Occurs .value keptField self keptField := .base rfl rfl rfl
  have helement : Occurs .argument keptElement self keptField :=
    .part List.mem_cons_self not_false (Or.inr fun h => absurd h.1 (by decide)) (fun _ => by decide)
      hfield
  have harguments : Occurs .arguments keptArguments self keptField :=
    .part List.mem_cons_self not_false (Or.inr not_false) (fun h => by cases h) helement
  have hself : Occurs .value keptCall self keptField :=
    .part (List.mem_cons_of_mem _ List.mem_cons_self) (fun h => absurd h.1 (by decide))
      (Or.inr fun h => absurd h.1 (by decide)) (fun h => by cases h) harguments
  have ho : pathSymbol keptSource readingScope receiver receiver = readingScope.symbolOf "o" := by
    decide +kernel
  have hf : pathSymbol keptSource readingScope self keptField = readingScope.fieldOf "f" := by
    decide +kernel
  exact ⟨hshape, ho ▸ occurrence_read keptSource readingScope hshape hreceiver,
    hf ▸ occurrence_read keptSource readingScope hshape hself⟩

def passedSource : Source := .ofText "" "(f\"\x7bp\x7d\", a<b<c, q[r,s], h[k](x))"

/-- An interpolation, a chained comparison, two subscripts and a call of an element. -/
def passedTuple : Tree := .inLine .tupleDisplay none 0 32
  [.inLine .string none 1 7 [.inLine .interpolation none 3 6 [.inLine .identifier none 4 5 []]],
    .inLine .comparisonOperator none 9 14 [.inLine .identifier none 9 10 [],
      .inLine .identifier none 11 12 [], .inLine .identifier none 13 14 []],
    .inLine .subscript none 16 22 [.inLine .identifier (some "value") 16 17 [],
      .inLine .identifier (some "subscript") 18 19 [], .inLine .identifier (some "subscript") 20 21 []],
    .inLine .call none 24 31 [.inLine .subscript (some "function") 24 28
        [.inLine .identifier (some "value") 24 25 [], .inLine .identifier (some "subscript") 26 27 []],
      .inLine .argumentList (some "arguments") 28 31 [.inLine .identifier none 29 30 []]]]

theorem passed_over_not_read :
    Shaped passedTuple ∧
      (passedTuple.subtrees.filter fun d => d.kind = .identifier).map passedSource.text =
        ["p", "a", "b", "c", "q", "r", "s", "h", "k", "x"] ∧
      readingScope.readsOfExp (expOfTree passedSource passedTuple) =
        ["a", "b", "q", "r", "x"].map readingScope.symbolOf := by
  decide +kernel

end ActorOwnership
