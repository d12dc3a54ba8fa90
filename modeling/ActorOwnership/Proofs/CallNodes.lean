import ActorOwnership.Proofs.Nodes

/-! Calls in a syntax tree: the name that a call node calls, the object that it is called on, and
the nodes of its arguments with their keywords. -/

namespace ActorOwnership
open Syntax Surface
set_option autoImplicit false

namespace Syntax.Tree
variable (src : Source) (t : Tree)

/-- The name that a call node calls, which of an attribute is its last part. -/
def calleeName : String :=
  match t.child? "function" with
  | none => ""
  | some f => if f.kind = .attribute then src.textOr "" (f.child? "attribute") else src.text f

/-- What is called by an attribute is called on its object. -/
def receiver? : Option Exp :=
  match t.child? "function" with
  | none => none
  | some f => if f.kind = .attribute then some (expOfTree? src (f.child? "object")) else none

/-- What a node among the arguments of a call passes: nothing, or a value with its keyword. -/
def argumentNode : List (Option String × Tree) :=
  match t.kind with
  | .punctuation _ | .comment => []
  | .keywordArgument =>
    (t.child? "value").toList.map fun v => (some (src.textOr "" (t.child? "name")), v)
  | .listSplat => t.namedChildren.head?.toList.map fun v => (none, v)
  | .dictionarySplat => t.namedChildren.head?.toList.map fun v => (some "**", v)
  | _ => [(none, t)]

/-- The values that an argument list passes. -/
def argumentNodes : List (Option String × Tree) :=
  if t.kind = .generatorExpression then [(none, t)] else t.children.flatMap (argumentNode src)

/-- The values that a call node passes. -/
def callArguments : List (Option String × Tree) :=
  ((t.child? "arguments").map (argumentNodes src)).getD []

variable {src t} {a : Option String × Tree}

theorem mem_subtrees_of_argumentNode (h : a ∈ t.argumentNode src) : a.2 ∈ t.subtrees := by
  have hchild {v : Tree} (hv : v ∈ t.children) : v ∈ t.subtrees :=
    mem_subtrees_of_child hv v.self_mem_subtrees
  have hfirst {v : Tree} (hv : v ∈ t.namedChildren.head?.toList) : v ∈ t.subtrees :=
    hchild (mem_children_of_named (List.mem_of_head? (Option.mem_toList.mp hv)))
  unfold argumentNode at h
  split at h
  · cases h
  · cases h
  · obtain ⟨v, hv, rfl⟩ := List.mem_map.mp h
    exact hchild (mem_children_of_child? (Option.mem_toList.mp hv))
  · obtain ⟨v, hv, rfl⟩ := List.mem_map.mp h
    exact hfirst hv
  · obtain ⟨v, hv, rfl⟩ := List.mem_map.mp h
    exact hfirst hv
  · obtain rfl := List.mem_singleton.mp h
    exact t.self_mem_subtrees

theorem mem_subtrees_of_argumentNodes (h : a ∈ t.argumentNodes src) : a.2 ∈ t.subtrees := by
  unfold argumentNodes at h
  split at h
  · obtain rfl := List.mem_singleton.mp h
    exact t.self_mem_subtrees
  · obtain ⟨c, hc, ha⟩ := List.mem_flatMap.mp h
    exact mem_subtrees_of_child hc (mem_subtrees_of_argumentNode ha)

theorem mem_descendants_of_callArguments (h : a ∈ t.callArguments src) : a.2 ∈ t.descendants := by
  unfold callArguments at h
  cases hargs : t.child? "arguments" with
  | none =>
    rw [hargs] at h
    cases h
  | some c =>
    rw [hargs] at h
    exact mem_descendants_of_child (mem_children_of_child? hargs) (mem_subtrees_of_argumentNodes h)

end Syntax.Tree

namespace Surface
variable (src : Source) (t : Tree)

/-- A node that is passed with a keyword, as an argument. -/
def argumentAt (a : Option String × Tree) : Argument := .mk a.1 (operandOfTree src a.2)

theorem argument_readingOf :
    (readingOf src t).argument = (t.argumentNode src).map (argumentAt src) := by
  rw [argument_eq, Reading.argumentOf, Tree.argumentNode, child?_kidsOf, named_kidsOf]
  generalize t.kind = kind
  cases kind with
  | keywordArgument => cases t.child? "value" <;> rfl
  | listSplat | dictionarySplat => cases t.namedChildren <;> rfl
  | _ => rfl

theorem arguments_readingOf :
    (readingOf src t).arguments = (t.argumentNodes src).map (argumentAt src) := by
  rw [arguments_eq, Tree.argumentNodes]
  split
  · rfl
  · rw [List.map_flatMap, funext (argument_readingOf src)]

variable {t}

theorem calleeOf_kidsOf :
    Reading.calleeOf src (kidsOf src t) = (t.calleeName src, t.receiver? src) := by
  have hfind : (kidsOf src t).find? (fun k => k.1.field == some "function") =
      (t.child? "function").map fun f => (f, readingOf src f) := find?_field_map _ _
  rw [Reading.calleeOf, hfind, Tree.calleeName, Tree.receiver?]
  cases t.child? "function" with
  | none => rfl
  | some f =>
    simp only [Option.map_some]
    by_cases hkind : f.kind = .attribute
    · have hexp : (readingOf src f).exp =
          .field (expOfTree? src (f.child? "object")) (src.textOr "" (f.child? "attribute")) := by
        have hplain : operandOfTree src f = .value (Reading.plainExp src f (kidsOf src f)) :=
          operandOfTree_plain (by rw [hkind]; exact Or.inl rfl) (by rw [hkind]; nofun)
        rw [← expOfTree, expOfTree_eq, hplain, Operand.toExp, ← expOf_kidsOf, Reading.plainExp, hkind]
        rfl
      rw [hkind, hexp, if_pos rfl, if_pos rfl]
    · rw [if_neg hkind, if_neg hkind]
      generalize f.kind = kind at hkind
      cases kind <;> first | rfl | exact absurd rfl hkind

/-- A call node as a call with its parts. -/
theorem operandOfTree_call (h : t.kind = .call) :
    operandOfTree src t =
      .call (t.calleeName src) (t.receiver? src) ((t.callArguments src).map (argumentAt src)) := by
  have hwrap : t.kind.isWrapper = false := by rw [h]; rfl
  rw [operandOfTree_eq, Reading.operandOf, hwrap]
  simp only [h, if_true, Reading.callOf, calleeOf_kidsOf, child?_kidsOf, Option.map_map]
  congr 1
  rw [Tree.callArguments]
  cases t.child? "arguments" with
  | none => rfl
  | some a => exact arguments_readingOf src a

end Surface

end ActorOwnership
