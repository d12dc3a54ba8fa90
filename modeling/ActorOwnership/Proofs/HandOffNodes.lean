import ActorOwnership.Proofs.CallNodes
import ActorOwnership.Proofs.Hoisting

/-! The hand-offs of a syntax tree. A call node whose name is in the catalog becomes a hand-off
instruction where it is a statement, is assigned to a plain name, or stands in the place of a value
that is computed on its own: an assigned or returned value, an argument of another hand-off. Call
nodes below any other expression do not. The procedure of a function has exactly these hand-offs,
each of them once. -/

namespace ActorOwnership.Lowering
open Syntax Surface
set_option autoImplicit false

/-! ### Calls in the place of a value -/

/-- The calls at or below a node that become instructions of their own. -/
structure Hoisted where
  /-- The node as a value. -/
  value : List Tree
  /-- The node as one argument of a call. -/
  argument : List Tree
  /-- The node as the argument list of a call. -/
  arguments : List Tree

section Calls
variable (catalog : Catalog) (src : Source)

/-- A call of a name in the catalog. -/
def isHandOff (t : Tree) : Bool := t.kind = .call && (catalog.find? (t.calleeName src)).isSome

def hoistStep (t : Tree) (kids : List (Tree × Hoisted)) : Hoisted :=
  let value :=
    match t.kind.isWrapper, Folded.named kids with
    | true, inner :: _ => inner.value
    | _, _ =>
      if isHandOff catalog src t then
        ((Folded.child? kids "arguments").map Hoisted.arguments).getD [] ++ [t]
      else []
  { value := value
    argument :=
      match t.kind with
      | .punctuation _ | .comment => []
      | .keywordArgument => ((Folded.child? kids "value").map Hoisted.value).getD []
      | .listSplat | .dictionarySplat => ((Folded.named kids).head?.map Hoisted.value).getD []
      | _ => value
    arguments :=
      if t.kind = .generatorExpression then value else kids.flatMap fun k => k.2.argument }

def hoist (t : Tree) : Hoisted := t.fold (hoistStep catalog src)

/-- The calls that become instructions where the node is a value. -/
def hoistedCalls (t : Tree) : List Tree := (hoist catalog src t).value

def hoistedArguments (t : Tree) : List Tree :=
  (t.callArguments src).flatMap fun a => hoistedCalls catalog src a.2

/-- The calls that become hand-offs where a call is an instruction in any case. -/
def performedCalls (t : Tree) : List Tree :=
  if (unwrap t).kind = .call then
    hoistedArguments catalog src (unwrap t) ++
      (if isHandOff catalog src (unwrap t) then [unwrap t] else [])
  else []

variable (t : Tree)

theorem hoist_eq : hoist catalog src t =
    hoistStep catalog src t (t.children.map fun c => (c, hoist catalog src c)) := Tree.fold_eq _ t

theorem argument_hoist : (hoist catalog src t).argument =
    (t.argumentNode src).flatMap fun a => hoistedCalls catalog src a.2 := by
  have hvalue : [(none, t)].flatMap (fun a : Option String × Tree => hoistedCalls catalog src a.2) =
      (hoist catalog src t).value := List.append_nil _
  rw [hoist_eq, hoistStep] at hvalue
  rw [hoist_eq, hoistStep, Tree.argumentNode]
  simp only [child?_map, named_map] at hvalue ⊢
  generalize t.kind = kind at hvalue ⊢
  cases kind with
  | punctuation | comment => rfl
  | keywordArgument => cases t.child? "value" <;> simp [hoistedCalls]
  | listSplat | dictionarySplat => cases t.namedChildren <;> simp [hoistedCalls]
  | _ => exact hvalue.symm

theorem arguments_hoist : (hoist catalog src t).arguments =
    (t.argumentNodes src).flatMap fun a => hoistedCalls catalog src a.2 := by
  have hvalue : [(none, t)].flatMap (fun a : Option String × Tree => hoistedCalls catalog src a.2) =
      (hoist catalog src t).value := List.append_nil _
  rw [Tree.argumentNodes]
  split
  · rename_i hkind
    rw [hvalue, hoist_eq, hoistStep]
    exact if_pos hkind
  · rename_i hkind
    rw [List.flatMap_assoc, ← funext (argument_hoist catalog src), hoist_eq, hoistStep]
    exact (if_neg hkind).trans (List.flatMap_map ..)

theorem hoistedCalls_wrapper (ht : t.kind.isWrapper = true) {c : Tree} {cs : List Tree}
    (hcs : t.namedChildren = c :: cs) : hoistedCalls catalog src t = hoistedCalls catalog src c := by
  rw [hoistedCalls, hoist_eq, hoistStep, named_map, ht, hcs]
  rfl

theorem hoistedCalls_plain (ht : t.kind.isWrapper = false ∨ t.namedChildren = []) :
    hoistedCalls catalog src t =
      if isHandOff catalog src t then hoistedArguments catalog src t ++ [t] else [] := by
  have harguments : (((t.child? "arguments").map (hoist catalog src)).map Hoisted.arguments).getD [] =
      hoistedArguments catalog src t := by
    rw [hoistedArguments, Tree.callArguments]
    cases t.child? "arguments" with
    | none => rfl
    | some a => exact arguments_hoist catalog src a
  rw [hoistedCalls, hoist_eq, hoistStep, child?_map, harguments, named_map]
  rcases ht with ht | ht
  · rw [ht]
  · rw [ht]
    cases t.kind.isWrapper <;> rfl

/-- A value is a hand-off, or nothing below it is one. -/
theorem hoistedCalls_eq : hoistedCalls catalog src t =
    if isHandOff catalog src (unwrap t) then
      hoistedArguments catalog src (unwrap t) ++ [unwrap t]
    else [] := by
  have hunwrap : hoistedCalls catalog src (unwrap t) = hoistedCalls catalog src t := by
    induction t using Tree.induct with
    | h t ih =>
      rw [unwrap_eq]
      split
      · rename_i c rest hwrap heq
        rw [ih c (Tree.mem_children_of_named (heq ▸ List.mem_cons_self)),
          hoistedCalls_wrapper catalog src t hwrap heq]
      · rfl
  rw [← hunwrap, hoistedCalls_plain catalog src _ (isWrapper_unwrap t)]

end Calls

/-! ### Handovers of call nodes -/

section Handovers
variable (catalog : Catalog) (src : Source)

/-- What a call node gives away in a statement at `loc`. -/
def handoverAt (loc : Location) (t : Tree) : Option Handover :=
  (catalog.find? (t.calleeName src)).map fun spec =>
    ⟨loc, .const (.text (t.calleeName src)), t.receiver? src,
      givenUpIndices spec ((t.callArguments src).map Prod.fst), spec.description⟩

variable {catalog src} {t : Tree} (loc : Location)

theorem callHandover_node : callHandover catalog loc (t.calleeName src) (t.receiver? src)
    ((t.callArguments src).map (argumentAt src)) = (handoverAt catalog src loc t).toList := by
  rw [callHandover, handoverAt, List.map_map]
  rfl

theorem argumentHandovers_nodes (as : List (Option String × Tree)) :
    argumentHandovers catalog loc (as.map (argumentAt src)) =
      as.flatMap fun a => operandHandovers catalog loc (operandOfTree src a.2) := by
  induction as with
  | nil => simp only [List.map_nil, argumentHandovers, List.flatMap_nil]
  | cons a as ih => rw [List.map_cons, argumentAt, argumentHandovers, ih, List.flatMap_cons]

theorem argumentHandovers_call (t : Tree)
    (h : ∀ a ∈ t.callArguments src, (operandHandovers catalog loc (operandOfTree src a.2)).map some =
      (hoistedCalls catalog src a.2).map (handoverAt catalog src loc)) :
    (argumentHandovers catalog loc ((t.callArguments src).map (argumentAt src))).map some =
      (hoistedArguments catalog src t).map (handoverAt catalog src loc) := by
  rw [argumentHandovers_nodes, hoistedArguments, List.map_flatMap, List.map_flatMap, List.flatMap_def,
    List.flatMap_def, List.map_congr_left h]

theorem map_handoverAt (h : isHandOff catalog src t = true) :
    (handoverAt catalog src loc t).toList.map some = [t].map (handoverAt catalog src loc) := by
  rw [isHandOff, Bool.and_eq_true, Option.isSome_iff_exists] at h
  obtain ⟨_, spec, hspec⟩ := h
  rw [List.map_singleton, handoverAt, hspec]
  rfl

theorem handoverAt_of_not (hcall : t.kind = .call) (h : isHandOff catalog src t = false) :
    handoverAt catalog src loc t = none := by
  rw [isHandOff, decide_eq_true hcall, Bool.true_and, Option.isSome_eq_false_iff,
    Option.isNone_iff_eq_none] at h
  rw [handoverAt, h]
  rfl

/-- An operand that is no call. -/
theorem operandOfTree_of_not_call (src : Source) (h : (unwrap t).kind ≠ .call) :
    ∃ e, operandOfTree src t = .value e :=
  ⟨_, (operandOfTree_unwrap src t).symm.trans (operandOfTree_plain (isWrapper_unwrap t) h)⟩

theorem operandHandovers_node (t : Tree) :
    (operandHandovers catalog loc (operandOfTree src t)).map some =
      (hoistedCalls catalog src t).map (handoverAt catalog src loc) := by
  induction t using Tree.induct_descendants with
  | h t ih =>
    rw [hoistedCalls_eq]
    by_cases hcall : (unwrap t).kind = .call
    · have hargs := argumentHandovers_call loc (unwrap t) fun a ha =>
        ih a.2 (Tree.mem_descendants_of_subtree (unwrap_mem_subtrees t)
          (Tree.mem_descendants_of_callArguments ha))
      rw [← operandOfTree_unwrap, operandOfTree_call src hcall, operandHandovers]
      cases hhand : isHandOff catalog src (unwrap t) with
      | false =>
        rw [isHandOff, decide_eq_true hcall, Bool.true_and] at hhand
        rw [hhand]
        rfl
      | true =>
        rw [if_pos rfl, if_pos (Bool.and_eq_true_iff.mp hhand).2, List.map_append, hargs,
          callHandover_node, map_handoverAt loc hhand, List.map_append]
    · obtain ⟨e, he⟩ := operandOfTree_of_not_call src hcall
      have hnone : isHandOff catalog src (unwrap t) = false := by
        rw [isHandOff, decide_eq_false hcall, Bool.false_and]
      rw [he, hnone]
      rfl

theorem tempHandovers_node : (tempHandovers catalog loc (operandOfTree src t)).map some =
    (performedCalls catalog src t).map (handoverAt catalog src loc) := by
  rw [performedCalls]
  by_cases hcall : (unwrap t).kind = .call
  · have hargs : (argumentHandovers catalog loc
        (((unwrap t).callArguments src).map (argumentAt src))).map some =
          (hoistedArguments catalog src (unwrap t)).map (handoverAt catalog src loc) :=
      argumentHandovers_call loc (unwrap t) fun a _ => operandHandovers_node loc a.2
    rw [← operandOfTree_unwrap, operandOfTree_call src hcall, tempHandovers, callHandovers,
      List.map_append, hargs, callHandover_node, if_pos hcall, List.map_append]
    cases hhand : isHandOff catalog src (unwrap t) with
    | false =>
      rw [handoverAt_of_not loc hcall hhand]
      rfl
    | true => rw [map_handoverAt loc hhand, if_pos rfl]
  · obtain ⟨e, he⟩ := operandOfTree_of_not_call src hcall
    rw [he, if_neg hcall]
    rfl

end Handovers

/-! ### Places of operands -/

/-- A node whose value a statement at `loc` computes, and whether a call there is an instruction in
any case. -/
structure OperandPlace where
  loc : Location
  node : Tree
  isInstruction : Bool

/-- A call node in a statement. -/
structure CallSite where
  loc : Location
  call : Tree

section Places
variable (catalog : Catalog) (src : Source)

def CallSite.handover? (site : CallSite) : Option Handover := handoverAt catalog src site.loc site.call

def OperandPlace.sites (place : OperandPlace) : List CallSite :=
  (if place.isInstruction then performedCalls catalog src place.node
    else hoistedCalls catalog src place.node).map (⟨place.loc, ·⟩)

/-- The elements of both sides of an assignment. A value that mentions a target makes temporaries of
all values. -/
def pairPlaces (loc : Location) (left right : Tree) : List OperandPlace :=
  ((pairElements left).zip (pairElements right)).map fun p =>
    ⟨loc, p.2, overlaps (pairsOf src left right) || p.1.kind = .identifier⟩

/-- An assignment whose right side is not an assignment itself. -/
def assignmentPlaces (t left : Tree) : List OperandPlace :=
  match t.child? "right" with
  | none => []
  | some right =>
    if (t.child? "type").isSome && left.kind = .identifier then [⟨locationOf src t, right, false⟩]
    else if isPairwise left (unwrap right) then pairPlaces src (locationOf src t) left (unwrap right)
    else [⟨locationOf src t, right, left.kind = .identifier⟩]

/-- Of several targets in a row only the innermost one takes the value. -/
def chainPlaces (t : Tree) : List OperandPlace :=
  t.fold fun t kids =>
    match t.kind, t.child? "left", kids.find? fun k => k.1.field == some "right" with
    | .assignment, some left, some (right, inner) =>
      if right.kind = .assignment then inner else assignmentPlaces src t left
    | _, _, _ => []

def augmentedPlaces (t : Tree) : List OperandPlace :=
  match t.child? "left", t.child? "right" with
  | some _, some right => [⟨locationOf src t, right, false⟩]
  | _, _ => []

def expressionPlaces (t : Tree) : List OperandPlace :=
  match (unwrap t).kind with
  | .call => [⟨locationOf src (unwrap t), unwrap t, true⟩]
  | .assignment => chainPlaces src (unwrap t)
  | .augmentedAssignment => augmentedPlaces src (unwrap t)
  | _ => []

/-- The operands of a statement without blocks. -/
def simplePlaces (t : Tree) : List OperandPlace :=
  match t.kind with
  | .expressionStatement => t.children.flatMap (expressionPlaces src)
  | .assignment => chainPlaces src t
  | .augmentedAssignment => augmentedPlaces src t
  | _ => []

def returnPlaces (t : Tree) : List OperandPlace :=
  t.namedChildren.head?.toList.map fun v => ⟨locationOf src t, v, false⟩

/-- A context without a name is entered by a call in any case. -/
def itemPlaces (loc : Location) (t : Tree) : List OperandPlace :=
  match (t.child? "value").or t.namedChildren.head? with
  | none => []
  | some value =>
    if value.kind = .asPattern then
      value.namedChildren.head?.toList.map fun e =>
        ⟨loc, e, (aliasOf value).all (·.kind = .identifier)⟩
    else [⟨loc, value, true⟩]

def withPlaces (t : Tree) : List OperandPlace :=
  (t.children.filter (·.kind = .withClause)).flatMap fun clause =>
    (clause.namedChildren.filter (·.kind = .withItem)).flatMap (itemPlaces (locationOf src t))

/-- The handovers of what the node reads as. -/
def OperandPlace.handovers (place : OperandPlace) : List Handover :=
  if place.isInstruction then tempHandovers catalog place.loc (operandOfTree src place.node)
  else operandHandovers catalog place.loc (operandOfTree src place.node)

theorem handovers_places (places : List OperandPlace) :
    (places.flatMap (OperandPlace.handovers catalog src)).map some =
      (places.flatMap (OperandPlace.sites catalog src)).map (CallSite.handover? catalog src) := by
  have hplace : ∀ place ∈ places, (place.handovers catalog src).map some =
      (place.sites catalog src).map (CallSite.handover? catalog src) := by
    rintro ⟨loc, node, isInstruction⟩ -
    rw [OperandPlace.handovers, OperandPlace.sites, List.map_map]
    cases isInstruction with
    | true => exact tempHandovers_node loc
    | false => exact operandHandovers_node loc node
  rw [List.map_flatMap, List.map_flatMap, List.flatMap_def, List.flatMap_def,
    List.map_congr_left hplace]

variable (t : Tree)

theorem assignHandovers_destination (loc : Location) (left v : Tree) :
    assignHandovers catalog loc (destinationOf src left) (operandOfTree src v) =
      OperandPlace.handovers catalog src ⟨loc, v, left.kind = .identifier⟩ := by
  rw [destinationOf, OperandPlace.handovers]
  by_cases hkind : left.kind = .identifier
  · simp only [hkind, if_true, decide_true]
    cases operandOfTree src v with
    | value e => simp only [assignHandovers, operandHandovers, tempHandovers]
    | call => rfl
  · simp only [hkind, if_false, decide_false, Bool.false_eq_true]
    rfl

theorem pairsHandovers_pairsOf (loc : Location) (left right : Tree) :
    pairsHandovers catalog loc (pairsOf src left right) =
      (pairPlaces src loc left right).flatMap (OperandPlace.handovers catalog src) := by
  rw [pairsHandovers, pairPlaces, List.flatMap_map]
  cases overlaps (pairsOf src left right) with
  | true =>
    rw [if_pos rfl, pairsOf, List.flatMap_map]
    rfl
  | false =>
    rw [if_neg Bool.false_ne_true, pairsOf, List.flatMap_map]
    simp only [assignHandovers_destination, Bool.false_or]

theorem headHandovers_simpleAssignment (left : Tree) :
    (simpleAssignment src t left).flatMap (headHandovers catalog) =
      (assignmentPlaces src t left).flatMap (OperandPlace.handovers catalog src) := by
  rw [assignmentPlaces]
  simp only [simpleAssignment]
  split
  · rename_i type htype hkind
    rw [hkind, htype]
    cases t.child? "right" with
    | none => rfl
    | some right => simp [headHandovers, OperandPlace.handovers]
  · rename_i hplain
    have hnone : ((t.child? "type").isSome && decide (left.kind = .identifier)) = false := by
      cases htype : t.child? "type" with
      | none => rfl
      | some type =>
        rw [Option.isSome_some, Bool.true_and, decide_eq_false_iff_not]
        exact hplain type htype
    cases t.child? "right" with
    | none => rfl
    | some right =>
      simp only [hnone, Bool.false_eq_true, if_false]
      split
      · rw [List.flatMap_singleton, headHandovers, pairsHandovers_pairsOf]
      · rw [List.flatMap_singleton, headHandovers, operandOfTree_unwrap, assignHandovers_destination,
          List.flatMap_singleton]

theorem headHandovers_assignment :
    (assignmentStatements src t).flatMap (headHandovers catalog) =
      (chainPlaces src t).flatMap (OperandPlace.handovers catalog src) := by
  induction t using Tree.induct with
  | h t ih =>
    rw [assignmentStatements, chainPlaces, Tree.fold_eq, Tree.fold_eq, find?_field_map, find?_field_map]
    by_cases hkind : t.kind = .assignment
    · rw [hkind]
      cases t.child? "left" with
      | none => rfl
      | some left =>
        have hown := headHandovers_simpleAssignment catalog src t left
        cases hright : t.child? "right" with
        | none =>
          rw [assignmentPlaces, hright] at hown
          exact hown
        | some right =>
          simp only [Option.map_some]
          split
          · rw [List.flatMap_append, ← assignmentStatements,
              ih right (Tree.mem_children_of_child? hright), chainPlaces]
            exact List.append_nil _
          · exact hown
    · generalize t.kind = kind at hkind
      cases kind <;> first | rfl | exact absurd rfl hkind

theorem headHandovers_augmented :
    (augmentedAssignment src t).flatMap (headHandovers catalog) =
      (augmentedPlaces src t).flatMap (OperandPlace.handovers catalog src) := by
  rw [augmentedAssignment, augmentedPlaces]
  cases t.child? "left" with
  | none => rfl
  | some left => cases t.child? "right" <;> rfl

theorem headHandovers_expression :
    (expressionPart src t).flatMap (headHandovers catalog) =
      (expressionPlaces src t).flatMap (OperandPlace.handovers catalog src) := by
  simp only [expressionPart, expressionPlaces]
  generalize hkind : (unwrap t).kind = kind
  cases kind with
  | call =>
    rw [callStatement, operandOfTree_call src hkind, List.flatMap_singleton, List.flatMap_singleton,
      headHandovers, OperandPlace.handovers, if_pos rfl, operandOfTree_call src hkind, tempHandovers]
  | assignment => exact headHandovers_assignment catalog src (unwrap t)
  | augmentedAssignment => exact headHandovers_augmented catalog src (unwrap t)
  | _ => rfl

theorem headHandovers_simple :
    (simpleStatements src t).flatMap (headHandovers catalog) =
      (simplePlaces src t).flatMap (OperandPlace.handovers catalog src) := by
  rw [simpleStatements, simplePlaces]
  generalize t.kind = kind
  cases kind with
  | expressionStatement =>
    simp only [List.flatMap_assoc, headHandovers_expression]
  | assignment => exact headHandovers_assignment catalog src t
  | augmentedAssignment => exact headHandovers_augmented catalog src t
  | _ => rfl

theorem headHandovers_return : headHandovers catalog (returnStatement src t) =
    (returnPlaces src t).flatMap (OperandPlace.handovers catalog src) := by
  rw [returnStatement, returnPlaces, headHandovers]
  cases t.namedChildren <;> rfl

theorem itemHandovers_withItem (loc : Location) :
    (withItem src t).flatMap (itemHandovers catalog loc) =
      (itemPlaces loc t).flatMap (OperandPlace.handovers catalog src) := by
  rw [withItem, itemPlaces]
  cases (t.child? "value").or t.namedChildren.head? with
  | none => rfl
  | some value =>
    simp only
    split
    · cases value.namedChildren.head? with
      | none => rfl
      | some e =>
        cases aliasOf value with
        | none => rfl
        | some d =>
          rw [List.flatMap_singleton, Option.map_some, itemHandovers]
          simp only [assignHandovers_destination]
          exact (List.append_nil _).symm
    · rfl

theorem itemHandovers_withItems :
    (withItems src t).flatMap (itemHandovers catalog (locationOf src t)) =
      (withPlaces src t).flatMap (OperandPlace.handovers catalog src) := by
  simp only [withItems, withPlaces, List.flatMap_assoc, itemHandovers_withItem]

end Places

/-! ### Hand-offs of statements -/

section Statements
variable (catalog : Catalog) (src : Source)

/-- What a statement does to the place where it stands: from whether it can be reached, its
hand-offs and whether what follows can be reached. -/
abbrev Passage := Bool → List CallSite × Bool

namespace Passage

def block : List Passage → Passage
  | [], live => ([], live)
  | p :: ps, live => ((p live).1 ++ (block ps (p live).2).1, (block ps (p live).2).2)

/-- Operands that are computed if they can be reached. -/
def operands (places : List OperandPlace) (after : Bool) : Passage := fun live =>
  (if live then places.flatMap (OperandPlace.sites catalog src) else [], live && after)

def guarded (body orElse : Passage) (handlers : List Passage) (final : Passage) : Passage := fun live =>
  let inner := orElse (body live).2
  let last := final (!handlers.isEmpty || inner.2)
  ((body live).1 ++ inner.1 ++ handlers.flatMap (fun h => (h true).1) ++ last.1, last.2)

end Passage

def passageStep (t : Tree) (kids : Placed.Kids Passage) : Passage :=
  match t.kind with
  | .functionDefinition | .decoratedDefinition => fun live => ([], live)
  | .returnStatement => .operands catalog src (returnPlaces src t) false
  | .raiseStatement | .breakStatement | .continueStatement => fun _ => ([], false)
  | .ifStatement => fun _ =>
    ((Passage.block (Placed.blockIn kids "consequence") true).1 ++
      (Placed.elifs kids).flatMap (fun c => (Passage.block c.2 true).1) ++
      (Passage.block (Placed.otherwise kids) true).1, true)
  | .whileStatement | .forStatement => fun _ =>
    ((Passage.block (Placed.blockIn kids "body") true).1, true)
  | .withStatement => fun live =>
    ((Passage.operands catalog src (withPlaces src t) true live).1 ++
      (Passage.block (Placed.blockIn kids "body") live).1,
      (Passage.block (Placed.blockIn kids "body") live).2)
  | .tryStatement =>
    .guarded (.block (Placed.blockIn kids "body")) (.block (Placed.firstClause kids .elseClause))
      ((Placed.handlers kids).map .block) (.block (Placed.firstClause kids .finallyClause))
  | _ => .operands catalog src (simplePlaces src t) true

def passage (t : Tree) : Passage := t.foldStatement (passageStep catalog src)

/-- The hand-offs of a block of statements that can be reached. -/
def handOffSites (ts : List Tree) : List CallSite :=
  (Passage.block (ts.map (passage catalog src)) true).1

theorem passage_eq (t : Tree) :
    passage catalog src t = passageStep catalog src t (t.placedKids (passageStep catalog src)) :=
  Tree.foldStatement_eq _ t

end Statements

/-! ### Trees and their readings -/

section Reading
variable {catalog : Catalog} {src : Source}

theorem blockLive_append (live : Bool) (stmts stmts' : List Stmt) :
    blockLive live (stmts ++ stmts') = blockLive (blockLive live stmts) stmts' := by
  induction stmts generalizing live with
  | nil => rw [List.nil_append, blockLive]
  | cons stmt stmts ih => rw [List.cons_append, blockLive, ih, blockLive]

theorem blockHandovers_append (live : Bool) (stmts stmts' : List Stmt) :
    blockHandovers catalog live (stmts ++ stmts') =
      blockHandovers catalog live stmts ++ blockHandovers catalog (blockLive live stmts) stmts' := by
  induction stmts generalizing live with
  | nil => rw [List.nil_append, blockHandovers, blockLive, List.nil_append]
  | cons stmt stmts ih =>
    rw [List.cons_append, blockHandovers, ih, blockHandovers, blockLive, List.append_assoc]

theorem stmtLive_simple {stmt : Stmt} (live : Bool) (h : isSimple stmt = true) :
    stmtLive live stmt = live := by
  cases stmt with
  | call | declare | assign | assignEach | augment => simp only [stmtLive]
  | _ => cases h

theorem stmtHandovers_simple {stmt : Stmt} (live : Bool) (h : isSimple stmt = true) :
    stmtHandovers catalog live stmt = if live then headHandovers catalog stmt else [] := by
  cases stmt with
  | call | declare | assign | assignEach | augment => simp only [stmtHandovers]
  | _ => cases h

theorem blockLive_simple {stmts : List Stmt} (live : Bool)
    (h : ∀ stmt ∈ stmts, isSimple stmt = true) : blockLive live stmts = live := by
  induction stmts with
  | nil => rw [blockLive]
  | cons stmt stmts ih =>
    rw [List.forall_mem_cons] at h
    rw [blockLive, stmtLive_simple live h.1, ih h.2]

theorem blockHandovers_simple {stmts : List Stmt} (live : Bool)
    (h : ∀ stmt ∈ stmts, isSimple stmt = true) : blockHandovers catalog live stmts =
      if live then stmts.flatMap (headHandovers catalog) else [] := by
  induction stmts with
  | nil => rw [blockHandovers, List.flatMap_nil, ite_self]
  | cons stmt stmts ih =>
    rw [List.forall_mem_cons] at h
    rw [blockHandovers, stmtHandovers_simple live h.1, stmtLive_simple live h.1, ih h.2]
    cases live <;> rfl

/-- Statements and a passage agree on the hand-offs and on what can be reached after them. -/
def Agrees (catalog : Catalog) (src : Source) (stmts : List Stmt) (p : Passage) : Prop :=
  ∀ live, (blockHandovers catalog live stmts).map some =
      (p live).1.map (CallSite.handover? catalog src) ∧
    blockLive live stmts = (p live).2

theorem agrees_nil : Agrees catalog src [] fun live => ([], live) := by
  intro live
  rw [blockHandovers, blockLive]
  exact ⟨rfl, rfl⟩

theorem Agrees.append {stmts stmts' : List Stmt} {p p' : Passage} (h : Agrees catalog src stmts p)
    (h' : Agrees catalog src stmts' p') : Agrees catalog src (stmts ++ stmts')
      fun live => ((p live).1 ++ (p' (p live).2).1, (p' (p live).2).2) := by
  intro live
  obtain ⟨hfirst, hlive⟩ := h live
  obtain ⟨hrest, hlast⟩ := h' (p live).2
  rw [blockHandovers_append, blockLive_append, hlive, hlast, List.map_append, List.map_append, hfirst,
    hrest]
  exact ⟨rfl, rfl⟩

theorem Agrees.block {ts : List Tree}
    (h : ∀ t ∈ ts, Agrees catalog src (statementsOf src t) (passage catalog src t)) :
    Agrees catalog src (blockStatements src ts) (.block (ts.map (passage catalog src))) := by
  induction ts with
  | nil => exact agrees_nil
  | cons t ts ih =>
    rw [List.forall_mem_cons] at h
    exact h.1.append (ih h.2)

/-- Statements without blocks, or one that leaves its block. -/
theorem agrees_operands {stmts : List Stmt} {places : List OperandPlace} {after : Bool}
    (hhands : ∀ live, blockHandovers catalog live stmts =
      if live then places.flatMap (OperandPlace.handovers catalog src) else [])
    (hlive : ∀ live, blockLive live stmts = (live && after)) :
    Agrees catalog src stmts (.operands catalog src places after) := by
  intro live
  rw [hhands, hlive, Passage.operands]
  cases live with
  | false => exact ⟨rfl, rfl⟩
  | true => exact ⟨handovers_places catalog src places, rfl⟩

theorem Agrees.clauses {cs : List Tree} (h : ∀ c ∈ cs, ∀ t ∈ c.blockIn "consequence",
      Agrees catalog src (statementsOf src t) (passage catalog src t)) :
    (clausesHandovers catalog (cs.map (clauseAt src))).map some =
      (cs.flatMap fun c => (Passage.block ((c.blockIn "consequence").map (passage catalog src))
        true).1).map (CallSite.handover? catalog src) := by
  induction cs with
  | nil => simp [clausesHandovers]
  | cons c cs ih =>
    rw [List.forall_mem_cons] at h
    rw [List.map_cons, clauseAt, clausesHandovers, List.map_append, (Agrees.block h.1 true).1, ih h.2,
      List.flatMap_cons, List.map_append]

theorem Agrees.handlers {tss : List (List Tree)} (h : ∀ ts ∈ tss, ∀ t ∈ ts,
      Agrees catalog src (statementsOf src t) (passage catalog src t)) :
    (handlersHandovers catalog (tss.map (blockStatements src))).map some =
      (tss.flatMap fun ts => (Passage.block (ts.map (passage catalog src)) true).1).map
        (CallSite.handover? catalog src) := by
  induction tss with
  | nil => simp [handlersHandovers]
  | cons ts tss ih =>
    rw [List.forall_mem_cons] at h
    rw [List.map_cons, handlersHandovers, List.map_append, (Agrees.block h.1 true).1, ih h.2,
      List.flatMap_cons, List.map_append]

theorem Agrees.guarded {body orElse final : List Stmt} {handlers : List (List Stmt)} {p q r : Passage}
    {ps : List Passage} (hbody : Agrees catalog src body p) (helse : Agrees catalog src orElse q)
    (hhandlers : (handlersHandovers catalog handlers).map some =
      (ps.flatMap fun p => (p true).1).map (CallSite.handover? catalog src))
    (hempty : handlers.isEmpty = ps.isEmpty) (hfinal : Agrees catalog src final r) :
    Agrees catalog src [.try_ body orElse handlers final] (.guarded p q ps r) := by
  intro live
  obtain ⟨hbody, hlive⟩ := hbody live
  obtain ⟨helse, hlive'⟩ := helse (p live).2
  obtain ⟨hfinal, hlast⟩ := hfinal (!ps.isEmpty || (q (p live).2).2)
  simp only [blockHandovers, blockLive, stmtHandovers, stmtLive, List.append_nil, List.map_append,
    Passage.guarded, hbody, hlive, helse, hlive', hhandlers, hempty, hfinal, hlast, and_self]

/-- A statement that is none for the graph of its function. -/
theorem agrees_define (f : Function) : Agrees catalog src [.define f] fun live => ([], live) := by
  intro live
  simp only [blockHandovers, blockLive, stmtHandovers, stmtLive, headHandovers, ite_self,
    List.append_nil, List.map_nil, and_self]

theorem agrees_simple (t : Tree) : Agrees catalog src (simpleStatements src t)
    (.operands catalog src (simplePlaces src t) true) := by
  have hsimple := isSimple_simpleStatements src t
  refine agrees_operands (fun live => ?_) fun live => ?_
  · rw [blockHandovers_simple live hsimple, headHandovers_simple]
  · rw [blockLive_simple live hsimple, Bool.and_true]

theorem agrees_return (t : Tree) : Agrees catalog src [returnStatement src t]
    (.operands catalog src (returnPlaces src t) false) := by
  refine agrees_operands (fun live => ?_) fun live => ?_
  · rw [← headHandovers_return]
    simp only [blockHandovers, returnStatement, stmtHandovers, List.append_nil]
  · simp only [blockLive, returnStatement, stmtLive, Bool.and_false]

theorem Agrees.branch {clause : Clause} {clauses : List Clause} {orElse : List Stmt}
    {sites : List CallSite} {p : Passage}
    (hclauses : (clausesHandovers catalog (clause :: clauses)).map some =
      sites.map (CallSite.handover? catalog src)) (helse : Agrees catalog src orElse p) :
    Agrees catalog src [.branch (clause :: clauses) orElse] fun _ =>
      (sites ++ (p true).1, true) := by
  intro live
  simp only [blockHandovers, blockLive, stmtHandovers, stmtLive, List.append_nil, List.map_append,
    hclauses, (helse true).1, List.isEmpty_cons, Bool.not_false, Bool.or_true, and_self]

theorem Agrees.within {loc : Location} {items : List WithItem} {body : List Stmt}
    {places : List OperandPlace} {p : Passage}
    (hitems : items.flatMap (itemHandovers catalog loc) =
      places.flatMap (OperandPlace.handovers catalog src)) (hbody : Agrees catalog src body p) :
    Agrees catalog src [.with_ loc items body] fun live =>
      ((Passage.operands catalog src places true live).1 ++ (p live).1, (p live).2) := by
  intro live
  obtain ⟨hhands, hlive⟩ := hbody live
  simp only [blockHandovers, blockLive, stmtHandovers, stmtLive, List.append_nil, List.map_append,
    hhands, hlive, headHandovers, Passage.operands, hitems, and_true]
  cases live with
  | false => rfl
  | true => exact congrArg (· ++ _) (handovers_places catalog src places)

theorem agrees_passage (t : Tree) :
    Agrees catalog src (statementsOf src t) (passage catalog src t) := by
  induction t using Tree.induct_descendants with
  | h t ih =>
    have hblock (f : String) : Agrees catalog src (blockStatements src (t.blockIn f)) _ :=
      .block fun d hd => ih d (Tree.descendant_of_blockIn hd)
    have hread := readAs_statementsOf src t
    rw [passage_eq]
    generalize statementsOf src t = stmts at hread ⊢
    cases hread with
    | simple h =>
      have hagrees : Agrees catalog src (simpleStatements src t) _ := agrees_simple t
      unfold passageStep
      generalize t.kind = kind at h
      cases kind <;> first | exact hagrees | cases h
    | return_ h =>
      simp only [passageStep, h]
      exact agrees_return t
    | raise h | break_ h | continue_ h =>
      intro live
      simp only [passageStep, h, blockHandovers, blockLive, stmtHandovers, stmtLive, headHandovers,
        ite_self, List.append_nil, List.map_nil, and_self]
    | branch h =>
      have hclauses : ∀ c ∈ t :: t.elifs, ∀ d ∈ c.blockIn "consequence",
          Agrees catalog src (statementsOf src d) (passage catalog src d) := by
        rw [List.forall_mem_cons]
        exact ⟨fun d hd => ih d (Tree.descendant_of_blockIn hd),
          fun c hc d hd => ih d (Tree.descendant_of_elif hc hd)⟩
      have helse : Agrees catalog src (blockStatements src t.otherwise) _ :=
        .block fun d hd => ih d (Tree.descendant_of_otherwise hd)
      simp only [passageStep, h, Tree.blockIn_placedKids, Tree.elifs_placedKids,
        Tree.otherwise_placedKids, List.flatMap_map]
      exact .branch (Agrees.clauses hclauses) helse
    | while_ h | for_ h =>
      intro live
      simp only [passageStep, h, blockHandovers, blockLive, stmtHandovers, stmtLive,
        List.append_nil, (hblock "body" true).1, Tree.blockIn_placedKids]
      exact ⟨rfl, trivial⟩
    | with_ h =>
      simp only [passageStep, h, Tree.blockIn_placedKids]
      exact (hblock "body").within (itemHandovers_withItems catalog src t)
    | try_ h =>
      have hclause (kind : Kind) : Agrees catalog src (blockStatements src (t.firstClause kind)) _ :=
        .block fun d hd => ih d (Tree.descendant_of_firstClause hd)
      have hhandlers := Agrees.handlers fun ts hts d hd => ih d (Tree.descendant_of_handler hts hd)
      simp only [passageStep, h, Tree.blockIn_placedKids, Tree.firstClause_placedKids,
        Tree.handlers_placedKids, List.map_map]
      refine (hblock "body").guarded (hclause _) ?_ ?_ (hclause _)
      · rw [hhandlers, List.flatMap_map]
        rfl
      · rw [List.isEmpty_map, List.isEmpty_map]
    | function h =>
      simp only [passageStep, h]
      split
      · exact agrees_define _
      · exact agrees_nil
    | decorated h =>
      simp only [passageStep, h]
      rcases definition_statements src t with hnone | ⟨f, hdefine⟩
      · rw [hnone]
        exact agrees_nil
      · rw [hdefine]
        exact agrees_define f

end Reading

/-- The hand-off instructions in the procedure of a function are exactly the hand-offs of its nodes,
each of them as often as it is written there. -/
theorem handovers_ofTree (catalog : Catalog) (library : Library) (file text : String) {root : Tree}
    {f : FunctionNode} (hforce : InForce (.ofText file text) root f) :
    ∃ p, (Program.ofTree catalog library file text root).find? (f.name (.ofText file text)) = some p ∧
      ((p.statements.filterMap fun x => x.2.handover?).map some).Perm
        ((handOffSites catalog (.ofText file text) f.body).map
          (CallSite.handover? catalog (.ofText file text))) := by
  obtain ⟨s, hs⟩ := find?_built catalog library file text hforce
  obtain ⟨p, hp, hperm⟩ := handovers_lowerFunction catalog f.owner
    (functionAt (.ofText file text) f.node f.isStatic) s
  rw [find?_lowerFunction, lowered_node] at hp
  obtain rfl := Option.some.inj hp
  have hbody : Agrees catalog (.ofText file text) (blockStatements (.ofText file text) f.body) _ :=
    .block fun t _ => agrees_passage t
  refine ⟨_, hs, ?_⟩
  rw [handOffSites, ← (hbody true).1]
  exact hperm.map some

/-! ### Hand-offs below other calls -/

def relayText : String := "def relay(queue, actor, msg): queue.put(actor.ask(msg))"

def relaySource : Source := .ofText "" relayText

def relayAsk : Tree := .methodCall none 40 45 49 54 [.word none 50 53]

def relayPut : Tree := .methodCall none 30 35 39 55 [relayAsk]

/-- Passes the answer of an actor on. -/
def relay : FunctionNode where
  owner := none
  node := .inLine .functionDefinition none 0 55 [.word (some "name") 4 9,
    .inLine .parameters (some "parameters") 9 28 [.word none 10 15, .word none 17 22, .word none 24 27],
    .inLine .block (some "body") 30 55 [.inLine .expressionStatement none 30 55 [relayPut]]]
  isStatic := false

def relayModule : Tree := .inLine .module none 0 55 [relay.node]

def asking : Catalog := [{ name := "put", args := [0] }, { name := "ask", args := [0] }]

/-- The argument is handed over before the call that it is passed to. -/
theorem handovers_ofTree_relay :
    InForce relaySource relayModule relay ∧
    ∃ p, (Program.ofTree asking [] "" relayText relayModule).find? "relay" = some p ∧
      ((p.statements.filterMap fun x => x.2.handover?).map some).Perm
        [some ⟨.onLine 30 55, .const (.text "ask"), some (.var "actor"), [0], ""⟩,
          some ⟨.onLine 30 55, .const (.text "put"), some (.var "queue"), [0], ""⟩] := by
  have hforce : InForce relaySource relayModule relay := ⟨[], [], rfl, by simp⟩
  have hname : relay.name relaySource = "relay" := by decide +kernel
  have hask : isHandOff asking relaySource relayAsk = true := by decide +kernel
  have hput : isHandOff asking relaySource relayPut = true := by decide +kernel
  obtain ⟨p, hp, hperm⟩ := handovers_ofTree asking [] "" relayText hforce
  have hinner : hoistedCalls asking relaySource relayAsk = [relayAsk] := by
    rw [hoistedCalls_eq]
    exact if_pos hask
  have houter : performedCalls asking relaySource relayPut = [relayAsk, relayPut] := by
    have hargs : hoistedArguments asking relaySource relayPut =
        hoistedCalls asking relaySource relayAsk ++ [] := rfl
    rw [hinner] at hargs
    rw [performedCalls]
    exact congrArg₂ (· ++ ·) hargs (if_pos hput)
  have hsites : handOffSites asking relaySource relay.body =
      (performedCalls asking relaySource relayPut).map (⟨.onLine 30 55, ·⟩) ++ [] ++ [] := rfl
  rw [houter] at hsites
  have hasked : handoverAt asking relaySource (.onLine 30 55) relayAsk =
      some ⟨.onLine 30 55, .const (.text "ask"), some (.var "actor"), [0], ""⟩ := by
    have hcallee : relayAsk.calleeName relaySource = "ask" := by decide +kernel
    have hactor : relaySource.text (.word (some "object") 40 45) = "actor" := by decide +kernel
    have hreceiver : relayAsk.receiver? relaySource = some (.var "actor") :=
      congrArg (fun x => some (Exp.var x)) hactor
    rw [handoverAt, hcallee, hreceiver]
    rfl
  have hputs : handoverAt asking relaySource (.onLine 30 55) relayPut =
      some ⟨.onLine 30 55, .const (.text "put"), some (.var "queue"), [0], ""⟩ := by
    have hcallee : relayPut.calleeName relaySource = "put" := by decide +kernel
    have hqueue : relaySource.text (.word (some "object") 30 35) = "queue" := by decide +kernel
    have hreceiver : relayPut.receiver? relaySource = some (.var "queue") :=
      congrArg (fun x => some (Exp.var x)) hqueue
    rw [handoverAt, hcallee, hreceiver]
    rfl
  have hlist : (handOffSites asking relaySource relay.body).map
      (CallSite.handover? asking relaySource) =
      [handoverAt asking relaySource (.onLine 30 55) relayAsk,
        handoverAt asking relaySource (.onLine 30 55) relayPut] := by
    rw [hsites]
    rfl
  rw [hasked, hputs] at hlist
  exact ⟨hforce, p, hname ▸ hp, hlist ▸ hperm⟩

def keepText : String := "def keep(self, actor, msg): self.result = wrap(actor.ask(msg))"

def keepSource : Source := .ofText "" keepText

def keepAsk : Tree := .methodCall none 47 52 56 61 [.word none 57 60]

def keepTarget : Tree := .dotted (some "left") 28 32 39

def keepAssignment : Tree :=
  .inLine .expressionStatement none 28 62 [.inLine .assignment none 28 62
    [keepTarget, .plainCall (some "right") 42 46 62 [keepAsk]]]

/-- Keeps the wrapped answer of an actor. -/
def keep : FunctionNode where
  owner := none
  node := .inLine .functionDefinition none 0 62 [.word (some "name") 4 8,
    .inLine .parameters (some "parameters") 8 26 [.word none 9 13, .word none 15 20, .word none 22 25],
    .inLine .block (some "body") 28 62 [keepAssignment]]
  isStatic := false

def keepModule : Tree := .inLine .module none 0 62 [keep.node]

/-- The call is in the catalog and can be reached, but the graph has one instruction only, and that
is no hand-off. -/
theorem nested_handover_lost :
    keepAsk ∈ keepAssignment.subtrees ∧ isHandOff asking keepSource keepAsk = true ∧
    ∃ p, (Program.ofTree asking [] "" keepText keepModule).find? "keep" = some p ∧
      p.nodes.flatMap Node.instrs = [⟨.onLine 28 62, .store (selfField "result")
        (.call (.const (.text "wrap"))
          [.call (.const (.text "ask")) [.var "msg"] (some (.var "actor"))] none)⟩] ∧
      p.handovers = [] := by
  have hforce : InForce keepSource keepModule keep := ⟨[], [], rfl, by simp⟩
  have hname : keep.name keepSource = "keep" := by decide +kernel
  obtain ⟨s, hp⟩ := find?_built asking [] "" keepText hforce
  have hself : keepSource.text (.word (some "object") 28 32) = "self" := by decide +kernel
  have hresult : keepSource.text (.word (some "attribute") 33 39) = "result" := by decide +kernel
  have hwrap : keepSource.text (.word (some "function") 42 46) = "wrap" := by decide +kernel
  have hactor : keepSource.text (.word (some "object") 47 52) = "actor" := by decide +kernel
  have hask : keepSource.text (.word (some "attribute") 53 56) = "ask" := by decide +kernel
  have hmsg : keepSource.text (.word none 57 60) = "msg" := by decide +kernel
  have hbody : blockStatements keepSource keep.body = [.assign (.onLine 28 62)
      (.pattern [.path (keepSource.text keepTarget)
        (.field (.var (keepSource.text (.word (some "object") 28 32)))
          (keepSource.text (.word (some "attribute") 33 39)))])
      (.call (keepSource.text (.word (some "function") 42 46)) none
        [.mk none (.call (keepSource.text (.word (some "attribute") 53 56))
          (some (.var (keepSource.text (.word (some "object") 47 52))))
          [.mk none (.value (.var (keepSource.text (.word none 57 60))))])])] := rfl
  rw [hself, hresult, hwrap, hactor, hask, hmsg] at hbody
  have hgraph : built asking keepSource keep s =
      (closed (lowerBlock asking none (blockStatements keepSource keep.body)
        (opened keepSource keep s).state)).proc := by
    rw [lowerBlock_blockStatements, built]
  rw [hbody] at hgraph
  have hmem : keepAssignment.subtrees[8]? = some keepAsk := rfl
  refine ⟨List.mem_of_getElem? hmem, by decide +kernel, built asking keepSource keep s, hname ▸ hp,
    ?_, ?_⟩
  · rw [hgraph]
    rfl
  · rw [hgraph]
    rfl

end ActorOwnership.Lowering
