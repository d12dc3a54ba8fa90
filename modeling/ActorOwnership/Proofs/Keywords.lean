import Mathlib.Data.List.Perm.Basic
import ActorOwnership.Proofs.Similar

/-! Keyword arguments that change places. Arguments without a keyword count by their position among
each other and the rest by their keyword, so a hand-off whose keyword arguments change places gives
away the same values. A call that is no hand-off drops the keywords, and its arguments are taken as
they stand. -/

namespace ActorOwnership
open Surface
set_option autoImplicit false

namespace Lowering

/-! ### Arguments by position and by name -/

theorem pick?_map {α β : Type} (f : α → β) (xs : List α) (i : Int) :
    pick? (xs.map f) i = (pick? xs i).map f := by
  unfold pick?
  split
  · rfl
  · exact List.getElem?_map

theorem wrapPick?_map {α β : Type} (f : α → β) (xs : List α) (i : Int) :
    wrapPick? (xs.map f) i = (wrapPick? xs i).map f := by
  unfold wrapPick?
  rw [List.length_map]
  split
  · exact pick?_map f xs _
  · exact pick?_map f xs i

/-- The arguments at the indices that a test on keywords selects, each found at its index. -/
theorem map_indices (test : Option String → Bool) {keywords : List (Option String)} {args : List Exp}
    (hlen : keywords.length = args.length) :
    ((keywords.zipIdx.filter fun k => test k.1).map Prod.snd).map (fun k => args[k]?) =
      (((keywords.zip args).filter fun k => test k.1).map Prod.snd).map some := by
  suffices h : ∀ (before : List Exp),
      (((keywords.zipIdx before.length).filter fun k => test k.1).map Prod.snd).map
          (fun k => (before ++ args)[k]?) =
        (((keywords.zip args).filter fun k => test k.1).map Prod.snd).map some from h []
  induction keywords generalizing args with
  | nil => intro before; rfl
  | cons keyword keywords ih =>
    intro before
    cases args with
    | nil => cases hlen
    | cons arg args =>
      -- the first argument joins those that the later indices skip
      have hrest := ih (Nat.succ.inj hlen) (before ++ [arg])
      rw [List.length_append, List.append_assoc] at hrest
      rw [List.zipIdx_cons, List.zip_cons_cons, List.filter_cons, List.filter_cons]
      cases htest : test keyword with
      | true => simpa using hrest
      | false => simpa using hrest

/-- The arguments of a hand-off with their keywords. -/
abbrev Named := List (Option String × Exp)

/-- The arguments without a keyword. -/
def Named.positional (kes : Named) : List Exp := (kes.filter fun k => k.1.isNone).map Prod.snd

/-- What a hand-off gives away: arguments without a keyword by their position among each other, the
others by their keyword. -/
def Named.givenUp (spec : HandOffSpec) (kes : Named) : List Exp :=
  (spec.positions kes.positional.length).filterMap (wrapPick? kes.positional) ++
    (kes.filter fun k => k.1.any spec.givesKeyword).map Prod.snd

theorem filterMap_givenUpIndices (spec : HandOffSpec) {keywords : List (Option String)}
    {args : List Exp} (hlen : keywords.length = args.length) :
    (givenUpIndices spec keywords).filterMap (pick? args) =
      Named.givenUp spec (keywords.zip args) := by
  have hpositional : (positionalIndices keywords).map (fun k => args[k]?) =
      (Named.positional (keywords.zip args)).map some := map_indices Option.isNone hlen
  have hnamed : (keywordIndices spec keywords).map (fun k => args[k]?) =
      (((keywords.zip args).filter fun k => k.1.any spec.givesKeyword).map Prod.snd).map some :=
    map_indices (fun k => k.any spec.givesKeyword) hlen
  have hcount := congrArg List.length hpositional
  rw [List.length_map, List.length_map] at hcount
  have hwrap (i : Int) : (wrapPick? (positionalIndices keywords) i).bind (fun k => args[k]?) =
      wrapPick? (Named.positional (keywords.zip args)) i := by
    have h := congrArg (fun xs => (wrapPick? xs i).bind id) hpositional
    simpa only [wrapPick?_map, Option.bind_map, Function.id_comp, Option.bind_fun_some] using h
  have hpick : (pick? args ∘ fun (k : Nat) => (k : Int)) = fun k => args[k]? :=
    funext (pick?_ofNat args)
  unfold givenUpIndices Named.givenUp
  rw [List.filterMap_map, List.filterMap_append, List.filterMap_filterMap, hcount, hpick]
  congr 1
  · exact List.filterMap_congr fun i _ => hwrap i
  · have h := congrArg (List.filterMap id) hnamed
    simpa only [List.filterMap_map, Function.id_comp, List.filterMap_eq_map] using h

/-- The same arguments by name: those without a keyword are the same, the others stand in any
order. -/
structure Named.Same (kes kes' : Named) : Prop where
  perm : kes.Perm kes'
  positional : kes.positional = kes'.positional

namespace Named.Same
variable {kes kes' : Named}

theorem cons (h : Named.Same kes kes') (ke : Option String × Exp) :
    Named.Same (ke :: kes) (ke :: kes') := by
  refine ⟨h.perm.cons ke, ?_⟩
  have hpositional := h.positional
  unfold Named.positional at hpositional ⊢
  rw [List.filter_cons, List.filter_cons]
  split
  · rw [List.map_cons, List.map_cons, hpositional]
  · exact hpositional

theorem trans {kes'' : Named} (h : Named.Same kes kes') (h' : Named.Same kes' kes'') :
    Named.Same kes kes'' :=
  ⟨h.perm.trans h'.perm, h.positional.trans h'.positional⟩

theorem of_perm (h : kes.Perm kes') (hnamed : ∀ ke ∈ kes, ke.1.isSome = true) :
    Named.Same kes kes' := by
  have hnone (xs : Named) (hxs : ∀ ke ∈ xs, ke.1.isSome = true) : xs.positional = [] := by
    unfold Named.positional
    rw [List.filter_eq_nil_iff.mpr, List.map_nil]
    intro ke hke
    rw [← Option.not_isSome, hxs ke hke]
    decide
  refine ⟨h, ?_⟩
  rw [hnone kes hnamed, hnone kes' fun ke hke => hnamed ke (h.mem_iff.mpr hke)]

theorem givenUp_perm (h : Named.Same kes kes') (spec : HandOffSpec) :
    (Named.givenUp spec kes).Perm (Named.givenUp spec kes') := by
  unfold Named.givenUp
  rw [h.positional]
  exact ((h.perm.filter _).map _).append_left _

end Named.Same

end Lowering

/-! ### Reordered syntax -/

namespace Surface

/-- Whether the operand is an instruction of its own in the place of a value. -/
def Operand.isHandOff (catalog : Catalog) : Operand → Bool
  | .value _ => false
  | .call name _ _ => (catalog.find? name).isSome

mutual

/-- The same operand in the place of a value, with the arguments of hand-offs in another order. A
call that is no hand-off is part of an expression. -/
inductive Operand.Reordered (catalog : Catalog) : Operand → Operand → Prop where
  | value (e : Exp) : Operand.Reordered catalog (.value e) (.value e)
  | handOff {name : String} {spec : HandOffSpec} {receiver : Option Exp}
      {args args' : List Argument} :
      catalog.find? name = some spec → Argument.Reordered catalog args args' →
        Operand.Reordered catalog (.call name receiver args) (.call name receiver args')
  | part {name : String} {receiver : Option Exp} {args args' : List Argument} :
      catalog.find? name = none → Argument.toExps args = Argument.toExps args' →
        Operand.Reordered catalog (.call name receiver args) (.call name receiver args')

/-- The arguments of a hand-off. Those with a keyword may be in any order in which the hand-offs
among them keep theirs. -/
inductive Argument.Reordered (catalog : Catalog) : List Argument → List Argument → Prop where
  | nil : Argument.Reordered catalog [] []
  | cons {keyword : Option String} {v v' : Operand} {as as' : List Argument} :
      Operand.Reordered catalog v v' → Argument.Reordered catalog as as' →
        Argument.Reordered catalog (.mk keyword v :: as) (.mk keyword v' :: as')
  | keywords {as bs cs : List Argument} : (∀ a ∈ as, a.keyword.isSome = true) → as.Perm bs →
      (as.filter fun a => a.value.isHandOff catalog) =
        (bs.filter fun a => a.value.isHandOff catalog) →
      Argument.Reordered catalog bs cs → Argument.Reordered catalog as cs

end

/-- The same operand where every call is an instruction. A call that is no hand-off has the same
values in the same order, under any keywords. -/
inductive Operand.ReorderedCall (catalog : Catalog) : Operand → Operand → Prop where
  | value (e : Exp) : Operand.ReorderedCall catalog (.value e) (.value e)
  | handOff {name : String} {spec : HandOffSpec} {receiver : Option Exp}
      {args args' : List Argument} :
      catalog.find? name = some spec → Argument.Reordered catalog args args' →
        Operand.ReorderedCall catalog (.call name receiver args) (.call name receiver args')
  | call {name : String} {receiver : Option Exp} {args args' : List Argument} :
      catalog.find? name = none →
      List.Forall₂ (fun a a' => a.value.Reordered catalog a'.value) args args' →
        Operand.ReorderedCall catalog (.call name receiver args) (.call name receiver args')

def Operand.ReorderedAs (catalog : Catalog) (direct : Bool) (v v' : Operand) : Prop :=
  if direct then v.ReorderedCall catalog v' else v.Reordered catalog v'

def Destination.isName : Destination → Bool
  | .name _ => true
  | .pattern _ => false

/-- With `through` the values are first read into temporaries. -/
structure Pair.Reordered (catalog : Catalog) (through : Bool) (p p' : Pair) : Prop where
  destination : p.destination = p'.destination
  value : p.value.ReorderedAs catalog (through || p.destination.isName) p'.value
  mentions : ∀ x, x ∈ p.mentions ↔ x ∈ p'.mentions

structure WithItem.Reordered (catalog : Catalog) (item item' : WithItem) : Prop where
  alias_ : item.alias_ = item'.alias_
  value : item.value.ReorderedAs catalog (item.alias_.all Destination.isName) item'.value

end Surface

namespace Lowering
variable {catalog : Catalog} (loc : Location)

theorem length_lowerArguments (as : List Argument) (s : State) :
    (lowerArguments catalog loc as s).1.length = as.length := by
  induction as generalizing s with
  | nil => rfl
  | cons a as ih =>
    cases a with
    | mk keyword v =>
      rw [lowerArguments]
      exact congrArg (· + 1) (ih _)

theorem lowerOperand_of_not {v : Operand} (h : v.isHandOff catalog = false) (s : State) :
    lowerOperand catalog loc v s = (v.toExp, s) := by
  cases v with
  | value e => rfl
  | call name receiver args =>
    rw [lowerOperand, if_neg]
    exact Bool.eq_false_iff.mp h

theorem lowerOperand_part {name : String} (h : catalog.find? name = none) (receiver : Option Exp)
    (args : List Argument) (s : State) : lowerOperand catalog loc (.call name receiver args) s =
      (.call (.const (.text name)) (Argument.toExps args) receiver, s) := by
  have hnot : (Operand.call name receiver args).isHandOff catalog = false :=
    congrArg Option.isSome h
  rw [lowerOperand_of_not loc hnot, Operand.toExp]

theorem lowerOperand_handOff {name : String} {spec : HandOffSpec}
    (h : catalog.find? name = some spec) (receiver : Option Exp) (args : List Argument) (s : State) :
    lowerOperand catalog loc (.call name receiver args) s =
      let r := lowerArguments catalog loc args s.newTemp.2
      (.var s.newTemp.1, r.2.emit loc
        (callAction catalog (some s.newTemp.1) name receiver (args.map Argument.keyword) r.1)) := by
  rw [lowerOperand, if_pos (Option.isSome_of_eq_some h)]

/-- The arguments with their keywords, as they are lowered. -/
def named (catalog : Catalog) (loc : Location) (as : List Argument) (s : State) : Named :=
  (as.map Argument.keyword).zip (lowerArguments catalog loc as s).1

theorem named_cons (keyword : Option String) (v : Operand) (as : List Argument) (s : State) :
    named catalog loc (.mk keyword v :: as) s = (keyword, (lowerOperand catalog loc v s).1) ::
      named catalog loc as (lowerOperand catalog loc v s).2 := by
  unfold named
  rw [lowerArguments]
  rfl

/-- The state depends on the hand-offs among the arguments alone, and the other arguments do not
depend on the state. -/
theorem lowerArguments_handOffs (as : List Argument) (s : State) :
    (lowerArguments catalog loc as s).2 =
        (lowerArguments catalog loc (as.filter fun a => a.value.isHandOff catalog) s).2 ∧
      (named catalog loc as s).Perm
        (((as.filter fun a => !a.value.isHandOff catalog).map fun a => (a.keyword, a.value.toExp)) ++
          named catalog loc (as.filter fun a => a.value.isHandOff catalog) s) := by
  induction as generalizing s with
  | nil => exact ⟨rfl, .nil⟩
  | cons a as ih =>
    cases a with
    | mk keyword v =>
      rw [named_cons]
      cases hv : v.isHandOff catalog with
      | false =>
        have hrest := ih s
        rw [List.filter_cons_of_neg (by simp [Argument.value, hv]),
          List.filter_cons_of_pos (by simp [Argument.value, hv]), lowerArguments,
          lowerOperand_of_not loc hv]
        exact ⟨hrest.1, hrest.2.cons _⟩
      | true =>
        have hrest := ih (lowerOperand catalog loc v s).2
        rw [List.filter_cons_of_pos (by simp [Argument.value, hv]),
          List.filter_cons_of_neg (by simp [Argument.value, hv]), lowerArguments, lowerArguments,
          named_cons]
        exact ⟨hrest.1, (hrest.2.cons _).trans List.perm_middle.symm⟩

theorem named_perm {as bs : List Argument} (h : as.Perm bs)
    (hsame : (as.filter fun a => a.value.isHandOff catalog) =
      bs.filter fun a => a.value.isHandOff catalog) (s : State) :
    (lowerArguments catalog loc as s).2 = (lowerArguments catalog loc bs s).2 ∧
      (named catalog loc as s).Perm (named catalog loc bs s) := by
  obtain ⟨hstate, hnamed⟩ := lowerArguments_handOffs loc as s
  obtain ⟨hstate', hnamed'⟩ := lowerArguments_handOffs loc bs s
  rw [hsame] at hstate hnamed
  refine ⟨hstate.trans hstate'.symm, hnamed.trans (.trans ?_ hnamed'.symm)⟩
  exact ((h.filter _).map _).append_right _

theorem mem_named {loc : Location} {as : List Argument} {s : State} {ke : Option String × Exp}
    (h : ke ∈ named catalog loc as s) : ∃ a ∈ as, a.keyword = ke.1 :=
  List.mem_map.mp (List.of_mem_zip h).1

theorem callAction_similar {loc : Location} {name : String} {spec : HandOffSpec}
    (hspec : catalog.find? name = some spec) (ret : Option String) (receiver : Option Exp)
    {as as' : List Argument} {s s' : State}
    (h : Named.Same (named catalog loc as s) (named catalog loc as' s')) :
    (callAction catalog ret name receiver (as.map Argument.keyword)
      (lowerArguments catalog loc as s).1).Similar
      (callAction catalog ret name receiver (as'.map Argument.keyword)
        (lowerArguments catalog loc as' s').1) := by
  have hlen (as : List Argument) (s : State) :
      (as.map Argument.keyword).length = (lowerArguments catalog loc as s).1.length := by
    rw [List.length_map, length_lowerArguments]
  have hargs (as : List Argument) (s : State) :
      (lowerArguments catalog loc as s).1 = (named catalog loc as s).map Prod.snd :=
    (List.map_snd_zip (Nat.le_of_eq (hlen as s).symm)).symm
  unfold callAction
  rw [hspec]
  apply Action.Similar.handOff
  · rw [hargs as, hargs as']
    exact h.perm.map _
  · rw [filterMap_givenUpIndices spec (hlen as s), filterMap_givenUpIndices spec (hlen as' s')]
    exact h.givenUp_perm spec

mutual

theorem lowerOperand_reordered : ∀ {v v' : Operand}, v.Reordered catalog v' →
    ∀ {s s' : State}, s.Similar s' →
      Alike (lowerOperand catalog loc v s) (lowerOperand catalog loc v' s')
  | _, _, .value e, s, s', hs => ⟨e, s, s', rfl, rfl, hs⟩
  | _, _, .part hname hexps, s, s', hs => by
    rw [lowerOperand_part loc hname, lowerOperand_part loc hname, hexps]
    exact ⟨_, s, s', rfl, rfl, hs⟩
  | _, _, .handOff hspec hargs, _, _, hs => by
    obtain ⟨temp, t, t', ht, ht', hsim⟩ := hs.newTemp
    obtain ⟨hsame, hsim⟩ := lowerArguments_reordered hargs hsim
    rw [lowerOperand_handOff loc hspec, lowerOperand_handOff loc hspec, ht, ht']
    exact ⟨_, _, _, rfl, rfl, hsim.emit loc (callAction_similar hspec _ _ hsame)⟩

theorem lowerArguments_reordered : ∀ {as as' : List Argument}, Argument.Reordered catalog as as' →
    ∀ {s s' : State}, s.Similar s' →
      Named.Same (named catalog loc as s) (named catalog loc as' s') ∧
        (lowerArguments catalog loc as s).2.Similar (lowerArguments catalog loc as' s').2
  | _, _, .nil, _, _, hs => ⟨⟨.nil, rfl⟩, hs⟩
  | _, _, .cons hv has, _, _, hs => by
    obtain ⟨e, t, t', ht, ht', hsim⟩ := lowerOperand_reordered hv hs
    obtain ⟨hsame, hsim⟩ := lowerArguments_reordered has hsim
    rw [named_cons, named_cons, lowerArguments, lowerArguments, ht, ht']
    exact ⟨hsame.cons _, hsim⟩
  | _, _, .keywords hkeywords hperm hhandOffs has, s, _, hs => by
    obtain ⟨hsame, hsim⟩ := lowerArguments_reordered has hs
    obtain ⟨hstate, hnamed⟩ := named_perm loc hperm hhandOffs s
    rw [hstate]
    refine ⟨(Named.Same.of_perm hnamed ?_).trans hsame, hsim⟩
    intro ke hke
    obtain ⟨a, ha, hkeyword⟩ := mem_named hke
    exact hkeyword ▸ hkeywords a ha

end

theorem lowerArguments_renamed {as as' : List Argument}
    (h : List.Forall₂ (fun a a' => a.value.Reordered catalog a'.value) as as') {s s' : State}
    (hs : s.Similar s') :
    Alike (lowerArguments catalog loc as s) (lowerArguments catalog loc as' s') := by
  induction h generalizing s s' with
  | nil => exact ⟨_, _, _, rfl, rfl, hs⟩
  | @cons a a' _ _ hv _ ih =>
    cases a
    cases a'
    obtain ⟨e, t, t', ht, ht', hsim⟩ := lowerOperand_reordered loc hv hs
    obtain ⟨es, u, u', hu, hu', hsim⟩ := ih hsim
    rw [lowerArguments, lowerArguments]
    simp only [Argument.value] at ht ht'
    simp only [ht, ht', hu, hu']
    exact ⟨_, _, _, rfl, rfl, hsim⟩

theorem lowerCall_reordered (ret : Option String) {name name' : String}
    {receiver receiver' : Option Exp} {args args' : List Argument}
    (h : (Operand.call name receiver args).ReorderedCall catalog (.call name' receiver' args'))
    {s s' : State} (hs : s.Similar s') :
    (lowerCall catalog loc ret name receiver args s).Similar
      (lowerCall catalog loc ret name' receiver' args' s') := by
  unfold lowerCall
  cases h with
  | handOff hspec hargs =>
    obtain ⟨hsame, hsim⟩ := lowerArguments_reordered loc hargs hs
    exact hsim.emit loc (callAction_similar hspec _ _ hsame)
  | call hname hargs =>
    obtain ⟨es, t, t', ht, ht', hsim⟩ := lowerArguments_renamed loc hargs hs
    -- the keywords are dropped
    have hcall (keywords : List (Option String)) :
        callAction catalog (ret.filter (· ≠ "")) name receiver keywords es =
          .call (ret.filter (· ≠ "")) ⟨.const (.text name), es, receiver⟩ := by
      unfold callAction
      rw [hname]
    simp only [ht, ht', hcall]
    exact hsim.emit_same loc _

/-! ### Assignments -/

theorem writeTarget_similar (e : Exp) (target : Target) {s s' : State} (hs : s.Similar s') :
    (writeTarget loc e s target).Similar (writeTarget loc e s' target) := by
  cases target with
  | name id => exact hs.emit_same loc _
  | path text place => exact hs.emit_same loc _

theorem writeAll_similar (e : Exp) (targets : List Target) {s s' : State} (hs : s.Similar s') :
    (targets.foldl (writeTarget loc e) s).Similar (targets.foldl (writeTarget loc e) s') :=
  List.foldl_rel hs fun target _ _ _ ht => writeTarget_similar loc e target ht

theorem writeTargets_similar (targets : List Target) (e : Exp) {s s' : State} (hs : s.Similar s') :
    (writeTargets loc targets e s).Similar (writeTargets loc targets e s') := by
  obtain ⟨temp, t, t', ht, ht', hsim⟩ := hs.newTemp
  unfold writeTargets
  rw [ht, ht']
  split
  · split
    · exact writeAll_similar loc _ targets (hsim.emit_same loc _)
    · exact writeAll_similar loc _ targets hs
  · exact writeAll_similar loc _ targets hs

theorem assignOperand_reordered {d : Destination} {v v' : Operand}
    (h : v.ReorderedAs catalog d.isName v') {s s' : State} (hs : s.Similar s') :
    (assignOperand catalog loc d v s).Similar (assignOperand catalog loc d v' s') := by
  cases d with
  | pattern targets =>
    obtain ⟨e, t, t', ht, ht', hsim⟩ := lowerOperand_reordered loc h hs
    simp only [assignOperand, ht, ht']
    exact writeTargets_similar loc targets e hsim
  | name id =>
    cases h with
    | value e => exact writeTargets_similar loc _ e hs
    | handOff hspec hargs => exact lowerCall_reordered loc _ (.handOff hspec hargs) hs
    | call hname hargs => exact lowerCall_reordered loc _ (.call hname hargs) hs

theorem assignTemp_reordered {v v' : Operand} (h : v.ReorderedCall catalog v') {s s' : State}
    (hs : s.Similar s') : Alike (assignTemp catalog loc v s) (assignTemp catalog loc v' s') := by
  obtain ⟨temp, t, t', ht, ht', hsim⟩ := hs.newTemp
  unfold assignTemp
  rw [ht, ht']
  cases h with
  | value e => exact ⟨temp, _, _, rfl, rfl, hsim.emit_same loc _⟩
  | handOff hspec hargs =>
    exact ⟨temp, _, _, rfl, rfl, lowerCall_reordered loc _ (.handOff hspec hargs) hsim⟩
  | call hname hargs =>
    exact ⟨temp, _, _, rfl, rfl, lowerCall_reordered loc _ (.call hname hargs) hsim⟩

theorem assignTemps_reordered {pairs pairs' : List Pair}
    (h : List.Forall₂ (Pair.Reordered catalog true) pairs pairs') {s s' : State}
    (hs : s.Similar s') :
    Alike (assignTemps catalog loc pairs s) (assignTemps catalog loc pairs' s') := by
  induction h generalizing s s' with
  | nil => exact ⟨_, _, _, rfl, rfl, hs⟩
  | cons hp _ ih =>
    obtain ⟨temp, t, t', ht, ht', hsim⟩ := assignTemp_reordered loc hp.value hs
    obtain ⟨temps, u, u', hu, hu', hsim⟩ := ih hsim
    simp only [assignTemps, ht, ht', hu, hu']
    exact ⟨_, _, _, rfl, rfl, hsim⟩

theorem overlaps_reordered {through : Bool} {pairs pairs' : List Pair}
    (h : List.Forall₂ (Pair.Reordered catalog through) pairs pairs') :
    overlaps pairs = overlaps pairs' := by
  have hnames : (pairs.flatMap fun p => p.destination.targets.map Target.text) =
      pairs'.flatMap fun p => p.destination.targets.map Target.text := by
    induction h with
    | nil => rfl
    | cons hp _ ih => rw [List.flatMap_cons, List.flatMap_cons, hp.destination, ih]
  unfold overlaps
  simp only [hnames]
  clear hnames
  generalize (pairs'.flatMap fun p => p.destination.targets.map Target.text) = names
  induction h with
  | nil => rfl
  | @cons p p' _ _ hp _ ih =>
    have hmentions : p.mentions.any names.contains = p'.mentions.any names.contains := by
      rw [Bool.eq_iff_iff, List.any_eq_true, List.any_eq_true]
      simp only [hp.mentions]
    rw [List.any_cons, List.any_cons, hmentions, ih]

theorem writePairs_reordered {through : Bool} {pairs pairs' : List Pair}
    (h : List.Forall₂ (Pair.Reordered catalog through) pairs pairs') (es : List Exp) {s s' : State}
    (hs : s.Similar s') :
    ((pairs.zip es).foldl (fun s (p, e) => writeTargets loc p.destination.targets e s) s).Similar
      ((pairs'.zip es).foldl (fun s (p, e) => writeTargets loc p.destination.targets e s) s') := by
  induction h generalizing es s s' with
  | nil => exact hs
  | cons hp _ ih =>
    cases es with
    | nil => exact hs
    | cons e es =>
      rw [List.zip_cons_cons, List.zip_cons_cons, List.foldl_cons, List.foldl_cons]
      apply ih
      simp only [hp.destination]
      exact writeTargets_similar loc _ e hs

theorem assignPairs_reordered {pairs pairs' : List Pair}
    (h : List.Forall₂ (Pair.Reordered catalog (overlaps pairs)) pairs pairs') {s s' : State}
    (hs : s.Similar s') :
    (assignPairs catalog loc pairs s).Similar (assignPairs catalog loc pairs' s') := by
  unfold assignPairs
  rw [← overlaps_reordered h]
  split
  · rename_i hoverlaps
    rw [hoverlaps] at h
    obtain ⟨temps, t, t', ht, ht', hsim⟩ := assignTemps_reordered loc h hs
    rw [ht, ht']
    exact writePairs_reordered loc h temps hsim
  · rename_i hoverlaps
    rw [Bool.eq_false_iff.mpr hoverlaps] at h
    refine List.rel_foldl ?_ hs h
    intro t t' ht p p' hp
    simp only [← hp.destination]
    exact assignOperand_reordered loc hp.value ht

theorem lowerWithItem_reordered {item item' : WithItem} (h : item.Reordered catalog item')
    {s s' : State} (hs : s.Similar s') :
    (lowerWithItem catalog loc s item).Similar (lowerWithItem catalog loc s' item') := by
  obtain ⟨halias, hvalue⟩ := h
  cases item with
  | mk alias_ v =>
    cases item' with
    | mk alias' v' =>
      cases halias
      cases alias_ with
      | some d => exact assignOperand_reordered loc hvalue hs
      | none =>
        cases hvalue with
        | value e => exact hs
        | handOff hspec hargs => exact lowerCall_reordered loc _ (.handOff hspec hargs) hs
        | call hname hargs => exact lowerCall_reordered loc _ (.call hname hargs) hs

end Lowering

end ActorOwnership
