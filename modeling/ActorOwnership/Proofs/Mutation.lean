import ActorOwnership.Proofs.GivenUp
import ActorOwnership.Proofs.Reads

/-! What flows into a value, and what an action changes in place, is read by the action as well.
Liveness depends on it: an element that is appended to a list keeps the list alive. -/

namespace ActorOwnership
set_option autoImplicit false

/-- A field of an object, or an element of a collection. -/
def Exp.IsAccess : Exp → Prop
  | .field _ _ | .index _ _ => True
  | _ => False

namespace Scope
variable {s : Scope} {x : Symbol}

/-! ### Flowing symbols are read -/

theorem mem_readsIn_of_resolve {e : Exp} (h : s.resolve e = some x) : x ∈ s.readsIn false e := by
  cases e with
  | var name =>
    rw [readsIn, if_neg Bool.false_ne_true, List.mem_singleton]
    exact (Option.some.inj h).symm
  | field base name =>
    rw [readsIn, if_neg Bool.false_ne_true, h]
    exact List.mem_append_left _ List.mem_cons_self
  | index base key =>
    rw [readsIn, if_neg Bool.false_ne_true, h, List.append_assoc]
    exact List.mem_append_left _ List.mem_cons_self
  | _ => cases h

/-- A path over a variable has a symbol. -/
theorem base_ne_var {base : Exp} {name : String} (h : s.resolve (.field base name) = none)
    (root : String) : base ≠ .var root := by
  rintro rfl
  rw [resolve] at h
  cases h

mutual

theorem mem_readsIn_of_flowing (e : Exp) {x : Symbol} (h : x ∈ s.flowing e) :
    x ∈ s.readsIn false e := by
  cases e with
  | var name =>
    rw [flowing] at h
    exact h
  | const value => simp [flowing] at h
  | unspecified => simp [flowing] at h
  | binary op left right =>
    rw [flowing, mem_distinct, List.mem_append] at h
    rw [readsIn, List.mem_append]
    exact h.imp (mem_readsIn_of_flowing left) (mem_readsIn_of_flowing right)
  | unary op operand =>
    rw [flowing] at h
    exact mem_readsIn_of_flowing operand h
  | field base name =>
    cases htop : s.resolve (.field base name) with
    | some top =>
      rw [flowing, htop, List.mem_singleton] at h
      exact h ▸ mem_readsIn_of_resolve htop
    | none =>
      rw [flowing, htop] at h
      exact mem_readsIn_field (base_ne_var htop) (mem_readsIn_of_flowing base h)
  | index base key =>
    cases htop : s.resolve (.index base key) with
    | some top =>
      rw [flowing, htop, List.mem_singleton] at h
      exact h ▸ mem_readsIn_of_resolve htop
    | none =>
      rw [flowing, htop] at h
      exact mem_readsIn_index key (mem_readsIn_of_flowing base h)
  | call func args receiver =>
    -- a specification picks among the arguments and the receiver, which are read in any case
    rw [flowing] at h
    rw [readsIn, List.mem_append]
    rcases mem_resultSources h with ⟨xs, hxs, hx⟩ | hx
    · exact Or.inl (mem_readsInAll_of_flowing args hxs hx)
    · exact Or.inr (mem_readsInOpt_of_flowing receiver hx)
  | aggregate elements =>
    rw [flowing, mem_distinct] at h
    obtain ⟨xs, hxs, hx⟩ := List.mem_flatten.mp h
    exact mem_readsInAll_of_flowing elements hxs hx
  | ternary condition yes no =>
    rw [flowing, mem_distinct, List.mem_append, List.mem_append] at h
    rw [readsIn, List.mem_append, List.mem_append]
    exact h.imp (Or.imp (mem_readsIn_of_flowing condition) (mem_readsIn_of_flowing yes))
      (mem_readsIn_of_flowing no)

theorem mem_readsInAll_of_flowing (es : List Exp) {xs : List Symbol} (hxs : xs ∈ s.flowingAll es)
    {x : Symbol} (h : x ∈ xs) : x ∈ s.readsInAll es := by
  cases es with
  | nil => simp [flowingAll] at hxs
  | cons e es =>
    rw [flowingAll] at hxs
    rw [readsInAll, List.mem_append]
    rcases List.mem_cons.mp hxs with rfl | hxs
    · exact Or.inl (mem_readsIn_of_flowing e h)
    · exact Or.inr (mem_readsInAll_of_flowing es hxs h)

theorem mem_readsInOpt_of_flowing (e : Option Exp) {x : Symbol} (h : x ∈ s.flowingOpt e) :
    x ∈ s.readsInOpt e := by
  cases e with
  | none => simp [flowingOpt] at h
  | some e =>
    rw [flowingOpt] at h
    exact mem_readsIn_of_flowing e h

end

/-! ### Effects -/

theorem isField_symbolOf (name : String) : (s.symbolOf name).isField = false := by
  unfold symbolOf Symbol.isField
  split <;> rfl

/-- What a call writes: its result, or the object that it stores arguments into. -/
theorem callEffect_cases {ret : Option String} {i : Invocation} {e : Effect}
    (h : e ∈ s.resultEffect ret i ++ s.receiverEffect i) :
    (∃ name, e = ⟨s.symbolOf name, true, s.callSources i⟩) ∨
      e.strong = false ∧ (∃ receiver, i.receiver = some receiver ∧
        s.resolve receiver = some e.symbol) ∧
      ∀ x ∈ e.sources, ∃ xs ∈ s.flowingAll i.args, x ∈ xs := by
  rcases List.mem_append.mp h with h | h
  · unfold resultEffect at h
    split at h
    · exact Or.inl ⟨_, List.mem_singleton.mp h⟩
    · cases h
  · right
    unfold receiverEffect at h
    split at h
    · rename_i spec receiver _ hreceiver
      split at h
      · cases h
      · split at h
        · rename_i target htarget
          rw [List.mem_singleton] at h
          subst h
          refine ⟨rfl, ⟨receiver, hreceiver, htarget⟩, ?_⟩
          intro x hx
          obtain ⟨xs, hxs, hx⟩ := List.mem_flatten.mp (mem_distinct.mp hx)
          obtain ⟨k, _, hk⟩ := List.mem_filterMap.mp hxs
          exact ⟨xs, mem_of_pick? hk, hx⟩
        · cases h
    · cases h

/-- The object that a store goes through is read, unless the store is to a field of the receiver. -/
theorem mem_addressReads {target : Exp} (haccess : target.IsAccess)
    (hweak : s.isSelfField target = false) (h : s.resolve target = some x) :
    x ∈ s.addressReads target := by
  cases target with
  | field base name =>
    apply mem_readsIn_of_resolve
    by_cases hbase : ∃ root, base = .var root
    · obtain ⟨root, rfl⟩ := hbase
      rw [isSelfField, isSelf] at hweak
      rw [resolve, hweak, if_neg Bool.false_ne_true] at h
      exact h
    · rw [resolve_field name fun root hroot => hbase ⟨root, hroot⟩] at h
      exact h
  | index base key =>
    rw [resolve_index] at h
    exact List.mem_append_left _ (mem_readsIn_of_resolve h)
  | _ => cases haccess

theorem callEffect_read {ret : Option String} {i : Invocation} {e : Effect}
    (h : e ∈ s.resultEffect ret i ++ s.receiverEffect i) :
    e.sources ⊆ s.readsInAll i.args ++ s.readsInOpt i.receiver ∧
      (e.strong = false → e.symbol ∈ s.readsInAll i.args ++ s.readsInOpt i.receiver) := by
  rcases callEffect_cases h with ⟨name, rfl⟩ | ⟨_, ⟨receiver, hreceiver, htarget⟩, hsources⟩
  · refine ⟨fun x hx => List.mem_append.mpr ?_, fun hweak => by cases hweak⟩
    rcases mem_resultSources hx with ⟨xs, hxs, hx⟩ | hx
    · exact Or.inl (mem_readsInAll_of_flowing i.args hxs hx)
    · exact Or.inr (mem_readsInOpt_of_flowing i.receiver hx)
  · constructor
    · intro x hx
      obtain ⟨xs, hxs, hx⟩ := hsources x hx
      exact List.mem_append_left _ (mem_readsInAll_of_flowing i.args hxs hx)
    · intro _
      apply List.mem_append_right
      rw [hreceiver, readsInOpt]
      exact mem_readsIn_of_resolve htarget

/-- Every source of an effect is read, and so is what an effect changes in place. -/
theorem effect_read {a : Action}
    (haccess : ∀ target value, a = .store target value → target.IsAccess)
    {e : Effect} (he : e ∈ s.effectsOf a) :
    e.sources ⊆ s.readsOf a ∧ (e.strong = false → e.symbol ∈ s.readsOf a) := by
  have hsub : ∀ {xs : List Symbol}, e.sources ⊆ xs → e.sources ⊆ distinct xs :=
    fun h x hx => mem_distinct.mpr (h hx)
  unfold readsOf
  rw [mem_distinct]
  apply And.imp_left hsub
  cases a with
  | declare name type init =>
    cases init with
    | none => cases he
    | some init =>
      obtain rfl := List.mem_singleton.mp he
      exact ⟨fun x hx => mem_readsIn_of_flowing init hx, fun hweak => by cases hweak⟩
  | assign name value =>
    obtain rfl := List.mem_singleton.mp he
    exact ⟨fun x hx => mem_readsIn_of_flowing value hx, fun hweak => by cases hweak⟩
  | store target value =>
    rw [effectsOf] at he
    split at he
    · rename_i top htop
      obtain rfl := List.mem_singleton.mp he
      constructor
      · intro x hx
        exact List.mem_append_left _ (mem_readsIn_of_flowing value hx)
      · intro hweak
        exact List.mem_append_right _ (mem_addressReads (haccess target value rfl) hweak htop)
    · cases he
  | call ret i => exact callEffect_read he
  | handOff ret i givenUp description => exact callEffect_read he
  | _ => cases he

theorem isSelfField_iff {e : Exp} : s.isSelfField e = true ↔
    ∃ self name, e = .field (.var self) name ∧ s.isSelfName self = true := by
  constructor
  · intro h
    unfold isSelfField isSelf at h
    split at h
    · split at h
      · exact ⟨_, _, rfl, h⟩
      · cases h
    · cases h
  · rintro ⟨self, name, rfl, hself⟩
    exact hself

/-- A field is replaced by a store to it and by nothing else. -/
theorem strong_field_effect_iff {a : Action} {e : Effect} :
    e ∈ s.effectsOf a ∧ e.strong = true ∧ e.symbol.isField = true ↔
      ∃ self name value, a = .store (.field (.var self) name) value ∧
        s.procedure.selfName = some self ∧ e = ⟨s.fieldOf name, true, s.flowing value⟩ := by
  constructor
  · rintro ⟨he, hstrong, hfield⟩
    have hlocal : ∀ {name : String} {sources : List Symbol},
        e ≠ ⟨s.symbolOf name, true, sources⟩ := by
      rintro name sources rfl
      rw [isField_symbolOf] at hfield
      cases hfield
    have hcall : ∀ {ret : Option String} {i : Invocation},
        e ∉ s.resultEffect ret i ++ s.receiverEffect i := by
      intro ret i he
      rcases callEffect_cases he with ⟨name, heq⟩ | ⟨hweak, _⟩
      · exact hlocal heq
      · rw [hstrong] at hweak
        cases hweak
    cases a with
    | declare name type init =>
      cases init with
      | none => cases he
      | some init => exact absurd (List.mem_singleton.mp he) hlocal
    | assign name value => exact absurd (List.mem_singleton.mp he) hlocal
    | store target value =>
      rw [effectsOf] at he
      split at he
      · rename_i top htop
        obtain rfl := List.mem_singleton.mp he
        -- only a store to a field of the receiver is strong
        have hself : s.isSelfField target = true := hstrong
        obtain ⟨self, name, rfl, hname⟩ := isSelfField_iff.mp hself
        rw [resolve_selfField hname, Option.some.injEq] at htop
        refine ⟨self, name, value, rfl, beq_iff_eq.mp hname, ?_⟩
        rw [hself, htop]
      · cases he
    | call ret i => exact absurd he hcall
    | handOff ret i givenUp description => exact absurd he hcall
    | _ => cases he
  · rintro ⟨self, name, value, rfl, hself, rfl⟩
    have hname : s.isSelfName self = true := beq_iff_eq.mpr hself
    refine ⟨?_, rfl, rfl⟩
    rw [effectsOf, resolve_selfField hname, isSelfField_iff.mpr ⟨self, name, rfl, hname⟩]
    exact List.mem_cons_self

end Scope

/-- Whatever an action moves or changes in place it also reads, provided that its store, if it is
one, goes through a field or an element; an expression of any depth reads all that flows into its
value; and the fields that are replaced are those that are stored to directly. -/
theorem flow_and_mutation_read (s : Scope) :
    (∀ a : Action, (∀ target value, a = .store target value → target.IsAccess) →
      ∀ e ∈ s.effectsOf a, e.sources ⊆ s.readsOf a ∧
        (e.strong = false → e.symbol ∈ s.readsOf a)) ∧
    (∀ e : Exp, s.flowing e ⊆ s.readsOfExp e) ∧
    ∀ (a : Action) (e : Effect),
      e ∈ s.effectsOf a ∧ e.strong = true ∧ e.symbol.isField = true ↔
        ∃ self name value, a = .store (.field (.var self) name) value ∧
          s.procedure.selfName = some self ∧ e = ⟨s.fieldOf name, true, s.flowing value⟩ := by
  refine ⟨fun a haccess e he => Scope.effect_read haccess he, ?_, ?_⟩
  · intro e x hx
    exact mem_distinct.mpr (Scope.mem_readsIn_of_flowing e hx)
  · exact fun a e => Scope.strong_field_effect_iff

/-- Appends to a list that is an element of a field. -/
def appending : Action :=
  .call none ⟨.const (.text "append"), [.var "x"], some (.index (selfField "rows") (.var "k"))⟩

theorem flow_and_mutation_read_appending :
    let s : Scope := ⟨methodOf "A.m" ["x", "k"] [], .standard⟩
    ⟨⟨"rows", .field, "A"⟩, false, [⟨"x", .parameter, "A.m"⟩]⟩ ∈ s.effectsOf appending ∧
      ⟨"x", .parameter, "A.m"⟩ ∈ s.readsOf appending ∧
      ⟨"rows", .field, "A"⟩ ∈ s.readsOf appending := by
  intro s
  have he : ⟨⟨"rows", .field, "A"⟩, false, [⟨"x", .parameter, "A.m"⟩]⟩ ∈ s.effectsOf appending := by
    decide +kernel
  have haccess : ∀ target value, appending = .store target value → target.IsAccess := by
    rintro target value heq
    cases heq
  obtain ⟨hsources, htarget⟩ := (flow_and_mutation_read s).1 appending haccess _ he
  exact ⟨he, hsources List.mem_cons_self, htarget rfl⟩

end ActorOwnership
