import ActorOwnership.Proofs.Origin

/-! Which incoming values of parameters a set of definitions holds. Value sets and origins name the
parameters of no other procedure, so the positions that are read off them are those of the incoming
values in them. -/

namespace ActorOwnership
set_option autoImplicit false

/-! ### Symbols of a procedure -/

namespace Scope
variable {s : Scope}

/-- The symbol is no parameter of another procedure. -/
def Proper (s : Scope) (x : Symbol) : Prop := x.kind = .parameter → x = s.symbolOf x.name

theorem proper_symbolOf (name : String) : s.Proper (s.symbolOf name) := fun _ => rfl

theorem proper_fieldOf (name : String) : s.Proper (s.fieldOf name) := by
  intro h
  cases h

theorem proper_resolve {e : Exp} {x : Symbol} (h : s.resolve e = some x) : s.Proper x := by
  fun_induction resolve s e with
  | case1 name =>
    cases h
    exact proper_symbolOf name
  | case2 name root =>
    cases h
    split
    · exact proper_fieldOf root
    · exact proper_symbolOf name
  | case3 base name _ ih => exact ih h
  | case4 base key ih => exact ih h
  | case5 => cases h

theorem mem_of_pick? {α : Type} {xs : List α} {k : Int} {x : α} (h : pick? xs k = some x) :
    x ∈ xs := by
  unfold pick? at h
  split at h
  · cases h
  · exact List.mem_of_getElem? h

theorem mem_resultSources {spec : Option LibrarySpec} {args : List (List Symbol)}
    {receiver : List Symbol} {x : Symbol} (h : x ∈ resultSources spec args receiver) :
    (∃ xs ∈ args, x ∈ xs) ∨ x ∈ receiver := by
  unfold resultSources at h
  split at h
  · rename_i l positions _
    rcases List.mem_append.mp (mem_distinct.mp h) with h | h
    · obtain ⟨xs, hxs, hx⟩ := List.mem_flatten.mp h
      obtain ⟨k, _, hk⟩ := List.mem_filterMap.mp hxs
      exact Or.inl ⟨xs, mem_of_pick? hk, hx⟩
    · split at h
      · exact Or.inr h
      · cases h
  · rcases List.mem_append.mp (mem_distinct.mp h) with h | h
    · exact Or.inl (List.mem_flatten.mp h)
    · exact Or.inr h

mutual

theorem proper_flowing (e : Exp) {x : Symbol} (h : x ∈ s.flowing e) : s.Proper x := by
  cases e with
  | var name =>
    rw [flowing, List.mem_singleton] at h
    exact h ▸ proper_symbolOf name
  | const value => simp [flowing] at h
  | binary op left right =>
    rw [flowing, mem_distinct, List.mem_append] at h
    exact h.elim (proper_flowing left) (proper_flowing right)
  | unary op operand =>
    rw [flowing] at h
    exact proper_flowing operand h
  | field base name =>
    rw [flowing] at h
    split at h
    · rename_i top htop
      exact List.mem_singleton.mp h ▸ proper_resolve htop
    · exact proper_flowing base h
  | index base key =>
    rw [flowing] at h
    split at h
    · rename_i top htop
      exact List.mem_singleton.mp h ▸ proper_resolve htop
    · exact proper_flowing base h
  | call func args receiver =>
    rw [flowing] at h
    rcases mem_resultSources h with ⟨xs, hxs, hx⟩ | hx
    · exact proper_flowingAll args hxs hx
    · exact proper_flowingOpt receiver hx
  | aggregate elements =>
    rw [flowing, mem_distinct, List.mem_flatten] at h
    obtain ⟨xs, hxs, hx⟩ := h
    exact proper_flowingAll elements hxs hx
  | ternary condition yes no =>
    rw [flowing, mem_distinct, List.mem_append, List.mem_append] at h
    rcases h with (h | h) | h
    · exact proper_flowing condition h
    · exact proper_flowing yes h
    · exact proper_flowing no h
  | unspecified => simp [flowing] at h

theorem proper_flowingAll (es : List Exp) {xs : List Symbol} (hxs : xs ∈ s.flowingAll es)
    {x : Symbol} (hx : x ∈ xs) : s.Proper x := by
  cases es with
  | nil => simp [flowingAll] at hxs
  | cons e es =>
    rw [flowingAll, List.mem_cons] at hxs
    rcases hxs with rfl | hxs
    · exact proper_flowing e hx
    · exact proper_flowingAll es hxs hx

theorem proper_flowingOpt (e : Option Exp) {x : Symbol} (h : x ∈ s.flowingOpt e) :
    s.Proper x := by
  cases e with
  | none => simp [flowingOpt] at h
  | some e =>
    rw [flowingOpt] at h
    exact proper_flowing e h

end

mutual

theorem proper_readsIn (below : Bool) (e : Exp) {x : Symbol} (h : x ∈ s.readsIn below e) :
    s.Proper x := by
  cases e with
  | var name =>
    rw [readsIn] at h
    split at h
    · cases h
    · exact List.mem_singleton.mp h ▸ proper_symbolOf name
  | const value => simp [readsIn] at h
  | binary op left right =>
    rw [readsIn, List.mem_append] at h
    exact h.elim (proper_readsIn false left) (proper_readsIn false right)
  | unary op operand =>
    rw [readsIn] at h
    exact proper_readsIn false operand h
  | field base name =>
    rw [readsIn, List.mem_append] at h
    rcases h with h | h
    · split at h
      · cases h
      · exact proper_resolve (Option.mem_toList.mp h)
    · exact proper_readsIn true base h
  | index base key =>
    rw [readsIn, List.mem_append, List.mem_append] at h
    rcases h with (h | h) | h
    · split at h
      · cases h
      · exact proper_resolve (Option.mem_toList.mp h)
    · exact proper_readsIn false key h
    · exact proper_readsIn true base h
  | call func args receiver =>
    rw [readsIn, List.mem_append] at h
    exact h.elim (proper_readsInAll args) (proper_readsInOpt receiver)
  | aggregate elements =>
    rw [readsIn] at h
    exact proper_readsInAll elements h
  | ternary condition yes no =>
    rw [readsIn, List.mem_append, List.mem_append] at h
    rcases h with (h | h) | h
    · exact proper_readsIn false condition h
    · exact proper_readsIn false yes h
    · exact proper_readsIn false no h
  | unspecified => simp [readsIn] at h

theorem proper_readsInAll (es : List Exp) {x : Symbol} (h : x ∈ s.readsInAll es) :
    s.Proper x := by
  cases es with
  | nil => simp [readsInAll] at h
  | cons e es =>
    rw [readsInAll, List.mem_append] at h
    exact h.elim (proper_readsIn false e) (proper_readsInAll es)

theorem proper_readsInOpt (e : Option Exp) {x : Symbol} (h : x ∈ s.readsInOpt e) :
    s.Proper x := by
  cases e with
  | none => simp [readsInOpt] at h
  | some e =>
    rw [readsInOpt] at h
    exact proper_readsIn false e h

end

theorem proper_readsOf {a : Action} {x : Symbol} (h : x ∈ s.readsOf a) : s.Proper x := by
  unfold readsOf at h
  rw [mem_distinct] at h
  cases a with
  | declare name type init => exact proper_readsInOpt init h
  | assign name value => exact proper_readsIn false value h
  | store target value =>
    rcases List.mem_append.mp h with h | h
    · exact proper_readsIn false value h
    · unfold addressReads at h
      split at h
      · exact proper_readsIn false _ h
      · exact (List.mem_append.mp h).elim (proper_readsIn false _) (proper_readsIn false _)
      · cases h
  | assume_ condition holds kind => exact proper_readsIn false condition h
  | return_ value => exact proper_readsInOpt value h
  | call ret i =>
    exact (List.mem_append.mp h).elim (proper_readsInAll i.args) (proper_readsInOpt i.receiver)
  | handOff ret i givenUp description =>
    exact (List.mem_append.mp h).elim (proper_readsInAll i.args) (proper_readsInOpt i.receiver)
  | unspecified => cases h

theorem proper_callSources {i : Invocation} {x : Symbol} (h : x ∈ s.callSources i) :
    s.Proper x := by
  rcases mem_resultSources h with ⟨xs, hxs, hx⟩ | hx
  · exact proper_flowingAll i.args hxs hx
  · exact proper_flowingOpt i.receiver hx

/-- What an effect writes, and where it takes it from. -/
def ProperEffect (s : Scope) (e : Effect) : Prop :=
  s.Proper e.symbol ∧ ∀ x ∈ e.sources, s.Proper x

theorem proper_callEffect {ret : Option String} {i : Invocation} {e : Effect}
    (h : e ∈ s.resultEffect ret i ++ s.receiverEffect i) : s.ProperEffect e := by
  rcases List.mem_append.mp h with h | h
  · unfold resultEffect at h
    split at h
    · rw [List.mem_singleton] at h
      subst h
      exact ⟨proper_symbolOf _, fun x hx => proper_callSources hx⟩
    · cases h
  · unfold receiverEffect at h
    split at h
    · split at h
      · cases h
      · split at h
        · rename_i target htarget
          rw [List.mem_singleton] at h
          subst h
          refine ⟨proper_resolve htarget, ?_⟩
          intro x hx
          obtain ⟨xs, hxs, hx⟩ := List.mem_flatten.mp (mem_distinct.mp hx)
          obtain ⟨k, _, hk⟩ := List.mem_filterMap.mp hxs
          exact proper_flowingAll i.args (mem_of_pick? hk) hx
        · cases h
    · cases h

theorem proper_effectsOf {a : Action} {e : Effect} (h : e ∈ s.effectsOf a) :
    s.ProperEffect e := by
  cases a with
  | declare name type init =>
    cases init with
    | none => cases h
    | some init =>
      rw [effectsOf, List.mem_singleton] at h
      subst h
      exact ⟨proper_symbolOf name, fun x hx => proper_flowing init hx⟩
  | assign name value =>
    rw [effectsOf, List.mem_singleton] at h
    subst h
    exact ⟨proper_symbolOf name, fun x hx => proper_flowing value hx⟩
  | store target value =>
    rw [effectsOf] at h
    split at h
    · rename_i top htop
      rw [List.mem_singleton] at h
      subst h
      exact ⟨proper_resolve htop, fun x hx => proper_flowing value hx⟩
    · cases h
  | assume_ condition holds kind => cases h
  | return_ value => cases h
  | call ret i => exact proper_callEffect h
  | handOff ret i givenUp description => exact proper_callEffect h
  | unspecified => cases h

end Scope

/-! ### Definitions on entry -/

namespace Flow
variable {s : Scope}

theorem proper_symbolsOf {x : Symbol} (h : x ∈ symbolsOf s (allFacts s)) : s.Proper x := by
  rcases List.mem_append.mp (mem_distinct.mp h) with h | h
  · obtain ⟨name, _, rfl⟩ := List.mem_map.mp h
    exact Scope.proper_symbolOf name
  · obtain ⟨f, hf, hx⟩ := List.mem_flatMap.mp h
    obtain ⟨st, _, rfl⟩ := List.mem_map.mp hf
    rcases List.mem_append.mp hx with hx | hx
    · obtain ⟨e, he, hx⟩ := List.mem_flatMap.mp hx
      obtain ⟨hsymbol, hsources⟩ := Scope.proper_effectsOf he
      rcases List.mem_cons.mp hx with rfl | hx
      · exact hsymbol
      · exact hsources x hx
    · exact Scope.proper_readsOf hx

theorem proper_of_mem_origins {d d' : Definition} (h : d ∈ (ofScope s).origins.of d')
    (hd : d.isEntry = true) (hd' : s.Proper d'.symbol) : s.Proper d.symbol := by
  rw [origins_eq_solve] at h
  unfold Origins.of at h
  cases hl : (Origins.solve ((graph s).initial ++ (writes s).map Prod.fst)
      (writes s)).lookup d' with
  | none =>
    rw [hl, Option.getD_none, List.mem_singleton] at h
    exact h ▸ hd'
  | some r =>
    rw [hl, Option.getD_some] at h
    obtain ⟨_, hwithin, _⟩ := Origins.solve_settled (writes_closed (s := s))
    rcases List.mem_append.mp ((hwithin _ (mem_of_lookup hl)).2 h) with hinit | hwrite
    · obtain ⟨x, hx, rfl⟩ := List.mem_map.mp hinit
      exact proper_symbolsOf hx
    · -- a write is no definition on entry
      obtain ⟨w, hw, rfl⟩ := List.mem_map.mp hwrite
      obtain ⟨n, k, i, _, e, _, rfl⟩ := mem_writes.mp hw
      cases hd

theorem mem_valueSetOf {f : Flow} {e : Exp} {id : StatementId} {d : Definition} :
    d ∈ f.valueSetOf e id ↔ ∃ x ∈ f.scope.flowing e, d ∈ f.valueSet x id false := by
  simp [valueSetOf, mem_foldl_union]

theorem proper_of_mem_valueSetOf {e : Exp} {id : StatementId} {d : Definition}
    (h : d ∈ (ofScope s).valueSetOf e id) (hd : d.isEntry = true) : s.Proper d.symbol := by
  obtain ⟨x, hx, h⟩ := mem_valueSetOf.mp h
  obtain ⟨d', hd', h⟩ := mem_valueSet.mp h
  have hsymbol : d'.symbol = x := by
    rcases Reach.mem_of.mp hd' with ⟨_, hx⟩ | ⟨rfl, _⟩
    · exact hx
    · rfl
  apply proper_of_mem_origins h hd
  rw [hsymbol]
  exact Scope.proper_flowing e hx

/-! ### Positions -/

/-- Among `values` is the value that comes in at a position. -/
def HasIncoming (f : Flow) (values : Reach) (i : Nat) : Prop :=
  ∃ name, f.scope.procedure.paramPosition name = some i ∧ ⟨f.scope.symbolOf name, none⟩ ∈ values

theorem kind_symbolOf {p : Procedure} {name : String} {i : Nat} (h : p.paramPosition name = some i)
    (library : Library) : (Scope.symbolOf ⟨p, library⟩ name).kind = .parameter := by
  have hpositional : name ∈ p.positionalParams := by
    obtain ⟨hi, hname, _⟩ := List.findIdx?_eq_some_iff_getElem.mp h
    rw [← eq_of_beq hname]
    exact List.getElem_mem hi
  have hname : name ∈ p.paramNames := by
    unfold Procedure.positionalParams at hpositional
    split at hpositional
    · exact List.mem_of_mem_tail hpositional
    · exact hpositional
  unfold Scope.symbolOf
  simp [hname]

theorem mem_parameterPositions {values : Reach}
    (hvalues : ∀ d ∈ values, d.isEntry = true → s.Proper d.symbol) {i : Nat} :
    i ∈ (ofScope s).parameterPositions values ↔ (ofScope s).HasIncoming values i := by
  unfold parameterPositions
  rw [mem_distinct, List.mem_filterMap]
  constructor
  · rintro ⟨⟨x, statement⟩, hd, hi⟩
    split at hi
    · rename_i hentry
      rw [Bool.and_eq_true, beq_iff_eq] at hentry
      obtain ⟨hentry, hkind⟩ := hentry
      have hx := hvalues _ hd hentry hkind
      have hnone : statement = none := by simpa [Definition.isEntry] using hentry
      refine ⟨x.name, hi, ?_⟩
      rw [hnone] at hd
      exact hx ▸ hd
    · cases hi
  · rintro ⟨name, hposition, hmem⟩
    refine ⟨_, hmem, ?_⟩
    have hkind : ((ofScope s).scope.symbolOf name).kind = .parameter :=
      kind_symbolOf hposition s.library
    rw [if_pos (by simp [Definition.isEntry, hkind])]
    exact hposition

theorem mem_positionsOf {e : Exp} {id : StatementId} {i : Nat} :
    i ∈ (ofScope s).parameterPositions ((ofScope s).valueSetOf e id) ↔
      (ofScope s).HasIncoming ((ofScope s).valueSetOf e id) i :=
  mem_parameterPositions fun _ hd => proper_of_mem_valueSetOf hd

theorem mem_positions_of_effect {a : Action} {e : Effect} (he : e ∈ s.effectsOf a)
    {id : StatementId} {i : Nat} :
    i ∈ (ofScope s).parameterPositions ((ofScope s).origins.of ⟨e.symbol, some id⟩) ↔
      (ofScope s).HasIncoming ((ofScope s).origins.of ⟨e.symbol, some id⟩) i := by
  apply mem_parameterPositions
  intro d hd hentry
  exact proper_of_mem_origins hd hentry (Scope.proper_effectsOf he).1

end Flow

end ActorOwnership
