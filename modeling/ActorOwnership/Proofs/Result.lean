import ActorOwnership.Proofs.Incoming
import ActorOwnership.Proofs.Request

/-! What the result of a call may hold. Two parts of the analysis say so: the flow of values, which
knows the arguments and the receiver of the call, and the summary of the callee, which knows its
body. For a symbol that is among the sources of the call they agree. A field that the callee returns
is no source, and neither is what a library call inside an argument leaves behind; of such a symbol
the flow sees only what it has in common with a source. -/

namespace ActorOwnership
set_option autoImplicit false

/-! ### Origins as derivations -/

namespace Origins
variable {ds : List Definition} {ws : List (Definition × Reach × List Symbol)}

/-- The value of the first definition may come from the second one, by any number of copies. -/
inductive Derives (ws : List (Definition × Reach × List Symbol)) :
    Definition → Definition → Prop where
  | refl (d : Definition) : Derives ws d d
  | copy {w : Definition × Reach × List Symbol} {x : Symbol} {d d' : Definition} :
      w ∈ ws → x ∈ w.2.2 → d ∈ w.2.1.of x → Derives ws d d' → Derives ws w.1 d'

/-- Every origin in the table has been derived. -/
def Derived (ws : List (Definition × Reach × List Symbol)) (o : Origins) : Prop :=
  ∀ x ∈ o, ∀ d ∈ x.2, Derives ws x.1 d

theorem Derived.derives {o : Origins} (ho : Derived ws o) {d d' : Definition} (h : d' ∈ o.of d) :
    Derives ws d d' := by
  unfold Origins.of at h
  cases hl : o.lookup d with
  | none =>
    rw [hl, Option.getD_none, List.mem_singleton] at h
    exact h ▸ .refl d'
  | some r =>
    rw [hl, Option.getD_some] at h
    exact ho _ (mem_of_lookup hl) d' h

theorem Derived.copy {o : Origins} (ho : Derived ws o) {w : Definition × Reach × List Symbol}
    (hw : w ∈ ws) : Derived ws (joinAt o w.1 (o.copied w)) := by
  intro y hy d hd
  obtain ⟨x, hx, rfl⟩ := List.mem_map.mp hy
  split at hd
  · rename_i heq
    rw [if_pos heq]
    rcases mem_union.mp hd with hd | hd
    · exact ho x hx d hd
    · obtain ⟨z, hz, d', hd', hmem⟩ := mem_copied.mp hd
      have hkey : x.1 = w.1 := by simpa using heq
      simp only [hkey]
      exact .copy hw hz hd' (ho.derives hmem)
  · rename_i hne
    rw [if_neg hne]
    exact ho x hx d hd

theorem derived_solve (ds : List Definition) (ws : List (Definition × Reach × List Symbol)) :
    Derived ws (solve ds ws) := by
  have hrounds : ∀ (vs : List (Definition × Reach × List Symbol)) (o : Origins), vs ⊆ ws →
      Derived ws o → Derived ws (round vs o) := by
    intro vs
    induction vs with
    | nil => exact fun o _ ho => ho
    | cons w vs ih =>
      intro o hvs ho
      exact ih _ (fun v hv => hvs (List.mem_cons_of_mem w hv)) (ho.copy (hvs List.mem_cons_self))
  have hstart : Derived ws (start ds) := by
    intro x hx d hd
    obtain ⟨d', _, rfl⟩ := List.mem_map.mp hx
    rw [List.mem_singleton.mp hd]
    exact .refl d'
  exact saturate_keeps (fun o => hrounds ws o fun _ hw => hw) _ hstart

theorem mem_solve_of_derives (hc : Closed ds ws) (hws : ∀ w ∈ ws, w.1 ∈ ds) {d d' : Definition}
    (h : Derives ws d d') : d' ∈ (solve ds ws).of d := by
  induction h with
  | refl d => exact self_mem ds ws d
  | copy hw hx hd _ ih =>
    exact copied_subset_solve hc hw (hws _ hw) (mem_copied.mpr ⟨_, hx, _, hd, ih⟩)

/-- A definition holds itself and what is copied into it, and nothing else. -/
theorem mem_solve_iff (hc : Closed ds ws) (hws : ∀ w ∈ ws, w.1 ∈ ds) {d d' : Definition} :
    d' ∈ (solve ds ws).of d ↔ d' = d ∨ ∃ w ∈ ws, w.1 = d ∧ d' ∈ (solve ds ws).copied w := by
  constructor
  · intro h
    cases (derived_solve ds ws).derives h with
    | refl => exact Or.inl rfl
    | copy hw hx hd hderives =>
      exact Or.inr ⟨_, hw, rfl, mem_copied.mpr ⟨_, hx, _, hd, mem_solve_of_derives hc hws hderives⟩⟩
  · rintro (rfl | ⟨w, hw, rfl, hd⟩)
    · exact self_mem ds ws d'
    · exact copied_subset_solve hc hw (hws w hw) hd

end Origins

namespace Flow
variable {s : Scope} {n : Int} {k : Nat} {i : Instr}

/-- The origins of a write: itself, and what its sources may hold just before it. -/
theorem mem_origins_write_iff (h : s.procedure.instrAt? ⟨s.procedure.name, n, k⟩ = some i)
    {x : Symbol} {d : Definition} :
    d ∈ (ofScope s).origins.of ⟨x, some ⟨s.procedure.name, n, k⟩⟩ ↔
      d = ⟨x, some ⟨s.procedure.name, n, k⟩⟩ ∨ ∃ e ∈ s.effectsOf i.action, e.symbol = x ∧
        ∃ z ∈ e.sources, d ∈ (ofScope s).valueSet z ⟨s.procedure.name, n, k⟩ false := by
  have hwritten : ∀ w ∈ writes s, w.1 ∈ (graph s).initial ++ (writes s).map Prod.fst :=
    fun w hw => List.mem_append.mpr (Or.inr (List.mem_map_of_mem hw))
  rw [origins_eq_solve, Origins.mem_solve_iff writes_closed hwritten, ← origins_eq_solve]
  refine or_congr_right ?_
  constructor
  · rintro ⟨w, hw, hwd, hd⟩
    obtain ⟨n', k', i', hi', e, he, rfl⟩ := mem_writes.mp hw
    simp only [Definition.mk.injEq, Option.some.injEq, StatementId.mk.injEq, true_and,
      Int.natCast_inj] at hwd
    obtain ⟨rfl, rfl, rfl⟩ := hwd
    obtain rfl : i' = i := Option.some.inj (hi'.symm.trans h)
    obtain ⟨z, hz, d', hd', hmem⟩ := Origins.mem_copied.mp hd
    refine ⟨e, he, rfl, z, hz, mem_valueSet.mpr ⟨d', ?_, hmem⟩⟩
    rw [stateAt_false h]
    exact hd'
  · rintro ⟨e, he, rfl, z, hz, hd⟩
    refine ⟨_, mem_writes.mpr ⟨n, k, i, h, e, he, rfl⟩, rfl, ?_⟩
    obtain ⟨d', hd', hmem⟩ := mem_valueSet.mp hd
    rw [stateAt_false h] at hd'
    exact Origins.mem_copied.mpr ⟨z, hz, d', hd', hmem⟩

theorem exists_mem_valueSet (x : Symbol) (id : StatementId) (after : Bool) :
    ∃ d, d ∈ (ofScope s).valueSet x id after := by
  have hne : ((ofScope s).stateAt id after).of x ≠ [] := by
    unfold Reach.of
    split
    · nofun
    · assumption
  obtain ⟨d, hd⟩ := List.exists_mem_of_ne_nil _ hne
  exact ⟨d, mem_valueSet.mpr ⟨d, hd, mem_origins_self d⟩⟩

/-- After a statement that replaces a symbol, the symbol holds what the statement wrote. -/
theorem mem_valueSet_reset_iff (h : s.procedure.instrAt? ⟨s.procedure.name, n, k⟩ = some i)
    {x : Symbol} (hx : ∃ e ∈ s.effectsOf i.action, e.symbol = x ∧ e.strong = true)
    {d : Definition} :
    d ∈ (ofScope s).valueSet x ⟨s.procedure.name, n, k⟩ true ↔
      d = ⟨x, some ⟨s.procedure.name, n, k⟩⟩ ∨ ∃ e ∈ s.effectsOf i.action, e.symbol = x ∧
        ∃ z ∈ e.sources, d ∈ (ofScope s).valueSet z ⟨s.procedure.name, n, k⟩ false := by
  have hof : ∀ d', d' ∈ ((ofScope s).stateAt ⟨s.procedure.name, n, k⟩ true).of x ↔
      d' = ⟨x, some ⟨s.procedure.name, n, k⟩⟩ := by
    intro d'
    obtain ⟨e, he, rfl, hstrong⟩ := hx
    have hresets : (Fact.ofStatement s (⟨s.procedure.name, n, k⟩, i)).resets e.symbol = true :=
      List.any_eq_true.mpr ⟨e, he, by simp [hstrong]⟩
    have hwrite : (⟨e.symbol, some ⟨s.procedure.name, n, k⟩⟩ : Definition) ∈
        (Fact.ofStatement s (⟨s.procedure.name, n, k⟩, i)).apply (holding s ⟨n, k⟩) :=
      Fact.mem_apply.mpr (Or.inr ⟨e, he, rfl⟩)
    rw [stateAt_true h, holding_succ h, Reach.mem_of]
    constructor
    · rintro (⟨hd, hsymbol⟩ | ⟨_, hnone⟩)
      · rcases Fact.mem_apply.mp hd with ⟨_, hkept⟩ | ⟨e', _, rfl⟩
        · rw [hsymbol, hresets] at hkept
          cases hkept
        · exact congrArg (Definition.mk · _) hsymbol
      · exact absurd rfl (hnone _ hwrite)
    · rintro rfl
      exact Or.inl ⟨hwrite, rfl⟩
  rw [mem_valueSet, ← mem_origins_write_iff h]
  constructor
  · rintro ⟨d', hd', hd⟩
    exact (hof d').mp hd' ▸ hd
  · intro hd
    exact ⟨_, (hof _).mpr rfl, hd⟩

end Flow

/-! ### Sources of a call -/

namespace Scope
variable {s : Scope} {i : Invocation}

/-- The library does not say what the result of the call aliases. -/
def Untraced (library : Library) (i : Invocation) : Prop :=
  (library.callSpec i).bind LibrarySpec.returnAliases = none

theorem resultSources_of_none {spec : Option LibrarySpec}
    (h : spec.bind LibrarySpec.returnAliases = none) (args : List (List Symbol))
    (receiver : List Symbol) :
    resultSources spec args receiver = distinct (args.flatten ++ receiver) := by
  unfold resultSources
  cases spec with
  | none => rfl
  | some l =>
    have hl : l.returnAliases = none := h
    simp [hl]

theorem mem_callSources_iff (h : Untraced s.library i) {x : Symbol} :
    x ∈ s.callSources i ↔ (∃ e ∈ i.args, x ∈ s.flowing e) ∨ x ∈ s.flowingOpt i.receiver := by
  rw [callSources, resultSources_of_none h, mem_distinct, List.mem_append, flowingAll_eq_map]
  simp [List.mem_flatten]

theorem mem_callSources_of_receiverEffect (h : Untraced s.library i) {e : Effect}
    (he : e ∈ s.receiverEffect i) {x : Symbol} (hx : x ∈ e.sources) : x ∈ s.callSources i := by
  unfold receiverEffect at he
  split at he
  · split at he
    · cases he
    · split at he
      · rw [List.mem_singleton.mp he, mem_distinct, List.mem_flatten] at hx
        obtain ⟨xs, hxs, hx⟩ := hx
        obtain ⟨j, _, hj⟩ := List.mem_filterMap.mp hxs
        have hmem := mem_of_pick? hj
        rw [flowingAll_eq_map, List.mem_map] at hmem
        obtain ⟨arg, harg, rfl⟩ := hmem
        exact (mem_callSources_iff h).mpr (Or.inl ⟨arg, harg, hx⟩)
      · cases he
  · cases he

theorem effectsOf_result {a : Action} {r : String} (hr : a.result? = some r)
    (hv : a.invocation? = some i) :
    s.effectsOf a = ⟨s.symbolOf r, true, s.callSources i⟩ :: s.receiverEffect i := by
  cases a with
  | call ret v | handOff ret v =>
    obtain rfl : ret = some r := hr
    obtain rfl : v = i := Option.some.inj hv
    rfl
  | _ => cases hv

end Scope

/-- The variable that receives the result of a call holds the new definition, what the sources of
the call may hold before it, and nothing else. -/
theorem Flow.mem_valueSet_result_iff {s : Scope} {n : Int} {k : Nat} {i : Instr}
    (h : s.procedure.instrAt? ⟨s.procedure.name, n, k⟩ = some i) {r : String}
    (hr : i.action.result? = some r) {v : Invocation} (hv : i.action.invocation? = some v)
    (hspec : Scope.Untraced s.library v) {d : Definition} :
    d ∈ (ofScope s).valueSet (s.symbolOf r) ⟨s.procedure.name, n, k⟩ true ↔
      d = ⟨s.symbolOf r, some ⟨s.procedure.name, n, k⟩⟩ ∨
        ∃ z ∈ s.callSources v, d ∈ (ofScope s).valueSet z ⟨s.procedure.name, n, k⟩ false := by
  have heffects := Scope.effectsOf_result (s := s) hr hv
  have hstrong : ∃ e ∈ s.effectsOf i.action, e.symbol = s.symbolOf r ∧ e.strong = true :=
    ⟨_, heffects ▸ List.mem_cons_self, rfl, rfl⟩
  rw [mem_valueSet_reset_iff h hstrong, heffects]
  refine or_congr_right ⟨?_, fun ⟨z, hz, hd⟩ => ⟨_, List.mem_cons_self, rfl, z, hz, hd⟩⟩
  rintro ⟨e, he, _, z, hz, hd⟩
  rcases List.mem_cons.mp he with rfl | he
  · exact ⟨z, hz, hd⟩
  · exact ⟨z, Scope.mem_callSources_of_receiverEffect hspec he hz, hd⟩

/-! ### Symbols of a summary -/

mutual

/-- No call to a library function whose result is known to alias only some of its arguments. -/
def Exp.isPlain (library : Library) : Exp → Bool
  | .field base _ | .index base _ => base.isPlain library
  | .call func args receiver =>
    ((library.callSpec ⟨func, args, receiver⟩).bind LibrarySpec.returnAliases).isNone &&
      Exp.arePlain library args && Exp.isPlainOpt library receiver
  | .binary _ left right => left.isPlain library && right.isPlain library
  | .unary _ operand => operand.isPlain library
  | .aggregate elements => Exp.arePlain library elements
  | .ternary condition yes no =>
    condition.isPlain library && yes.isPlain library && no.isPlain library
  | .var _ | .const _ | .unspecified => true

def Exp.arePlain (library : Library) : List Exp → Bool
  | [] => true
  | e :: es => e.isPlain library && Exp.arePlain library es

def Exp.isPlainOpt (library : Library) : Option Exp → Bool
  | none => true
  | some e => e.isPlain library

end

namespace Scope
variable (p : Procedure) (library : Library)

/-- The library does not matter to the symbol that an access path starts from. -/
theorem resolve_library (e : Exp) : resolve ⟨p, library⟩ e = resolve { procedure := p } e := by
  fun_induction resolve { procedure := p } e with
  | case1 name => rfl
  | case2 root name => rfl
  | case3 base name hbase ih =>
    rw [resolve]
    · exact ih
    · exact hbase
  | case4 base key ih =>
    rw [resolve]
    exact ih
  | case5 e hvar _ hfield hindex =>
    cases e with
    | var name => exact absurd rfl (hvar name)
    | field base name => exact absurd rfl (hfield base name)
    | index base key => exact absurd rfl (hindex base key)
    | _ => rfl

theorem untraced_nil (i : Invocation) : Untraced [] i := by
  have hnone : ∀ name, Library.specOf [] name = none := by
    intro name
    simp [Library.specOf, Library.find?]
  simp [Untraced, Library.callSpec, hnone]

mutual

theorem flowing_plain (e : Exp) (h : e.isPlain library = true) :
    flowing ⟨p, library⟩ e = flowing { procedure := p } e := by
  cases e with
  | var name => rw [flowing, flowing]; rfl
  | const value => rw [flowing, flowing]
  | unspecified => rw [flowing, flowing]
  | binary op left right =>
    rw [Exp.isPlain, Bool.and_eq_true] at h
    rw [flowing, flowing, flowing_plain left h.1, flowing_plain right h.2]
  | unary op operand =>
    rw [Exp.isPlain] at h
    rw [flowing, flowing, flowing_plain operand h]
  | field base name =>
    rw [Exp.isPlain] at h
    rw [flowing, flowing, resolve_library, flowing_plain base h]
  | index base key =>
    rw [Exp.isPlain] at h
    rw [flowing, flowing, resolve_library, flowing_plain base h]
  | call func args receiver =>
    simp only [Exp.isPlain, Bool.and_eq_true, Option.isNone_iff_eq_none] at h
    obtain ⟨⟨hspec, hargs⟩, hreceiver⟩ := h
    rw [flowing, flowing, resultSources_of_none hspec, resultSources_of_none (untraced_nil _),
      flowingAll_plain args hargs, flowingOpt_plain receiver hreceiver]
  | aggregate elements =>
    rw [Exp.isPlain] at h
    rw [flowing, flowing, flowingAll_plain elements h]
  | ternary condition yes no =>
    simp only [Exp.isPlain, Bool.and_eq_true] at h
    rw [flowing, flowing, flowing_plain condition h.1.1, flowing_plain yes h.1.2,
      flowing_plain no h.2]

theorem flowingAll_plain (es : List Exp) (h : Exp.arePlain library es = true) :
    flowingAll ⟨p, library⟩ es = flowingAll { procedure := p } es := by
  cases es with
  | nil => rw [flowingAll, flowingAll]
  | cons e es =>
    rw [Exp.arePlain, Bool.and_eq_true] at h
    rw [flowingAll, flowingAll, flowing_plain e h.1, flowingAll_plain es h.2]

theorem flowingOpt_plain (e : Option Exp) (h : Exp.isPlainOpt library e = true) :
    flowingOpt ⟨p, library⟩ e = flowingOpt { procedure := p } e := by
  cases e with
  | none => rw [flowingOpt, flowingOpt]
  | some e =>
    rw [Exp.isPlainOpt] at h
    rw [flowingOpt, flowingOpt, flowing_plain e h]

end

/-- The symbol that an access path starts from flows into its value. -/
theorem mem_flowing_of_resolve {s : Scope} {e : Exp} {x : Symbol} (h : s.resolve e = some x) :
    x ∈ s.flowing e := by
  cases e with
  | var name =>
    rw [flowing, List.mem_singleton]
    exact (Option.some.inj h).symm
  | field base name | index base key =>
    rw [flowing, h]
    exact List.mem_cons_self
  | _ => cases h

variable {p library}

/-- What an argument brings along flows into its value, if there is no library call in it that is
known to leave parts of it out. -/
theorem mem_flowing_of_argument {args : List Exp} {position : Nat} {x : Symbol}
    (h : x ∈ Summary.argumentSymbols { procedure := p } args position) :
    ∃ e ∈ args, x ∈ flowing { procedure := p } e ∧
      (e.isPlain library = true → x ∈ flowing ⟨p, library⟩ e) := by
  unfold Summary.argumentSymbols at h
  split at h
  · cases h
  · rename_i arg harg
    refine ⟨arg, List.mem_of_getElem? harg, ?_⟩
    have hx : x ∈ flowing { procedure := p } arg := by
      split at h
      · rename_i top htop
        exact List.mem_singleton.mp h ▸ mem_flowing_of_resolve htop
      · exact h
    exact ⟨hx, fun hplain => flowing_plain p library arg hplain ▸ hx⟩

end Scope

theorem mem_sortSymbols {xs : List Symbol} {x : Symbol} : x ∈ sortSymbols xs ↔ x ∈ xs :=
  List.mem_mergeSort

/-- A resolved call is one of a plain name, or one on the own object. -/
theorem Program.isSelf_of_resolveCallee {g : Program} {v : Invocation} {p callee : Procedure}
    (h : g.resolveCallee v p = some callee) {receiver : Exp} (hreceiver : v.receiver = some receiver)
    (library : Library) : Scope.isSelf ⟨p, library⟩ receiver = true := by
  unfold resolveCallee at h
  rw [hreceiver] at h
  cases receiver with
  | var name =>
    simp only at h
    split at h
    · rename_i hself
      simp [Scope.isSelf, Scope.isSelfName, hself]
    · cases h
  | _ => cases h

/-- A symbol that a summary gives for the result of a resolved call is a field that the callee returns
or comes with an argument. -/
theorem Summary.mem_resultSymbols {g : Program} {v : Invocation} {p callee : Procedure}
    (hcallee : g.resolveCallee v p = some callee) {y : Summary} {x : Symbol}
    (h : x ∈ y.resultSymbols v p) :
    (y.isConstructor = false ∧ v.receiver.any (Scope.isSelf ⟨p, g.library⟩) = true ∧
      x ∈ y.returnedFields) ∨
    ∃ e ∈ v.args, x ∈ Scope.flowing { procedure := p } e ∧
      (e.isPlain g.library = true → x ∈ Scope.flowing ⟨p, g.library⟩ e) := by
  unfold resultSymbols at h
  split at h
  · obtain ⟨position, _, hx⟩ := List.mem_flatMap.mp (mem_distinct.mp h)
    exact Or.inr (Scope.mem_flowing_of_argument hx)
  · rename_i hctor
    rcases List.mem_append.mp (mem_distinct.mp h) with h | h
    · obtain ⟨position, _, hx⟩ := List.mem_flatMap.mp h
      exact Or.inr (Scope.mem_flowing_of_argument hx)
    · split at h
      · cases h
      · rename_i receiver hreceiver
        obtain ⟨field, hfield, hx⟩ := List.mem_flatMap.mp h
        rw [returnedField, if_pos (Program.isSelf_of_resolveCallee hcallee hreceiver []),
          List.mem_singleton] at hx
        refine Or.inl ⟨by simpa using hctor, ?_, hx ▸ mem_sortSymbols.mp hfield⟩
        rw [hreceiver]
        exact Program.isSelf_of_resolveCallee hcallee hreceiver g.library

/-- Take a call with a result that is resolved to a procedure of the program and that the library
does not trace. Every symbol that the summary of the callee, or any other one, gives for the result
has a value before the call. The result may hold all of it, unless the symbol is a field that the
callee returns or comes from an argument with a library call that leaves it out; then the result may
hold of it just what it has in common with the sources of the call. -/
theorem valueSet_resultSymbols (g : Program) {p callee : Procedure} (hp : g.find? p.name = some p)
    {id : StatementId} {i : Instr} (hi : p.instrAt? id = some i) {r : String}
    (hr : i.action.result? = some r) {v : Invocation} (hv : i.action.invocation? = some v)
    (hcallee : g.resolveCallee v p = some callee) (hspec : Scope.Untraced g.library v) :
    ∃ f, (Context.ofProgram g).flow? p.name = some f ∧
      ∀ (y : Summary), ∀ x ∈ y.resultSymbols v p, f.valueSet x id false ≠ [] ∧
      (f.valueSet x id false ⊆ f.valueSet (f.scope.symbolOf r) id true ∨
        ((y.isConstructor = false ∧ v.receiver.any f.scope.isSelf = true ∧ x ∈ y.returnedFields) ∨
          ∃ e ∈ v.args, e.isPlain g.library = false ∧ x ∈ Scope.flowing { procedure := p } e) ∧
        ((∃ d ∈ f.valueSet x id false, d ∈ f.valueSet (f.scope.symbolOf r) id true) ↔
          ∃ d ∈ f.valueSet x id false, d = ⟨f.scope.symbolOf r, some id⟩ ∨
            ∃ z ∈ f.scope.callSources v, d ∈ f.valueSet z id false)) := by
  obtain ⟨n, k, rfl, _⟩ := Procedure.exists_of_instrAt? hi
  have hresult : ∀ d, d ∈ (Flow.ofScope ⟨p, g.library⟩).valueSet (Scope.symbolOf ⟨p, g.library⟩ r)
      ⟨p.name, n, k⟩ true ↔ _ :=
    fun d => Flow.mem_valueSet_result_iff (s := ⟨p, g.library⟩) hi hr hv hspec
  refine ⟨Flow.ofScope ⟨p, g.library⟩,
    (Context.coherent_ofProgram g).flow?_eq_some.mpr ⟨p, hp, rfl⟩, ?_⟩
  intro y x hx
  obtain ⟨d₀, hd₀⟩ := Flow.exists_mem_valueSet (s := ⟨p, g.library⟩) x ⟨p.name, n, k⟩ false
  refine ⟨List.ne_nil_of_mem hd₀, ?_⟩
  have hmeets : (∃ d ∈ (Flow.ofScope ⟨p, g.library⟩).valueSet x ⟨p.name, n, k⟩ false,
      d ∈ (Flow.ofScope ⟨p, g.library⟩).valueSet (Scope.symbolOf ⟨p, g.library⟩ r)
        ⟨p.name, n, k⟩ true) ↔ _ :=
    exists_congr fun d => and_congr_right fun _ => hresult d
  rcases Summary.mem_resultSymbols hcallee hx with hfield | ⟨e, he, hflows, hplain⟩
  · exact Or.inr ⟨Or.inl hfield, hmeets⟩
  · cases htraced : e.isPlain g.library with
    | false => exact Or.inr ⟨Or.inr ⟨e, he, htraced, hflows⟩, hmeets⟩
    | true =>
      refine Or.inl fun d hd => (hresult d).mpr (Or.inr ⟨x, ?_, hd⟩)
      exact (Scope.mem_callSources_iff hspec).mpr (Or.inl ⟨e, he, hplain htraced⟩)

/-! ### A getter and an identity -/

def ownCall (name : String) (args : List Exp) : Invocation :=
  ⟨.const (.text name), args, some (.var "self")⟩

/-- Asks its object for a field, and passes the field through. -/
def ticker : Procedure :=
  methodOf "A.tick" []
    [{ id := 0, instrs := [⟨.unknown, .call (some "y") (ownCall "current" [])⟩,
        ⟨.unknown, .call (some "z") (ownCall "echo" [selfField "cache"])⟩,
        sendCall (.var "y"), printCall (selfField "cache")] }]

def ticking : Program where
  procedures := [ticker,
    methodOf "A.current" []
      [{ id := 0, instrs := [⟨.unknown, .return_ (some (selfField "cache"))⟩] }],
    methodOf "A.echo" ["x"]
      [{ id := 0, instrs := [⟨.unknown, .return_ (some (.var "x"))⟩] }]]
  library := .standard

def cacheOf : Symbol := ⟨"cache", .field, "A"⟩

/-- The field that is passed through is seen in the result. -/
theorem valueSet_resultSymbols_ticking :
    cacheOf ∈ ((SummaryTable.request (.ofProgram ticking) "A.echo").run []).1.resultSymbols
      (ownCall "echo" [selfField "cache"]) ticker ∧
    ∃ f, (Context.ofProgram ticking).flow? "A.tick" = some f ∧
      f.valueSet cacheOf ⟨"A.tick", 0, 1⟩ false ≠ [] ∧
      f.valueSet cacheOf ⟨"A.tick", 0, 1⟩ false ⊆
        f.valueSet (f.scope.symbolOf "z") ⟨"A.tick", 0, 1⟩ true := by
  have hsummary : ((SummaryTable.request (.ofProgram ticking) "A.echo").run []).1 =
      { procedure := "A.echo", className := some "A", returnedParams := [0] } := by decide +kernel
  have hspec : Scope.Untraced ticking.library (ownCall "echo" [selfField "cache"]) := by
    unfold Scope.Untraced
    decide +kernel
  have hi : ticker.instrAt? ⟨"A.tick", 0, 1⟩ = some _ := rfl
  have hx : cacheOf ∈ ((SummaryTable.request (.ofProgram ticking) "A.echo").run []).1.resultSymbols
      (ownCall "echo" [selfField "cache"]) ticker := by decide +kernel
  obtain ⟨f, hf, hall⟩ := valueSet_resultSymbols ticking (p := ticker) rfl hi rfl rfl rfl hspec
  obtain ⟨hne, hsub | ⟨hother, _⟩⟩ := hall _ cacheOf hx
  · exact ⟨hx, f, hf, hne, hsub⟩
  · rw [hsummary] at hother
    rcases hother with ⟨_, _, hfield⟩ | ⟨e, he, htraced, _⟩
    · cases hfield
    · rw [List.mem_singleton.mp he] at htraced
      cases htraced

/-- The callee returns the field, and its summary says so, but the flow sees nothing of it in the
result. -/
theorem returned_field_unseen :
    cacheOf ∈ ((SummaryTable.request (.ofProgram ticking) "A.current").run []).1.resultSymbols
      (ownCall "current" []) ticker ∧
    ∃ f, (Context.ofProgram ticking).flow? "A.tick" = some f ∧
      ∀ d ∈ f.valueSet cacheOf ⟨"A.tick", 0, 0⟩ false,
        d ∉ f.valueSet ⟨"y", .local_, "A.tick"⟩ ⟨"A.tick", 0, 0⟩ true := by
  refine ⟨by decide +kernel, Flow.ofScope ⟨ticker, .standard⟩, rfl, by decide +kernel⟩

end ActorOwnership
