import ActorOwnership.Proofs.GivenUp

/-! Library calls that are handed off. The library may say which arguments the result of a call
aliases; discovery does not ask it, and takes all arguments of the call for parts of what is given
away. What is discovered beyond the specification is exactly what flows into the other arguments
only. -/

namespace ActorOwnership
set_option autoImplicit false

open SummaryTable (Built)

namespace Scope
variable {s : Scope}

/-- The symbols that are discovered on account of an argument that is handed off. -/
def handedSymbols (s : Scope) (arg : Exp) : List Symbol :=
  (Summary.handedParts arg).flatMap s.flowing

theorem mem_handedSymbols_call {v : Invocation} {x : Symbol} :
    x ∈ s.handedSymbols (.call v.func v.args v.receiver) ↔ ∃ arg ∈ v.args, x ∈ s.flowing arg :=
  List.mem_flatMap

theorem pick?_map {α β : Type} (f : α → β) (xs : List α) (k : Int) :
    pick? (xs.map f) k = (pick? xs k).map f := by
  unfold pick?
  split
  · rfl
  · exact List.getElem?_map

/-- With a specification, only the listed arguments count, and the object where it says so. -/
theorem mem_callSources_of_spec {v : Invocation} {spec : LibrarySpec} {positions : List Int}
    (hspec : s.library.callSpec v = some spec) (haliases : spec.returnAliases = some positions)
    {x : Symbol} : x ∈ s.callSources v ↔
      (∃ k ∈ positions, ∃ arg, pick? v.args k = some arg ∧ x ∈ s.flowing arg) ∨
        spec.returnFromReceiver = true ∧ x ∈ s.flowingOpt v.receiver := by
  have hsources : s.callSources v =
      distinct ((positions.filterMap (pick? (s.flowingAll v.args))).flatten ++
        if spec.returnFromReceiver then s.flowingOpt v.receiver else []) := by
    rw [callSources, hspec, resultSources, Option.bind_some, haliases, Option.map_some]
  rw [hsources, mem_distinct, List.mem_append, List.mem_flatten]
  apply or_congr
  · constructor
    · rintro ⟨xs, hxs, hx⟩
      obtain ⟨k, hk, hpick⟩ := List.mem_filterMap.mp hxs
      rw [flowingAll_eq_map, pick?_map] at hpick
      obtain ⟨arg, harg, rfl⟩ := Option.map_eq_some_iff.mp hpick
      exact ⟨k, hk, arg, harg, hx⟩
    · rintro ⟨k, hk, arg, harg, hx⟩
      refine ⟨s.flowing arg, List.mem_filterMap.mpr ⟨k, hk, ?_⟩, hx⟩
      rw [flowingAll_eq_map, pick?_map, harg, Option.map_some]
  · cases spec.returnFromReceiver <;> simp

/-- What a specified call gives away beyond its specification. -/
theorem handedSymbols_beyond {v : Invocation} {spec : LibrarySpec} {positions : List Int}
    (hspec : s.library.callSpec v = some spec) (haliases : spec.returnAliases = some positions)
    {x : Symbol} :
    x ∈ s.handedSymbols (.call v.func v.args v.receiver) ∧ x ∉ s.callSources v ↔
      (∃ arg ∈ v.args, x ∈ s.flowing arg) ∧
      (∀ k ∈ positions, ∀ arg, pick? v.args k = some arg → x ∉ s.flowing arg) ∧
      (spec.returnFromReceiver = true → x ∉ s.flowingOpt v.receiver) := by
  rw [mem_handedSymbols_call, mem_callSources_of_spec hspec haliases]
  apply and_congr_right
  intro _
  push Not
  rfl

/-- A call whose specification lists every argument that brings a symbol gives away no more than the
specification says. -/
theorem handedSymbols_subset {v : Invocation} {spec : LibrarySpec} {positions : List Int}
    (hspec : s.library.callSpec v = some spec) (haliases : spec.returnAliases = some positions)
    (hlisted : ∀ (k : Nat) (arg : Exp), v.args[k]? = some arg → (k : Int) ∉ positions →
      s.flowing arg = []) :
    s.handedSymbols (.call v.func v.args v.receiver) ⊆ s.callSources v := by
  intro x hx
  obtain ⟨arg, harg, hx⟩ := mem_handedSymbols_call.mp hx
  obtain ⟨k, hk⟩ := List.mem_iff_getElem?.mp harg
  rw [mem_callSources_of_spec hspec haliases]
  by_cases hmem : (k : Int) ∈ positions
  · exact Or.inl ⟨k, hmem, arg, by rw [pick?_ofNat, hk], hx⟩
  · rw [hlisted k arg hk hmem] at hx
    cases hx

end Scope

/-- The points at a statement are those of the arguments that it hands off. -/
theorem HandOffPoint.mem_discover_iff_handed {g : Program} (hg : g.Distinct) {t : SummaryTable}
    (ht : Built (.ofProgram g) t) {p : Procedure} (hp : p ∈ g.procedures) {id : StatementId}
    {i : Instr} (hi : p.instrAt? id = some i) {x : Symbol} :
    ⟨x, id, p.name⟩ ∈ ((discover (.ofProgram g)).run t).1 ↔
      ∃ arg ∈ ((handedOff (.ofProgram g) p i.action).run
        ((discover (.ofProgram g)).run t).2).1, x ∈ (⟨p, g.library⟩ : Scope).handedSymbols arg := by
  have hc := Context.coherent_ofProgram g
  rw [mem_discover hc ht]
  constructor
  · rintro ⟨f, hf, ⟨id', i'⟩, hst, hmem⟩
    obtain ⟨arg, harg, part, hpart, y, hy, heq⟩ := mem_ofStatement.mp hmem
    simp only [HandOffPoint.mk.injEq] at heq
    obtain ⟨rfl, rfl, hname⟩ := heq
    -- procedures have distinct names, so the statement is the one of `p`
    obtain ⟨q, hq, rfl⟩ := List.mem_map.mp hf
    obtain rfl : q = p := List.inj_on_of_nodup_map hg hq hp hname
    have hi' : q.instrAt? id' = some i' := Procedure.mem_statements.mp hst
    rw [hi, Option.some.injEq] at hi'
    subst hi'
    exact ⟨arg, harg, List.mem_flatMap.mpr ⟨part, hpart, hy⟩⟩
  · rintro ⟨arg, harg, hx⟩
    obtain ⟨part, hpart, hx⟩ := List.mem_flatMap.mp hx
    exact ⟨Flow.ofScope ⟨p, g.library⟩, List.mem_map_of_mem hp, (id, i),
      Procedure.mem_statements.mpr hi, mem_ofStatement.mpr ⟨arg, harg, part, hpart, x, hx, rfl⟩⟩

/-- The points at a statement are the symbols of the arguments that it hands off. Of an argument
that is a call with known aliases, what is discovered beyond its sources is what flows into
arguments that the result does not alias and into nothing that it does; there is nothing of the kind
when every argument that brings a symbol is listed. -/
theorem library_call_given_up (g : Program) (hg : g.Distinct) (names : List String) {p : Procedure}
    (hp : p ∈ g.procedures) {id : StatementId} {i : Instr} (hi : p.instrAt? id = some i) :
    let c := Context.ofProgram g
    let s : Scope := ⟨p, g.library⟩
    let found := (HandOffPoint.discover c).run (.asked c names)
    (∀ x, ⟨x, id, p.name⟩ ∈ found.1 ↔
      ∃ arg ∈ ((HandOffPoint.handedOff c p i.action).run found.2).1, x ∈ s.handedSymbols arg) ∧
    ∀ (v : Invocation) (spec : LibrarySpec) (positions : List Int),
      g.library.callSpec v = some spec → spec.returnAliases = some positions →
      (∀ x, x ∈ s.handedSymbols (.call v.func v.args v.receiver) ∧ x ∉ s.callSources v ↔
        (∃ arg ∈ v.args, x ∈ s.flowing arg) ∧
        (∀ k ∈ positions, ∀ arg, pick? v.args k = some arg → x ∉ s.flowing arg) ∧
        (spec.returnFromReceiver = true → x ∉ s.flowingOpt v.receiver)) ∧
      ((∀ (k : Nat) (arg : Exp), v.args[k]? = some arg → (k : Int) ∉ positions →
          s.flowing arg = []) →
        s.handedSymbols (.call v.func v.args v.receiver) ⊆ s.callSources v) := by
  intro c s found
  have hbuilt := SummaryTable.built_asked (Context.coherent_ofProgram g) names
  refine ⟨fun x => HandOffPoint.mem_discover_iff_handed hg hbuilt hp hi, ?_⟩
  intro v spec positions hspec haliases
  have hspec : s.library.callSpec v = some spec := hspec
  exact ⟨fun x => Scope.handedSymbols_beyond hspec haliases,
    fun hlisted => Scope.handedSymbols_subset hspec haliases hlisted⟩

/-- Hands off the result of a call, with the standard library. -/
def handingResult (v : Invocation) : Program where
  procedures := [hander (.call v.func v.args v.receiver)]
  library := .standard

def resultScope (v : Invocation) : Scope := ⟨hander (.call v.func v.args v.receiver), .standard⟩

/-- An entry of a table in a field, or else another field. -/
def entryOr : Invocation :=
  ⟨.const (.text "get"), [.var "key", selfField "spare"], some (selfField "entries")⟩

/-- The fallback is given away, and so is the key, which the result does not alias. -/
theorem library_call_given_up_entryOr :
    let found := ((HandOffPoint.discover (.ofProgram (handingResult entryOr))).run []).1
    (⟨⟨"spare", .field, "A"⟩, ⟨"A.m", 0, 0⟩, "A.m"⟩ ∈ found ∧
      ⟨"spare", .field, "A"⟩ ∈ (resultScope entryOr).callSources entryOr) ∧
    ⟨⟨"key", .parameter, "A.m"⟩, ⟨"A.m", 0, 0⟩, "A.m"⟩ ∈ found ∧
      ⟨"key", .parameter, "A.m"⟩ ∉ (resultScope entryOr).callSources entryOr := by
  have hg : (handingResult entryOr).Distinct := by
    unfold Program.Distinct
    decide
  have hi : (hander (.call entryOr.func entryOr.args entryOr.receiver)).instrAt? ⟨"A.m", 0, 0⟩ =
      some (sendCall (.call entryOr.func entryOr.args entryOr.receiver)) := rfl
  obtain ⟨hpoints, hcalls⟩ :=
    library_call_given_up (handingResult entryOr) hg [] List.mem_cons_self hi
  have hkey := ((hcalls entryOr _ [1] rfl rfl).1 ⟨"key", .parameter, "A.m"⟩).mpr
    ⟨⟨.var "key", List.mem_cons_self, by decide +kernel⟩, by decide +kernel, by decide +kernel⟩
  refine ⟨⟨(hpoints _).mpr ⟨_, List.mem_cons_self, ?_⟩, by decide +kernel⟩,
    (hpoints _).mpr ⟨_, List.mem_cons_self, hkey.1⟩, hkey.2⟩
  decide +kernel

/-- The library says that the result of the call aliases nothing, and the field that it is made from
is given away all the same. -/
def GivenUpUnaliased (v : Invocation) : Prop :=
  (handingResult v).resolveCallee v (resultScope v).procedure = none ∧
    ((Library.standard.callSpec v).bind LibrarySpec.returnAliases) = some [] ∧
    (resultScope v).callSources v = [] ∧
    ⟨⟨"x", .field, "A"⟩, ⟨"A.m", 0, 0⟩, "A.m"⟩ ∈
      ((HandOffPoint.discover (.ofProgram (handingResult v))).run []).1

/-- A copy and a length. -/
theorem copy_given_up :
    GivenUpUnaliased ⟨.const (.text "deepcopy"), [selfField "x"], none⟩ ∧
      GivenUpUnaliased ⟨.const (.text "len"), [selfField "x"], none⟩ := by
  unfold GivenUpUnaliased
  refine ⟨⟨rfl, ?_, ?_, ?_⟩, rfl, ?_, ?_, ?_⟩
  all_goals decide +kernel

end ActorOwnership
