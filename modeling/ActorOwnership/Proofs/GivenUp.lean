import ActorOwnership.Proofs.Chain
import ActorOwnership.Proofs.HandOff

/-! What a hand-off gives away. Of an argument that is a call, discovery and summaries follow the
arguments of the call, as for the parts of a message that is made on the spot. All that flows into
the argument is covered in this way, except for what comes only from the object that the call is
on. -/

namespace ActorOwnership
set_option autoImplicit false

open SummaryTable (Built)

/-- The expression is a call on an object that has the property, and none of its arguments has. -/
def Exp.OnlyReceiver (has : Exp → Prop) (e : Exp) : Prop :=
  ∃ func args receiver, e = .call func args (some receiver) ∧ has receiver ∧ ∀ arg ∈ args, ¬ has arg

namespace Summary

/-- A property that a call can only have from its arguments and its object goes over to a part, unless
it comes from the object alone. -/
theorem handedParts_cover {has : Exp → Prop}
    (hcall : ∀ func args receiver, has (.call func args receiver) →
      (∃ arg ∈ args, has arg) ∨ ∃ r, receiver = some r ∧ has r) {e : Exp} (he : has e) :
    (∃ part ∈ handedParts e, has part) ∨ e.OnlyReceiver has := by
  cases e with
  | call func args receiver =>
    by_cases hargs : ∃ arg ∈ args, has arg
    · exact Or.inl hargs
    · right
      obtain ⟨r, rfl, hr⟩ := (hcall func args receiver he).resolve_left hargs
      exact ⟨func, args, r, rfl, hr, fun arg harg h => hargs ⟨arg, harg, h⟩⟩
  | _ => exact Or.inl ⟨_, List.mem_singleton.mpr rfl, he⟩

end Summary

theorem Scope.flowing_call {s : Scope} {func : Exp} {args : List Exp} {receiver : Option Exp}
    {x : Symbol} (h : x ∈ s.flowing (.call func args receiver)) :
    (∃ arg ∈ args, x ∈ s.flowing arg) ∨ ∃ r, receiver = some r ∧ x ∈ s.flowing r := by
  rw [flowing, flowingAll_eq_map] at h
  rcases mem_resultSources h with ⟨xs, hxs, hx⟩ | hx
  · obtain ⟨arg, harg, rfl⟩ := List.mem_map.mp hxs
    exact Or.inl ⟨arg, harg, hx⟩
  · cases receiver with
    | none => simp [flowingOpt] at hx
    | some r =>
      rw [flowingOpt] at hx
      exact Or.inr ⟨r, rfl, hx⟩

theorem Flow.hasIncoming_call {f : Flow} {id : StatementId} {k : Nat} {func : Exp}
    {args : List Exp} {receiver : Option Exp}
    (h : f.HasIncoming (f.valueSetOf (.call func args receiver) id) k) :
    (∃ arg ∈ args, f.HasIncoming (f.valueSetOf arg id) k) ∨
      ∃ r, receiver = some r ∧ f.HasIncoming (f.valueSetOf r id) k := by
  obtain ⟨name, hname, hmem⟩ := h
  obtain ⟨x, hx, hd⟩ := mem_valueSetOf.mp hmem
  rcases Scope.flowing_call hx with ⟨arg, harg, hx⟩ | ⟨r, hr, hx⟩
  · exact Or.inl ⟨arg, harg, name, hname, mem_valueSetOf.mpr ⟨x, hx, hd⟩⟩
  · exact Or.inr ⟨r, hr, name, hname, mem_valueSetOf.mpr ⟨x, hx, hd⟩⟩

/-- The summary of a procedure is made from its own statements, whatever the table has of the
others. -/
theorem SummaryTable.request_buildWith {g : Program} {p : Procedure}
    (hp : g.find? p.name = some p) {t : SummaryTable} (ht : Built (.ofProgram g) t) :
    ∃ answer, ((request (.ofProgram g) p.name).run t).1 =
      Summary.buildWith (.ofProgram g) (.ofScope ⟨p, g.library⟩) answer := by
  have hc := Context.coherent_ofProgram g
  have hserved := request_served hc p.name t
  have hcontains : ((request (.ofProgram g) p.name).run t).2.contains p.name = true :=
    contains_of_request hc hp t
  obtain ⟨s, hs⟩ := contains_iff.mp hcontains
  obtain ⟨u, flow, _, _, hflow, _, _, hbuilt⟩ :=
    (hserved.requests.built_outside hc ht).entry hs
  rw [hc.flow?_eq_some.mpr ⟨p, hp, rfl⟩, Option.some.injEq] at hflow
  refine ⟨u.answer (.ofProgram g), ?_⟩
  rw [hserved.answers, answer_of_find? hs, hbuilt, ← hflow]
  rfl

theorem Summary.mem_givenUpParams_of_part {g : Program} {p : Procedure}
    (hp : g.find? p.name = some p) {t : SummaryTable} (ht : Built (.ofProgram g) t)
    {id : StatementId} {i : Instr} (hi : p.instrAt? id = some i) {arg part : Exp}
    (harg : arg ∈ i.action.givenUpArgs) (hpart : part ∈ handedParts arg) {k : Nat}
    (hk : (Flow.ofScope ⟨p, g.library⟩).HasIncoming
      ((Flow.ofScope ⟨p, g.library⟩).valueSetOf part id) k) :
    k ∈ ((SummaryTable.request (.ofProgram g) p.name).run t).1.givenUpParams := by
  obtain ⟨answer, hanswer⟩ := SummaryTable.request_buildWith hp ht
  rw [hanswer]
  apply (spreads_givenUp.buildWith_iff ⟨p, g.library⟩ answer k).mpr
  refine ⟨(id, i), Procedure.mem_statements.mpr hi, Or.inl ⟨part, ?_, hk⟩⟩
  exact List.mem_flatMap.mpr ⟨arg, harg, hpart⟩

/-- All that flows into an argument that is handed off is discovered at the statement, and all
positions whose values it may hold are summarised as given up, except for what a call has only from
the object that it is on. -/
theorem givenUp_covered (g : Program) (names : List String) {p : Procedure}
    (hp : g.find? p.name = some p) {id : StatementId} {i : Instr} (hi : p.instrAt? id = some i)
    {e : Exp} (he : e ∈ i.action.givenUpArgs) :
    (∀ x ∈ (⟨p, g.library⟩ : Scope).flowing e,
      ⟨x, id, p.name⟩ ∈
          ((HandOffPoint.discover (.ofProgram g)).run (.asked (.ofProgram g) names)).1 ∨
        e.OnlyReceiver fun r => x ∈ (⟨p, g.library⟩ : Scope).flowing r) ∧
    (∀ k, (Flow.ofScope ⟨p, g.library⟩).HasIncoming
        ((Flow.ofScope ⟨p, g.library⟩).valueSetOf e id) k →
      k ∈ ((SummaryTable.request (.ofProgram g) p.name).run
          (.asked (.ofProgram g) names)).1.givenUpParams ∨
        e.OnlyReceiver fun r => (Flow.ofScope ⟨p, g.library⟩).HasIncoming
          ((Flow.ofScope ⟨p, g.library⟩).valueSetOf r id) k) := by
  have hbuilt := SummaryTable.built_asked (Context.coherent_ofProgram g) names
  constructor
  · intro x hx
    refine (Summary.handedParts_cover (fun _ _ _ => Scope.flowing_call) hx).imp_left ?_
    rintro ⟨part, hpart, hx⟩
    exact HandOffPoint.mem_discover_of_part (List.mem_of_find?_eq_some hp) hbuilt hi he hpart hx
  · intro k hk
    refine (Summary.handedParts_cover (fun _ _ _ => Flow.hasIncoming_call) hk).imp_left ?_
    rintro ⟨part, hpart, hk⟩
    exact Summary.mem_givenUpParams_of_part hp hbuilt hi he hpart hk

/-- Hands off the value. -/
def hander (value : Exp) : Procedure :=
  methodOf "A.m" ["table", "key"] [{ id := 0, instrs := [sendCall value] }]

def handing (value : Exp) : Program where
  procedures := [hander value]

def popped : Exp := .call (.const (.text "pop")) [] (some (selfField "buffer"))

def lookedUp : Exp := .call (.const (.text "get")) [.var "key"] (some (.var "table"))

/-- A message made on the spot. -/
def packed : Exp := .call (.const (.text "Ping")) [lookedUp, popped] none

/-- Below the message the objects of calls are covered, be it a field or a parameter. -/
theorem givenUp_covered_packed :
    ⟨⟨"buffer", .field, "A"⟩, ⟨"A.m", 0, 0⟩, "A.m"⟩ ∈
      ((HandOffPoint.discover (.ofProgram (handing packed))).run []).1 ∧
    0 ∈ ((SummaryTable.request (.ofProgram (handing packed)) "A.m").run []).1.givenUpParams := by
  have hi : (hander packed).instrAt? ⟨"A.m", 0, 0⟩ = some (sendCall packed) := rfl
  have he : packed ∈ (sendCall packed).action.givenUpArgs := List.mem_cons_self
  obtain ⟨hpoints, hpositions⟩ := givenUp_covered (handing packed) [] rfl hi he
  have hown : ∀ {has : Exp → Prop}, ¬ packed.OnlyReceiver has := by
    rintro has ⟨func, args, receiver, heq, _⟩
    cases heq
  constructor
  · exact (hpoints ⟨"buffer", .field, "A"⟩ (by decide +kernel)).resolve_right hown
  · exact (hpositions 0 ⟨"table", rfl, by decide +kernel⟩).resolve_right hown

/-- The last of a list in a field, and an element of a table that comes in, are handed off without a
point and without a position for the object they are taken from. -/
theorem receiver_missed :
    ⟨"buffer", .field, "A"⟩ ∈ (⟨hander popped, []⟩ : Scope).flowing popped ∧
    ((HandOffPoint.discover (.ofProgram (handing popped))).run []).1 = [] ∧
    (∃ f, (Context.ofProgram (handing lookedUp)).flow? "A.m" = some f ∧
      f.HasIncoming (f.valueSetOf lookedUp ⟨"A.m", 0, 0⟩) 0) ∧
    ((SummaryTable.request (.ofProgram (handing lookedUp)) "A.m").run []).1.givenUpParams =
      [1] := by
  refine ⟨by decide +kernel, by decide +kernel, ⟨_, rfl, "table", rfl, ?_⟩, by decide +kernel⟩
  decide +kernel

end ActorOwnership
