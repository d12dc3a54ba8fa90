import ActorOwnership.Proofs.Discovery
import ActorOwnership.Proofs.Recursion

/-! The order of requests, and the order of definitions, matter only where procedures call each
other: a summary and the hand-off points of a procedure depend on the member at which each group of
mutually recursive procedures is entered. -/

namespace ActorOwnership
set_option autoImplicit false

open SummaryTable (Built Requests SameEntries)

/-! ### Programs with the same procedures -/

/-- The two contexts know the same procedures, whatever their order. -/
structure Context.Alike (c d : Context) : Prop where
  find?_eq : ∀ name, c.program.find? name = d.program.find? name
  flow?_eq : ∀ name, c.flow? name = d.flow? name

namespace Context.Alike
variable {c d : Context} (h : c.Alike d)

include h

theorem resolveCallee_eq (v : Invocation) (p : Procedure) :
    c.program.resolveCallee v p = d.program.resolveCallee v p := by
  simp only [Program.resolveCallee, h.find?_eq]

theorem calleesOf_eq (f : Flow) : c.calleesOf f = d.calleesOf f := by
  simp only [calleesOf, callAt?, h.resolveCallee_eq]

theorem answer_eq (t : SummaryTable) : t.answer c = t.answer d := by
  funext name
  simp only [SummaryTable.answer, h.find?_eq]

theorem buildWith_eq (f : Flow) (answer : String → Summary) :
    Summary.buildWith c f answer = Summary.buildWith d f answer := by
  have hstep : Summary.gatherStep c f answer = Summary.gatherStep d f answer := by
    funext x st
    simp only [Summary.gatherStep, callAt?, h.resolveCallee_eq]
  have hresets : Summary.resetsWith c answer f = Summary.resetsWith d answer f := by
    funext x id
    simp only [Summary.resetsWith, selfCallee?, h.resolveCallee_eq]
  simp only [Summary.buildWith, hstep, hresets]

theorem requests {path names : List String} {t u : SummaryTable}
    (hrun : Requests c path t names u) : Requests d path t names u := by
  induction hrun with
  | done => exact .done
  | skip hq _ ih => exact .skip (by rwa [h.flow?_eq] at hq) ih
  | build hnone hq hflow _ _ ihsub ihrest =>
    rw [h.calleesOf_eq] at ihsub
    rw [h.buildWith_eq, h.answer_eq] at ihrest
    exact .build hnone hq (h.flow?_eq _ ▸ hflow) ihsub ihrest

theorem symm : d.Alike c := ⟨fun name => (h.find?_eq name).symm, fun name => (h.flow?_eq name).symm⟩

end Context.Alike

section Permuted
variable {g₁ g₂ : Program}

theorem Program.Distinct.perm (hg : g₁.Distinct) (hperm : g₁.procedures.Perm g₂.procedures) :
    g₂.Distinct :=
  (hperm.map Procedure.name).nodup_iff.mp hg

theorem Program.find?_of_perm (hg : g₁.Distinct) (hperm : g₁.procedures.Perm g₂.procedures)
    (name : String) : g₁.find? name = g₂.find? name := by
  cases hp : g₁.find? name with
  | some p =>
    have hmem := hperm.mem_iff.mp (List.mem_of_find?_eq_some hp)
    rw [← find?_name hp, find?_of_mem (hg.perm hperm) hmem]
  | none =>
    refine (List.find?_eq_none.mpr fun p hp' => ?_).symm
    exact List.find?_eq_none.mp hp p (hperm.mem_iff.mpr hp')

theorem Context.alike_of_perm (hg : g₁.Distinct) (hperm : g₁.procedures.Perm g₂.procedures)
    (hlibrary : g₁.library = g₂.library) : (ofProgram g₁).Alike (ofProgram g₂) where
  find?_eq := Program.find?_of_perm hg hperm
  flow?_eq name := by
    have hfind : (ofProgram g₁).program.find? name = (ofProgram g₂).program.find? name :=
      Program.find?_of_perm hg hperm name
    have hlib : (ofProgram g₁).program.library = (ofProgram g₂).program.library := hlibrary
    rw [coherent_ofProgram g₁ name, coherent_ofProgram g₂ name, hfind, hlib]

end Permuted

/-! ### Points -/

namespace HandOffPoint
variable {c d : Context}

theorem find?_of_request_keeps (hc : c.Coherent) {q : String} {p : Procedure}
    (hp : c.program.find? q = some p) {t : SummaryTable}
    (ht : ((SummaryTable.request c q).run t).2 = t) :
    t.find? q = some ((SummaryTable.request c q).run t).1 := by
  have hcontains := SummaryTable.contains_of_request hc hp t
  have hanswer := (SummaryTable.request_served hc q t).answers
  rw [ht] at hcontains hanswer
  obtain ⟨s, hs⟩ := SummaryTable.contains_iff.mp hcontains
  rw [hanswer, SummaryTable.answer_of_find? hs, hs]

/-- A statement gives away the same arguments by two tables that agree on its callees. -/
theorem handedOff_eq (hcd : c.Alike d) (hc : c.Coherent) (hd : d.Coherent) {f : Flow}
    {st : StatementId × Instr} (hst : st ∈ f.scope.procedure.statements) {t u : SummaryTable}
    (ht : ((handedOff c f.scope.procedure st.2.action).run t).2 = t)
    (hu : ((handedOff d f.scope.procedure st.2.action).run u).2 = u)
    (hagree : ∀ q ∈ c.calleesOf f, ∀ s s', t.find? q = some s → u.find? q = some s' → s = s') :
    ((handedOff c f.scope.procedure st.2.action).run t).1 =
      ((handedOff d f.scope.procedure st.2.action).run u).1 := by
  cases ha : st.2.action with
  | call ret v =>
    rw [ha] at ht hu
    have hresolve := hcd.resolveCallee_eq v f.scope.procedure
    cases hq : c.program.resolveCallee v f.scope.procedure with
    | none =>
      rw [hq] at hresolve
      simp only [handedOff, hq, ← hresolve]
      rfl
    | some q =>
      rw [hq] at hresolve
      have hcall : c.callAt? f st.2 = some (v, q) := by
        simp only [Context.callAt?, ha, Action.invocation?, Option.bind_some, hq, Option.map_some]
      simp only [handedOff, hq, ← hresolve, run_bind, run_pure] at ht hu ⊢
      have hp := Context.find?_self_of_callAt? hcall
      have hs := find?_of_request_keeps hc hp ht
      have hs' := find?_of_request_keeps hd (hcd.find?_eq _ ▸ hp) hu
      rw [hagree q.name (Context.name_mem_calleesOf hst hcall) _ _ hs hs']
  | _ => rfl

/-- Two discoveries find the same points in a procedure when they have entered the groups that it
leads to at the same members. -/
theorem mem_discover_iff (hcd : c.Alike d) (hc : c.Coherent) (hd : d.Coherent)
    (hflows : ∀ f, f ∈ c.flows ↔ f ∈ d.flows)
    (hknown : ∀ f ∈ c.flows, c.flow? f.scope.procedure.name = some f) {h : HandOffPoint}
    (hsame : SameEntries c ((discover c).run []).2 ((discover d).run []).2 h.procedure) :
    h ∈ ((discover c).run []).1 ↔ h ∈ ((discover d).run []).1 := by
  obtain ⟨names, hrun⟩ := (steady_discover hc).asks []
  obtain ⟨names', hrun'⟩ := (steady_discover hd).asks []
  have hequal : ∀ f ∈ c.flows, f.scope.procedure.name = h.procedure →
      ∀ st ∈ f.scope.procedure.statements,
        ((handedOff c f.scope.procedure st.2.action).run ((discover c).run []).2).1 =
          ((handedOff d f.scope.procedure st.2.action).run ((discover d).run []).2).1 := by
    intro f hf hname st hst
    refine handedOff_eq hcd hc hd hst (handedOff_keeps hc .empty hf hst)
      (handedOff_keeps hd .empty ((hflows f).mp hf) hst) ?_
    intro q hq s s' hs hs'
    -- what a callee leads to, the procedure leads to
    refine SummaryTable.eq_of_sameEntries hc hrun (hcd.symm.requests hrun') ?_ hs hs'
    have hcall : c.Calls h.procedure q := ⟨f, hname ▸ hknown f hf, hq⟩
    exact fun a e e' ha => hsame a e e' (.head hcall ha)
  rw [mem_discover hc .empty, mem_discover hd .empty]
  constructor
  · rintro ⟨f, hf, st, hst, hmem⟩
    obtain ⟨arg, harg, part, hpart, x, hx, rfl⟩ := mem_ofStatement.mp hmem
    rw [hequal f hf rfl st hst] at harg
    exact ⟨f, (hflows f).mp hf, st, hst, mem_ofStatement.mpr ⟨arg, harg, part, hpart, x, hx, rfl⟩⟩
  · rintro ⟨f, hf, st, hst, hmem⟩
    obtain ⟨arg, harg, part, hpart, x, hx, rfl⟩ := mem_ofStatement.mp hmem
    rw [← hequal f ((hflows f).mpr hf) rfl st hst] at harg
    exact ⟨f, (hflows f).mpr hf, st, hst,
      mem_ofStatement.mpr ⟨arg, harg, part, hpart, x, hx, rfl⟩⟩

end HandOffPoint

/-- What a procedure returns is the same in all tables. -/
theorem Summary.returned_eq {c d : Context} (hcd : c.Alike d) {t u : SummaryTable}
    (ht : Built c t) (hu : Built d u) {name : String} {s s' : Summary}
    (hs : t.find? name = some s) (hs' : u.find? name = some s') : s.returned = s'.returned := by
  obtain ⟨_, f, _, _, hflow, _, _, rfl⟩ := ht.entry hs
  obtain ⟨_, f', _, _, hflow', _, _, rfl⟩ := hu.entry hs'
  rw [hcd.flow?_eq, hflow', Option.some.injEq] at hflow
  rw [hflow, returned_buildWith, returned_buildWith]

/-- The order of requests and of definitions has no influence on what a procedure returns. On the
rest of its summary, and on the hand-off points in it, it has no other influence than through the
member at which each group of mutually recursive procedures that it leads to is entered. -/
theorem summaries_eq_of_sameEntries (g₁ g₂ : Program) (hg : g₁.Distinct)
    (hperm : g₁.procedures.Perm g₂.procedures) (hlibrary : g₁.library = g₂.library) :
    (∀ names₁ names₂ name s₁ s₂,
      (SummaryTable.asked (.ofProgram g₁) names₁).find? name = some s₁ →
      (SummaryTable.asked (.ofProgram g₂) names₂).find? name = some s₂ →
        s₁.returnedFields = s₂.returnedFields ∧ s₁.returnedParams = s₂.returnedParams ∧
        (SameEntries (.ofProgram g₁) (SummaryTable.asked (.ofProgram g₁) names₁)
          (SummaryTable.asked (.ofProgram g₂) names₂) name → s₁ = s₂)) ∧
    ∀ h : HandOffPoint,
      SameEntries (.ofProgram g₁) ((HandOffPoint.discover (.ofProgram g₁)).run []).2
        ((HandOffPoint.discover (.ofProgram g₂)).run []).2 h.procedure →
      (h ∈ ((HandOffPoint.discover (.ofProgram g₁)).run []).1 ↔
        h ∈ ((HandOffPoint.discover (.ofProgram g₂)).run []).1) := by
  have hc₁ := Context.coherent_ofProgram g₁
  have hc₂ := Context.coherent_ofProgram g₂
  have halike := Context.alike_of_perm hg hperm hlibrary
  refine ⟨?_, ?_⟩
  · intro names₁ names₂ name s₁ s₂ hs₁ hs₂
    have hreturned := Summary.returned_eq halike (SummaryTable.built_asked hc₁ names₁)
      (SummaryTable.built_asked hc₂ names₂) hs₁ hs₂
    simp only [Summary.returned, Prod.mk.injEq] at hreturned
    refine ⟨hreturned.2.1, hreturned.2.2, fun hsame => ?_⟩
    exact SummaryTable.eq_of_sameEntries hc₁ (SummaryTable.requests_asked hc₁ names₁)
      (halike.symm.requests (SummaryTable.requests_asked hc₂ names₂)) hsame hs₁ hs₂
  · intro h hsame
    refine HandOffPoint.mem_discover_iff halike hc₁ hc₂ ?_ ?_ hsame
    · intro f
      simp only [Context.ofProgram, List.mem_map, hperm.mem_iff, hlibrary]
    · exact fun f hf => Context.flow?_of_mem hg hf

/-! ### Two methods that call each other -/

def ping : Procedure :=
  methodOf "A.ping" ["x"] [{ id := 0, instrs := [selfCall "pong" [.var "x"]] }]

/-- Stores its argument in a field and gives it up. -/
def pong : Procedure :=
  methodOf "A.pong" ["y"]
    [{ id := 0
       instrs := [⟨.unknown, .store (selfField "f") (.var "y")⟩, sendCall (.var "y"),
        selfCall "ping" [.var "y"]] }]

def serve : Procedure :=
  methodOf "A.serve" ["z"] [{ id := 0, instrs := [selfCall "ping" [.var "z"]] }]

def service : Program := { procedures := [ping, pong, serve] }

section Service

theorem calleesOf_service (p : Procedure) :
    (Context.ofProgram service).calleesOf (Flow.ofScope ⟨p, []⟩) =
      p.statements.filterMap fun x => (x.2.action.invocation?.bind fun v =>
        (service.resolveCallee v p).map fun q => (v, q)).map fun y => y.2.name :=
  rfl

theorem calleesOf_ping :
    (Context.ofProgram service).calleesOf (Flow.ofScope ⟨ping, []⟩) = ["A.pong"] := by
  rw [calleesOf_service]
  decide +kernel

theorem calleesOf_pong :
    (Context.ofProgram service).calleesOf (Flow.ofScope ⟨pong, []⟩) = ["A.ping"] := by
  rw [calleesOf_service]
  decide +kernel

theorem mutual_ping_pong : (Context.ofProgram service).Mutual "A.ping" "A.pong" :=
  ⟨.single ⟨_, rfl, calleesOf_ping ▸ List.mem_singleton.mpr rfl⟩,
    .single ⟨_, rfl, calleesOf_pong ▸ List.mem_singleton.mpr rfl⟩⟩

theorem eq_of_reaches_ping {a : String} (h : (Context.ofProgram service).Reaches "A.ping" a) :
    a = "A.ping" ∨ a = "A.pong" := by
  induction h with
  | refl => exact Or.inl rfl
  | tail _ hcall ih =>
    obtain ⟨f, hflow, hmem⟩ := hcall
    rcases ih with rfl | rfl
    · obtain rfl : Flow.ofScope ⟨ping, []⟩ = f := Option.some.inj hflow
      rw [calleesOf_ping] at hmem
      exact Or.inr (List.mem_singleton.mp hmem)
    · obtain rfl : Flow.ofScope ⟨pong, []⟩ = f := Option.some.inj hflow
      rw [calleesOf_pong] at hmem
      exact Or.inl (List.mem_singleton.mp hmem)

/-- The names in a table show at which of the two methods their group was entered. -/
theorem eq_of_enteredAt_service {t : SummaryTable} {before after : List String} {q a e : String}
    (hnames : t.map Summary.procedure = before ++ q :: after)
    (hq : (Context.ofProgram service).Mutual "A.ping" q) (hping : "A.ping" ∉ after)
    (hpong : "A.pong" ∉ after) (ha : (Context.ofProgram service).Reaches "A.ping" a)
    (he : t.EnteredAt (.ofProgram service) a e) : e = q := by
  have hgroup : (Context.ofProgram service).Mutual "A.ping" a := by
    rcases eq_of_reaches_ping ha with rfl | rfl
    · exact ⟨.refl, .refl⟩
    · exact mutual_ping_pong
  refine he.unique ⟨before, after, hnames, hgroup.symm.trans hq, ?_⟩
  intro x hx hmutual
  rcases eq_of_reaches_ping (hgroup.trans hmutual).1 with rfl | rfl
  · exact hping hx
  · exact hpong hx

end Service

/-- `ping` has the same summary when it is asked for by itself and when it is asked for by a caller,
and its points stay when the later definitions change places. -/
theorem summaries_eq_service :
    (∃ s, (SummaryTable.asked (.ofProgram service) ["A.ping"]).find? "A.ping" = some s ∧
      (SummaryTable.asked (.ofProgram { procedures := [ping, serve, pong] })
        ["A.serve"]).find? "A.ping" = some s) ∧
    ⟨⟨"x", .parameter, "A.ping"⟩, ⟨"A.ping", 0, 0⟩, "A.ping"⟩ ∈ ((HandOffPoint.discover
      (.ofProgram { procedures := [ping, serve, pong] })).run []).1 := by
  let g : Program := { procedures := [ping, serve, pong] }
  have hdistinct : service.Distinct := by
    unfold Program.Distinct
    decide
  have hperm : service.procedures.Perm g.procedures := .cons ping (.swap serve pong [])
  have hself : (Context.ofProgram service).Mutual "A.ping" "A.ping" := ⟨.refl, .refl⟩
  obtain ⟨hsummaries, hpoints⟩ := summaries_eq_of_sameEntries service g hdistinct hperm rfl
  constructor
  · have hnames₁ : (SummaryTable.asked (.ofProgram service) ["A.ping"]).map Summary.procedure =
        ["A.pong"] ++ "A.ping" :: [] := by decide +kernel
    have hnames₂ : (SummaryTable.asked (.ofProgram g) ["A.serve"]).map Summary.procedure =
        ["A.pong"] ++ "A.ping" :: ["A.serve"] := by decide +kernel
    have hin₁ : (SummaryTable.asked (.ofProgram service) ["A.ping"]).contains "A.ping" = true := by
      rw [SummaryTable.contains_iff_mem, hnames₁]
      decide
    have hin₂ : (SummaryTable.asked (.ofProgram g) ["A.serve"]).contains "A.ping" = true := by
      rw [SummaryTable.contains_iff_mem, hnames₂]
      decide
    obtain ⟨s₁, hs₁⟩ := SummaryTable.contains_iff.mp hin₁
    obtain ⟨s₂, hs₂⟩ := SummaryTable.contains_iff.mp hin₂
    have heq : s₁ = s₂ := by
      refine (hsummaries _ _ "A.ping" s₁ s₂ hs₁ hs₂).2.2 fun a e e' ha he he' => ?_
      rw [eq_of_enteredAt_service hnames₁ hself (by decide) (by decide) ha he,
        eq_of_enteredAt_service hnames₂ hself (by decide) (by decide) ha he']
    exact ⟨s₁, hs₁, heq ▸ hs₂⟩
  · have hnames₁ : ((HandOffPoint.discover (.ofProgram service)).run []).2.map
        Summary.procedure = ["A.ping"] ++ "A.pong" :: [] := by decide +kernel
    have hnames₂ : ((HandOffPoint.discover (.ofProgram g)).run []).2.map
        Summary.procedure = ["A.ping"] ++ "A.pong" :: [] := by decide +kernel
    have hfound : ((HandOffPoint.discover (.ofProgram service)).run []).1 =
        [⟨⟨"x", .parameter, "A.ping"⟩, ⟨"A.ping", 0, 0⟩, "A.ping"⟩,
          ⟨⟨"y", .parameter, "A.pong"⟩, ⟨"A.pong", 0, 1⟩, "A.pong"⟩] := by decide +kernel
    refine (hpoints _ fun a e e' ha he he' => ?_).mp (hfound ▸ List.mem_cons_self)
    rw [eq_of_enteredAt_service hnames₁ mutual_ping_pong (by decide) (by decide) ha he,
      eq_of_enteredAt_service hnames₂ mutual_ping_pong (by decide) (by decide) ha he']

/-- The summary of `ping` is empty if `pong` is asked for first. The points change with the order of
the definitions, too. -/
theorem order_matters_ping_pong :
    ((SummaryTable.asked (.ofProgram { procedures := [ping, pong] }) ["A.ping"]).find?
      "A.ping").map (fun s => (s.stores, s.givenUpParams, s.resets)) =
        some ([(⟨"f", .field, "A"⟩, [0])], [0], [⟨"f", .field, "A"⟩]) ∧
    ((SummaryTable.asked (.ofProgram { procedures := [ping, pong] }) ["A.pong"]).find?
      "A.ping").map (fun s => (s.stores, s.givenUpParams, s.resets)) = some ([], [], []) ∧
    ((HandOffPoint.discover (.ofProgram { procedures := [ping, pong] })).run []).1.map
      HandOffPoint.statement = [⟨"A.ping", 0, 0⟩, ⟨"A.pong", 0, 1⟩] ∧
    ((HandOffPoint.discover (.ofProgram { procedures := [pong, ping] })).run []).1.map
      HandOffPoint.statement = [⟨"A.pong", 0, 1⟩, ⟨"A.pong", 0, 2⟩, ⟨"A.ping", 0, 0⟩] :=
  ⟨by decide +kernel, by decide +kernel, by decide +kernel, by decide +kernel⟩

end ActorOwnership
