import Mathlib.Data.List.Nodup
import ActorOwnership.Proofs.Sweep
import ActorOwnership.Scan.Analysis

/-! From hand-off points to findings. Every point lies in its procedure, so every sweep ends without
an error, and each reported violation leads to a finding with its symbol and its place. -/

namespace ActorOwnership
set_option autoImplicit false

open SummaryTable (Built)

/-! ### Points -/

namespace HandOffPoint
variable {c : Context}

theorem steady_handedOff (hc : c.Coherent) (p : Procedure) (a : Action) :
    Steady c (handedOff c p a) := by
  unfold handedOff
  split
  · exact .of_pure _
  · split
    · exact .of_pure _
    · exact (Steady.request hc _).bind fun _ => .of_pure _
  · exact .of_pure _

theorem steady_ofStatement (hc : c.Coherent) (f : Flow) (st : StatementId × Instr) :
    Steady c (ofStatement c f st) :=
  (steady_handedOff hc _ _).bind fun _ => .of_pure _

theorem steady_ofStatements (hc : c.Coherent) (sts : List (Flow × StatementId × Instr)) :
    Steady c (ofStatements c sts) := by
  induction sts with
  | nil => exact .of_pure _
  | cons st sts ih =>
    exact (steady_ofStatement hc st.1 st.2).bind fun _ => ih.bind fun _ => .of_pure _

theorem steady_discover (hc : c.Coherent) : Steady c (discover c) :=
  (steady_ofStatements hc _).bind fun _ => .of_pure _

/-- All points can be read off the final table, whatever the table was when they were found. Nothing
is left to be asked there. -/
theorem ofStatements_run (hc : c.Coherent) (sts : List (Flow × StatementId × Instr))
    {t u : SummaryTable} (hu : Built c u) (hearlier : ((ofStatements c sts).run t).2 <+: u) :
    ((ofStatements c sts).run t).1 = (sts.flatMap fun x => ((ofStatement c x.1 x.2).run u).1) ∧
      ∀ x ∈ sts, ((ofStatement c x.1 x.2).run u).2 = u := by
  induction sts generalizing t with
  | nil => exact ⟨rfl, List.forall_mem_nil _⟩
  | cons st sts ih =>
    have hrun : (ofStatements c (st :: sts)).run t =
        let r := (ofStatement c st.1 st.2).run t
        let q := (ofStatements c sts).run r.2
        (r.1 ++ q.1, q.2) := rfl
    rw [hrun] at hearlier ⊢
    have hfirst := (steady_ofStatement hc st.1 st.2).repeats t u hu
      (((steady_ofStatements hc sts).grows _).trans hearlier)
    obtain ⟨hpoints, hkeep⟩ := ih hearlier
    refine ⟨?_, List.forall_mem_cons.mpr ⟨by rw [hfirst], hkeep⟩⟩
    rw [List.flatMap_cons, hfirst]
    exact congrArg _ hpoints

theorem mem_discover (hc : c.Coherent) {t : SummaryTable} (ht : Built c t) {h : HandOffPoint} :
    h ∈ ((discover c).run t).1 ↔ ∃ f ∈ c.flows, ∃ st ∈ f.scope.procedure.statements,
      h ∈ ((ofStatement c f st).run ((discover c).run t).2).1 := by
  have hrun : ((discover c).run t).2 = ((ofStatements c
      (c.flows.flatMap fun f => f.scope.procedure.statements.map fun s => (f, s))).run t).2 := rfl
  have hpoints : ((discover c).run t).1 = distinct ((ofStatements c
      (c.flows.flatMap fun f => f.scope.procedure.statements.map fun s => (f, s))).run t).1 := rfl
  rw [hpoints, mem_distinct, (ofStatements_run hc _ ((steady_discover hc).built hc ht)
    (hrun ▸ List.prefix_rfl)).1, List.mem_flatMap]
  constructor
  · rintro ⟨x, hx, hmem⟩
    obtain ⟨f, hf, hx⟩ := List.mem_flatMap.mp hx
    obtain ⟨st, hst, rfl⟩ := List.mem_map.mp hx
    exact ⟨f, hf, st, hst, hmem⟩
  · rintro ⟨f, hf, st, hst, hmem⟩
    exact ⟨(f, st), List.mem_flatMap.mpr ⟨f, hf, List.mem_map_of_mem hst⟩, hmem⟩

theorem handedOff_keeps (hc : c.Coherent) {t : SummaryTable} (ht : Built c t) {f : Flow}
    (hf : f ∈ c.flows) {st : StatementId × Instr} (hst : st ∈ f.scope.procedure.statements) :
    ((handedOff c f.scope.procedure st.2.action).run ((discover c).run t).2).2 =
      ((discover c).run t).2 :=
  (ofStatements_run hc _ ((steady_discover hc).built hc ht) List.prefix_rfl).2 (f, st)
    (List.mem_flatMap.mpr ⟨f, hf, List.mem_map_of_mem hst⟩)

theorem mem_ofStatement {f : Flow} {st : StatementId × Instr} {u : SummaryTable}
    {h : HandOffPoint} : h ∈ ((ofStatement c f st).run u).1 ↔
      ∃ arg ∈ ((handedOff c f.scope.procedure st.2.action).run u).1,
        ∃ part ∈ Summary.handedParts arg, ∃ x ∈ f.scope.flowing part,
          (⟨x, st.1, f.scope.procedure.name⟩ : HandOffPoint) = h := by
  have hrun : ((ofStatement c f st).run u).1 =
      (((handedOff c f.scope.procedure st.2.action).run u).1.flatMap Summary.handedParts).flatMap
        fun part => (f.scope.flowing part).map fun x => ⟨x, st.1, f.scope.procedure.name⟩ := rfl
  rw [hrun]
  simp only [List.mem_flatMap, List.mem_map]
  constructor
  · rintro ⟨part, ⟨arg, harg, hpart⟩, hx⟩
    exact ⟨arg, harg, part, hpart, hx⟩
  · rintro ⟨arg, harg, part, hpart, hx⟩
    exact ⟨part, ⟨arg, harg, hpart⟩, hx⟩

/-- Where a point lies: its procedure is known, and has its statement. -/
def Placed (c : Context) (h : HandOffPoint) : Prop :=
  ∃ f, c.flow? h.procedure = some f ∧ f.scope.procedure.contains h.statement = true

theorem placed_of_discovered (hc : c.Coherent)
    (hflows : ∀ f ∈ c.flows, c.flow? f.scope.procedure.name = some f) {t : SummaryTable}
    (ht : Built c t) {h : HandOffPoint} (hh : h ∈ ((discover c).run t).1) : h.Placed c := by
  obtain ⟨f, hf, st, hst, hmem⟩ := (mem_discover hc ht).mp hh
  obtain ⟨_, _, _, _, _, _, rfl⟩ := mem_ofStatement.mp hmem
  exact ⟨f, hflows f hf, Procedure.contains_iff.mpr ⟨st.2, Procedure.mem_statements.mp hst⟩⟩

end HandOffPoint

theorem Location.render_ne_empty (l : Location) : l.render ≠ "" := by
  intro h
  have hlen := congrArg String.length h
  unfold Location.render at hlen
  split at hlen <;> simp [String.length_append] at hlen

/-! ### The first of each key -/

/-- The first entry of each key, in order. The keys that were seen before are left out. -/
structure FirstOfEach {α κ : Type} [DecidableEq κ] (key : α → κ) (seen : List κ)
    (kept all : List α) : Prop where
  sublist : kept.Sublist all
  nodup : (kept.map key).Nodup
  unseen : ∀ x ∈ kept, key x ∉ seen
  covers : ∀ x ∈ all, key x ∈ seen ∨ key x ∈ kept.map key
  first : ∀ x ∈ kept, all.find? (fun y => key y = key x) = some x

namespace FirstOfEach
variable {α κ : Type} [DecidableEq κ] {key : α → κ} {seen : List κ} {kept all : List α} {x : α}

theorem nil : FirstOfEach key seen [] [] where
  sublist := .slnil
  nodup := List.nodup_nil
  unseen := List.forall_mem_nil _
  covers := List.forall_mem_nil _
  first := List.forall_mem_nil _

theorem skip (h : FirstOfEach key seen kept all) (hx : key x ∈ seen) :
    FirstOfEach key seen kept (x :: all) where
  sublist := h.sublist.cons x
  nodup := h.nodup
  unseen := h.unseen
  covers := List.forall_mem_cons.mpr ⟨Or.inl hx, h.covers⟩
  first := by
    intro y hy
    have hne : key x ≠ key y := fun heq => h.unseen y hy (heq ▸ hx)
    rw [List.find?_cons_of_neg (by simpa using hne)]
    exact h.first y hy

theorem keep (h : FirstOfEach key (key x :: seen) kept all) (hx : key x ∉ seen) :
    FirstOfEach key seen (x :: kept) (x :: all) where
  sublist := h.sublist.cons_cons x
  nodup := by
    rw [List.map_cons, List.nodup_cons]
    refine ⟨?_, h.nodup⟩
    intro hmem
    obtain ⟨y, hy, heq⟩ := List.mem_map.mp hmem
    exact h.unseen y hy (heq ▸ List.mem_cons_self)
  unseen := by
    intro y hy
    rcases List.mem_cons.mp hy with rfl | hy
    · exact hx
    · exact fun hseen => h.unseen y hy (List.mem_cons_of_mem _ hseen)
  covers := by
    intro y hy
    rw [List.map_cons, List.mem_cons]
    rcases List.mem_cons.mp hy with rfl | hy
    · exact Or.inr (Or.inl rfl)
    · rcases h.covers y hy with hseen | hkept
      · rcases List.mem_cons.mp hseen with heq | hseen
        · exact Or.inr (Or.inl heq)
        · exact Or.inl hseen
      · exact Or.inr (Or.inr hkept)
  first := by
    intro y hy
    rcases List.mem_cons.mp hy with rfl | hy
    · exact List.find?_cons_of_pos (by simp)
    · have hne : key x ≠ key y := fun heq => h.unseen y hy (heq ▸ List.mem_cons_self)
      rw [List.find?_cons_of_neg (by simpa using hne)]
      exact h.first y hy

theorem mem_keys (h : FirstOfEach key [] kept all) {k : κ} :
    k ∈ kept.map key ↔ k ∈ all.map key := by
  constructor
  · exact fun hk => List.map_subset key h.sublist.subset hk
  · intro hk
    obtain ⟨y, hy, rfl⟩ := List.mem_map.mp hk
    exact (h.covers y hy).resolve_left List.not_mem_nil

end FirstOfEach

/-! ### Outcomes -/

namespace Outcome
variable {c : Context}

/-- The outcome of a sweep that ended without an error, on a table within `u`. -/
def Done (c : Context) (u : SummaryTable) (o : Outcome) : Prop :=
  ∃ f s s', c.flow? o.point.procedure = some f ∧ o.result = .ok s'.violations ∧
    Sweep.Swept ⟨c, .givesUp, o.point, f⟩ (o.point.initialTrace f.scope.procedure) s s' ∧
    s'.table <+: u

theorem run_placed (hc : c.Coherent) {h : HandOffPoint} (hh : h.Placed c) {t : SummaryTable}
    (ht : Built c t) :
    ∃ f ids s', h.run c .givesUp none t = (.ok (s'.violations, ids), s') ∧
      c.flow? h.procedure = some f ∧ Sweep.Swept ⟨c, .givesUp, h, f⟩
        (h.initialTrace f.scope.procedure) { table := t } s' := by
  obtain ⟨f, hflow, hmem⟩ := hh
  have hsweep : h.sweep c .givesUp = .ok ⟨c, .givesUp, h, f⟩ := by
    simp only [HandOffPoint.sweep, hflow, hmem, if_true]
  have hsound : Sweep.Sound ⟨c, .givesUp, h, f⟩ { table := t } := ⟨ht, by simp⟩
  obtain ⟨ids, s', hrun, hswept⟩ :=
    Sweep.perform_run hc rfl (h.initialTrace f.scope.procedure) hsound
  refine ⟨f, ids, s', ?_, hflow, hswept⟩
  simp only [HandOffPoint.run, hsweep, Option.getD_none]
  exact hrun

theorem ofPoints_run (hc : c.Coherent) {hs : List HandOffPoint} (hplaced : ∀ h ∈ hs, h.Placed c)
    {t : SummaryTable} (ht : Built c t) :
    let r := (ofPoints c .givesUp hs).run t
    t <+: r.2 ∧ Built c r.2 ∧ r.1.map Outcome.point = hs ∧ ∀ o ∈ r.1, Done c r.2 o := by
  induction hs generalizing t with
  | nil => exact ⟨List.prefix_rfl, ht, rfl, fun o ho => absurd ho List.not_mem_nil⟩
  | cons h hs ih =>
    obtain ⟨f, ids, s', hrun, hflow, hswept⟩ :=
      run_placed hc (hplaced h List.mem_cons_self) ht
    obtain ⟨hgrow, hbuilt, hpoints, hdone⟩ :=
      ih (fun x hx => hplaced x (List.mem_cons_of_mem h hx)) hswept.sound.built
    have hstep : (ofPoints c .givesUp (h :: hs)).run t =
        let r := (ofPoints c .givesUp hs).run s'.table
        (⟨h, s'.violations, .ok s'.violations⟩ :: r.1, r.2) := by
      rw [ofPoints, run_bind, run_get]
      simp only [hrun]
      rfl
    simp only [hstep]
    refine ⟨hswept.extends_.table.trans hgrow, hbuilt, ?_, ?_⟩
    · rw [List.map_cons, hpoints]
    · intro o ho
      rcases List.mem_cons.mp ho with rfl | ho
      · exact ⟨f, _, s', hflow, rfl, hswept, hgrow⟩
      · exact hdone o ho

/-! ### Findings -/

/-- Every violation with the point that it was found for, in the order of the points. -/
def reports (os : List Outcome) : List (HandOffPoint × Violation) :=
  os.flatMap fun o => o.violations.map fun v => (o.point, v)

theorem firstOfKeys_firstOfEach (xs : List (HandOffPoint × Violation))
    (seen : List (Symbol × String)) :
    FirstOfEach (fun x => x.2.key) seen (firstOfKeys xs seen) xs := by
  induction xs generalizing seen with
  | nil => exact .nil
  | cons x xs ih =>
    obtain ⟨h, v⟩ := x
    unfold firstOfKeys
    split
    · rename_i hv
      exact (ih seen).skip (List.contains_iff_mem.mp hv)
    · rename_i hv
      exact (ih (v.key :: seen)).keep fun hmem => hv (List.contains_iff_mem.mpr hmem)

theorem found_firstOfEach (os : List Outcome) :
    FirstOfEach (fun x => x.2.key) [] (found os) (reports os) :=
  firstOfKeys_firstOfEach _ _

/-- A reported violation leads to a finding, perhaps another one's, with its symbol at its place. -/
theorem exists_finding {g : Program} {os : List Outcome} {o : Outcome} (ho : o ∈ os)
    {vs : List Violation} (hresult : o.result = .ok vs) {v : Violation} (hv : v ∈ vs)
    {loc : Location} (hloc : v.trace.location? = some loc) :
    ∃ fd ∈ findings g os, fd.symbol = v.symbol.render ∧ fd.location = loc.render := by
  have hmem : (o.point, v) ∈ reports os := by
    refine List.mem_flatMap.mpr ⟨o, ho, List.mem_map_of_mem ?_⟩
    simpa only [violations, hresult] using hv
  obtain ⟨⟨h, v'⟩, hfound, hkey⟩ := List.mem_map.mp
    ((found_firstOfEach os).mem_keys.mpr (List.mem_map_of_mem hmem))
  refine ⟨Finding.ofViolation (g.find? h.procedure) h v', ?_, ?_⟩
  · exact List.mem_mergeSort.mpr (List.mem_map.mpr ⟨_, hfound, rfl⟩)
  · -- the finding that is kept has the same key: a place that is not known has the empty text
    simp only [Violation.key, hloc, Prod.mk.injEq, Option.map_some, Option.getD_some] at hkey
    refine ⟨congrArg Symbol.render hkey.1, ?_⟩
    cases hplace : v'.trace.location? with
    | none =>
      rw [hplace] at hkey
      exact absurd hkey.2.symm (Location.render_ne_empty loc)
    | some loc' =>
      rw [hplace] at hkey
      simpa [Finding.ofViolation, hplace] using hkey.2

end Outcome

/-! ### The analysis of a program -/

/-- No two procedures share a name. -/
def Program.Distinct (g : Program) : Prop := (g.procedures.map Procedure.name).Nodup

theorem Program.find?_of_mem {g : Program} (hg : g.Distinct) {p : Procedure}
    (hp : p ∈ g.procedures) : g.find? p.name = some p := by
  cases hq : g.find? p.name with
  | none =>
    have := List.find?_eq_none.mp hq p hp
    simp at this
  | some q =>
    have hmem := List.mem_of_find?_eq_some hq
    have hname := find?_name hq
    rw [List.inj_on_of_nodup_map hg hmem hp hname]

theorem Context.flow?_of_mem {g : Program} (hg : g.Distinct) {f : Flow}
    (hf : f ∈ (ofProgram g).flows) : (ofProgram g).flow? f.scope.procedure.name = some f := by
  obtain ⟨p, hp, rfl⟩ := List.mem_map.mp hf
  exact (coherent_ofProgram g).flow?_eq_some.mpr ⟨p, Program.find?_of_mem hg hp, rfl⟩

namespace Analysis

/-- The table of summaries that the analysis ends with. -/
def closingTable (c : Context) : SummaryTable :=
  ((Outcome.ofPoints c .givesUp ((HandOffPoint.discover c).run []).1).run
    ((HandOffPoint.discover c).run []).2).2

theorem ofContext_givesUp (c : Context) :
    ofContext c "gives-up" = ⟨((HandOffPoint.discover c).run []).1,
      .ok ((Outcome.ofPoints c .givesUp ((HandOffPoint.discover c).run []).1).run
        ((HandOffPoint.discover c).run []).2).1⟩ := by
  have hpass : Pass.ofName "gives-up" = .ok .givesUp := by decide
  unfold ofContext
  rw [hpass]
  obtain ⟨points, table⟩ := (HandOffPoint.discover c).run []
  cases points <;> rfl

theorem outcomes_done {g : Program} (hg : g.Distinct) :
    ∃ os, (ofProgram g "gives-up").outcomes = .ok os ∧
      os.map Outcome.point = (ofProgram g "gives-up").points ∧
      Built (.ofProgram g) (closingTable (.ofProgram g)) ∧
      ∀ o ∈ os, o.Done (.ofProgram g) (closingTable (.ofProgram g)) := by
  have hc := Context.coherent_ofProgram g
  have hbuilt := (HandOffPoint.steady_discover hc).built hc .empty
  obtain ⟨_, hclosing, hpoints, hdone⟩ := Outcome.ofPoints_run hc
    (fun h hh => HandOffPoint.placed_of_discovered hc
      (fun f hf => Context.flow?_of_mem hg hf) .empty hh) hbuilt
  rw [ofProgram, ofContext_givesUp]
  exact ⟨_, rfl, hpoints, hclosing, hdone⟩

end Analysis

end ActorOwnership
