import Mathlib.Data.List.Forall2
import ActorOwnership.Proofs.Discovery

/-! Reports and findings. The findings are the first violations of all keys, sorted, and ties stay in
the order of the reports. All that the sweeps report is returned by them, so that the reports of all
sweeps, in any order, have as many different keys as there are findings. -/

namespace ActorOwnership
set_option autoImplicit false

open SummaryTable (Built)

/-! ### Findings in order -/

namespace Finding

/-- What findings are sorted by. -/
def rank (f : Finding) : Int × Int × String := (f.line, f.column, f.symbol)

/-- Not after: by line, then by column, then by symbol. -/
def NotAfter (a b : Finding) : Prop :=
  a.line < b.line ∨ a.line = b.line ∧
    (a.column < b.column ∨ a.column = b.column ∧ a.symbol ≤ b.symbol)

theorem le_iff {a b : Finding} : le a b = true ↔ a.NotAfter b := by
  unfold le NotAfter
  split
  · rename_i hline
    simp [hline]
  · rename_i hline
    rw [not_not] at hline
    split
    · rename_i hcolumn
      simp [hline, hcolumn]
    · rename_i hcolumn
      rw [not_not] at hcolumn
      simp [hline, hcolumn]

theorem NotAfter.trans {a b c : Finding} (hab : a.NotAfter b) (hbc : b.NotAfter c) :
    a.NotAfter c := by
  unfold NotAfter at *
  rcases hab with hab | ⟨hab, hab | ⟨hab', hab''⟩⟩
  · exact Or.inl (by omega)
  · omega
  · rcases hbc with hbc | ⟨hbc, hbc | ⟨hbc', hbc''⟩⟩
    · exact Or.inl (by omega)
    · exact Or.inr ⟨by omega, Or.inl (by omega)⟩
    · exact Or.inr ⟨by omega, Or.inr ⟨by omega, String.le_trans hab'' hbc''⟩⟩

theorem NotAfter.total (a b : Finding) : a.NotAfter b ∨ b.NotAfter a := by
  unfold NotAfter
  rcases Int.lt_trichotomy a.line b.line with hline | hline | hline
  · exact Or.inl (Or.inl hline)
  · rcases Int.lt_trichotomy a.column b.column with hcolumn | hcolumn | hcolumn
    · exact Or.inl (Or.inr ⟨hline, Or.inl hcolumn⟩)
    · rcases String.le_total a.symbol b.symbol with h | h
      · exact Or.inl (Or.inr ⟨hline, Or.inr ⟨hcolumn, h⟩⟩)
      · exact Or.inr (Or.inr ⟨hline.symm, Or.inr ⟨hcolumn.symm, h⟩⟩)
    · exact Or.inr (Or.inr ⟨hline.symm, Or.inl hcolumn⟩)
  · exact Or.inr (Or.inl hline)

theorem notAfter_of_rank_eq {a b : Finding} (h : a.rank = b.rank) : a.NotAfter b := by
  simp only [rank, Prod.mk.injEq] at h
  exact Or.inr ⟨h.1, Or.inr ⟨h.2.1, h.2.2 ▸ String.le_refl _⟩⟩

/-- The same findings in order. Findings of one rank stay as they were. -/
structure Sorted (fs sorted : List Finding) : Prop where
  perm : sorted.Perm fs
  ordered : sorted.Pairwise NotAfter
  stable : ∀ r, sorted.filter (·.rank = r) = fs.filter (·.rank = r)

theorem sorted_mergeSort (fs : List Finding) : Sorted fs (fs.mergeSort le) := by
  have htrans : ∀ a b c : Finding, le a b = true → le b c = true → le a c = true :=
    fun a b c hab hbc => le_iff.mpr ((le_iff.mp hab).trans (le_iff.mp hbc))
  have htotal : ∀ a b : Finding, (le a b || le b a) = true := by
    intro a b
    rw [Bool.or_eq_true, le_iff, le_iff]
    exact NotAfter.total a b
  refine ⟨List.mergeSort_perm fs le, ?_, ?_⟩
  · exact (List.pairwise_mergeSort htrans htotal fs).imp le_iff.mp
  · intro r
    have hsame : (fs.filter (·.rank = r)).Pairwise fun a b => le a b = true := by
      apply List.pairwise_of_forall_mem_list
      intro a ha b hb
      apply le_iff.mpr
      apply notAfter_of_rank_eq
      simp only [List.mem_filter, decide_eq_true_eq] at ha hb
      rw [ha.2, hb.2]
    have hsub : (fs.filter (·.rank = r)).Sublist ((fs.mergeSort le).filter (·.rank = r)) := by
      have hkept := (List.sublist_mergeSort htrans htotal hsame List.filter_sublist).filter
        (·.rank = r)
      rwa [List.filter_filter, List.filter_congr (fun x _ => Bool.and_self _)] at hkept
    exact (hsub.eq_of_length ((List.mergeSort_perm fs le).filter _).length_eq.symm).symm

/-- A finding stands at a place, or nowhere if that is not known. -/
def StandsAt (f : Finding) : Option Location → Prop
  | some l => f.location = l.render ∧ f.line = l.line ∧ f.column = l.column
  | none => f.location = "" ∧ f.line = 0 ∧ f.column = 0

/-- What a finding says of a violation and of the hand-off that it was found for. A violation without
a place stands at the hand-off. -/
structure Tells (g : Program) (x : HandOffPoint × Violation) (f : Finding) : Prop where
  symbol : f.symbol = x.2.symbol.render
  trace : f.trace = x.2.trace.lines
  procedure : f.procedure = x.1.procedure
  place : f.StandsAt
    (x.2.trace.location?.or ((g.find? x.1.procedure).map (·.locationOf x.1.statement)))
  givenUpAt : f.givenUpAt = match g.find? x.1.procedure with
    | some p => (p.locationOf x.1.statement).render
    | none => ""
  description : ("'" ++ x.2.symbol.render ++ "' may alias '" ++ x.1.symbol.render ++
    "', given up by ").toList <+: f.description.toList

theorem ofViolation_tells (g : Program) (x : HandOffPoint × Violation) :
    Tells g x (ofViolation (g.find? x.1.procedure) x.1 x.2) where
  symbol := rfl
  trace := rfl
  procedure := rfl
  place := by
    unfold ofViolation
    simp only
    cases x.2.trace.location?.or ((g.find? x.1.procedure).map (·.locationOf x.1.statement)) with
    | none => exact ⟨rfl, rfl, rfl⟩
    | some l => exact ⟨rfl, rfl, rfl⟩
  givenUpAt := by
    unfold ofViolation
    cases g.find? x.1.procedure with
    | none => rfl
    | some p => rfl
  description := by
    simp only [ofViolation, String.toList_append, List.append_assoc]
    repeat' apply (List.prefix_append_right_inj _).mpr
    exact List.prefix_append _ _

end Finding

/-! ### The reports of all sweeps -/

theorem Violation.foldl_keepFirst (vs : List Violation) (seen : List (Symbol × String))
    (kept : List Violation) :
    ∃ firsts, (vs.foldl keepFirst (seen, kept)).2.reverse = kept.reverse ++ firsts ∧
      FirstOfEach key seen firsts vs := by
  induction vs generalizing seen kept with
  | nil => exact ⟨[], (List.append_nil _).symm, .nil⟩
  | cons v vs ih =>
    rw [List.foldl_cons, keepFirst]
    split
    · rename_i hv
      obtain ⟨firsts, heq, hfirst⟩ := ih seen kept
      exact ⟨firsts, heq, hfirst.skip (List.contains_iff_mem.mp hv)⟩
    · rename_i hv
      obtain ⟨firsts, heq, hfirst⟩ := ih (v.key :: seen) (v :: kept)
      refine ⟨v :: firsts, ?_, hfirst.keep fun hmem => hv (List.contains_iff_mem.mpr hmem)⟩
      rw [heq, List.reverse_cons, List.append_assoc]
      rfl

theorem Violation.unique_firstOfEach (vs : List Violation) :
    FirstOfEach key [] (unique vs) vs := by
  obtain ⟨firsts, heq, hfirst⟩ := foldl_keepFirst vs [] []
  rw [unique, heq]
  exact hfirst

namespace Outcome
variable {c : Context}

/-- A sweep returns all that it reports. One that cannot start reports nothing. -/
theorem run_reported (hc : c.Coherent) (h : HandOffPoint) {t : SummaryTable} (ht : Built c t) :
    let r := h.run c .givesUp none t
    Built c r.2.table ∧
      (⟨h, r.2.violations, r.1.map Prod.fst⟩ : Outcome).violations = r.2.violations := by
  by_cases hh : h.Placed c
  · obtain ⟨f, ids, s', hrun, _, hswept⟩ := run_placed hc hh ht
    rw [hrun]
    exact ⟨hswept.sound.built, rfl⟩
  · have herror : ∃ e, h.sweep c .givesUp = .error e := by
      unfold HandOffPoint.sweep
      cases hflow : c.flow? h.procedure with
      | none => exact ⟨_, rfl⟩
      | some f =>
        have hnot : ¬ f.scope.procedure.contains h.statement = true := fun hmem =>
          hh ⟨f, hflow, hmem⟩
        simp only [hnot]
        exact ⟨_, rfl⟩
    obtain ⟨e, he⟩ := herror
    have hrun : h.run c .givesUp none t = (.error e, { table := t }) := by
      unfold HandOffPoint.run
      rw [he]
    rw [hrun]
    exact ⟨ht, rfl⟩

theorem ofPoints_reported (hc : c.Coherent) (hs : List HandOffPoint) {t : SummaryTable}
    (ht : Built c t) :
    let os := ((ofPoints c .givesUp hs).run t).1
    os.map Outcome.point = hs ∧ ∀ o ∈ os, o.reported = o.violations := by
  induction hs generalizing t with
  | nil => exact ⟨rfl, List.forall_mem_nil _⟩
  | cons h hs ih =>
    obtain ⟨hbuilt, hreported⟩ := run_reported hc h ht
    obtain ⟨hpoints, hrest⟩ := ih hbuilt
    have hstep : ((ofPoints c .givesUp (h :: hs)).run t).1 =
        let r := h.run c .givesUp none t
        ⟨h, r.2.violations, r.1.map Prod.fst⟩ :: ((ofPoints c .givesUp hs).run r.2.table).1 := rfl
    simp only [hstep]
    refine ⟨?_, List.forall_mem_cons.mpr ⟨hreported.symm, hrest⟩⟩
    rw [List.map_cons, hpoints]

theorem map_snd_reports (os : List Outcome) :
    (reports os).map Prod.snd = os.flatMap violations := by
  simp [reports, List.map_flatMap, Function.comp_def]

/-- The reports have as many different keys as there are findings, in whatever order they came. -/
theorem length_unique {g : Program} {os : List Outcome} {held : List Violation}
    (hheld : held.Perm (os.flatMap violations)) :
    (Violation.unique held).length = (findings g os).length := by
  have hunique := Violation.unique_firstOfEach held
  have hfound := found_firstOfEach os
  have hkeys : ((Violation.unique held).map Violation.key).Perm
      ((found os).map fun x => x.2.key) := by
    apply (List.perm_ext_iff_of_nodup hunique.nodup hfound.nodup).mpr
    intro k
    rw [hunique.mem_keys, hfound.mem_keys, (hheld.map _).mem_iff, ← map_snd_reports, List.map_map]
    rfl
  have hlength := hkeys.length_eq
  rw [List.length_map, List.length_map] at hlength
  rw [hlength, findings, List.length_mergeSort, List.length_map]

end Outcome

theorem Pass.eq_givesUp {name : String} {pass : Pass} (h : ofName name = .ok pass) :
    pass = .givesUp := by
  unfold ofName at h
  cases hfound : names.lookup name with
  | none =>
    rw [hfound] at h
    cases h
  | some q =>
    rw [hfound] at h
    cases h
    have hmem := List.mem_singleton.mp (mem_of_lookup hfound)
    exact (Prod.mk.inj hmem).2

namespace Analysis

theorem outcomes_reported {g : Program} {passName : String} {os : List Outcome}
    (hos : (ofProgram g passName).outcomes = .ok os) :
    os.map Outcome.point = (ofProgram g passName).points ∧ ∀ o ∈ os, o.reported = o.violations := by
  have hc := Context.coherent_ofProgram g
  have hbuilt := (HandOffPoint.steady_discover hc).built hc .empty
  unfold ofProgram ofContext at hos ⊢
  generalize (HandOffPoint.discover (.ofProgram g)).run [] = r at hos hbuilt ⊢
  obtain ⟨points, table⟩ := r
  cases points with
  | nil =>
    cases hos
    exact ⟨rfl, List.forall_mem_nil _⟩
  | cons h hs =>
    cases hpass : Pass.ofName passName with
    | error e =>
      rw [hpass] at hos
      cases hos
    | ok pass =>
      obtain rfl := Pass.eq_givesUp hpass
      rw [hpass] at hos
      cases hos
      exact Outcome.ofPoints_reported hc (h :: hs) hbuilt

/-- For any outcomes, there is one finding for each key of a violation. It tells of the first
violation of the key and of the hand-off that this was found for, and the findings are sorted by line,
column and symbol with ties in the order of the reports. For the outcomes of a program, the reports
are the violations of all sweeps, and in any order they have one unique entry for each finding. -/
theorem findings_of_reports (g : Program) :
    (∀ os, ∃ firsts fs, FirstOfEach (fun x => x.2.key) [] firsts (Outcome.reports os) ∧
      List.Forall₂ (Finding.Tells g) firsts fs ∧ Finding.Sorted fs (Outcome.findings g os)) ∧
    ∀ passName os, (ofProgram g passName).outcomes = .ok os →
      findings g passName = .ok (Outcome.findings g os) ∧
      os.map Outcome.point = (ofProgram g passName).points ∧
      (∀ o ∈ os, o.reported = o.violations) ∧
      ∀ held, held.Perm (os.flatMap Outcome.reported) →
        FirstOfEach Violation.key [] (Violation.unique held) held ∧
        (Violation.unique held).length = (Outcome.findings g os).length := by
  refine ⟨?_, ?_⟩
  · intro os
    refine ⟨_, _, Outcome.found_firstOfEach os, ?_, Finding.sorted_mergeSort _⟩
    apply List.forall₂_map_right_iff.mpr
    exact List.forall₂_same.mpr fun x _ => Finding.ofViolation_tells g x
  · intro passName os hos
    obtain ⟨hpoints, hreported⟩ := outcomes_reported hos
    refine ⟨?_, hpoints, hreported, ?_⟩
    · rw [findings, hos]
      rfl
    · intro held hheld
      rw [List.flatMap_congr hreported] at hheld
      exact ⟨Violation.unique_firstOfEach held, Outcome.length_unique hheld⟩

/-- Gives up a copy of a field twice and reads the field afterwards. -/
def sentTwice : Program where
  procedures := [methodOf "A.m" [] [{ id := 0, instrs :=
    [⟨⟨"a", 1, 0, none, none⟩, .assign "x" (selfField "f")⟩, sendCall (.var "x"),
      sendCall (.var "x"), printCall (selfField "f")] }]]

/-- Both sweeps report the copy, and there is one finding. -/
theorem findings_of_reports_sentTwice :
    ∃ os, (ofProgram sentTwice "gives-up").outcomes = .ok os ∧
      (os.flatMap Outcome.reported).length = 2 ∧ (Outcome.findings sentTwice os).length = 1 := by
  have hos : (ofProgram sentTwice "gives-up").outcomes = .ok _ :=
    congrArg outcomes (ofContext_givesUp (.ofProgram sentTwice))
  obtain ⟨_, _, _, hheld⟩ := (findings_of_reports sentTwice).2 "gives-up" _ hos
  refine ⟨_, hos, by decide +kernel, ?_⟩
  rw [← (hheld _ (List.Perm.refl _)).2]
  decide +kernel

end Analysis

end ActorOwnership
