import Mathlib.Data.Finset.Card
import Mathlib.Data.Finset.Filter
import ActorOwnership.Proofs.Request

/-! Groups of mutually recursive procedures in the table of summaries. A group gets its entries
during the first request for one of its members, and they depend on nothing but which member that
was. -/

namespace ActorOwnership
set_option autoImplicit false

/-- Calls lead from each of the two procedures to the other. -/
def Context.Mutual (c : Context) (a b : String) : Prop := c.Reaches a b ∧ c.Reaches b a

theorem Context.Mutual.trans {c : Context} {a b d : String} (h : c.Mutual a b) (h' : c.Mutual b d) :
    c.Mutual a d :=
  ⟨h.1.trans h'.1, h'.2.trans h.2⟩

theorem Context.Mutual.symm {c : Context} {a b : String} (h : c.Mutual a b) : c.Mutual b a :=
  ⟨h.2, h.1⟩

namespace SummaryTable

/-- `e` is the last procedure of the group of `a` to get its entry. It is the member that was asked
for first: the others got theirs on its behalf. -/
def EnteredAt (c : Context) (t : SummaryTable) (a e : String) : Prop :=
  ∃ before after, t.map Summary.procedure = before ++ e :: after ∧ c.Mutual a e ∧
    ∀ q ∈ after, ¬ c.Mutual a q

/-- Both tables have entered each group that calls from `name` lead to at the same member. Where a
procedure is only in a group with itself, this says nothing. -/
def SameEntries (c : Context) (t u : SummaryTable) (name : String) : Prop :=
  ∀ a e e', c.Reaches name a → t.EnteredAt c a e → u.EnteredAt c a e' → e = e'

/-- The two tables have the same entries for the group of `e`. -/
def SameGroup (c : Context) (e : String) (t u : SummaryTable) : Prop :=
  ∀ q, c.Mutual e q → t.find? q = u.find? q

/-- Procedures below the group of `e` that have summaries in both tables have the same ones. -/
def SameBelow (c : Context) (e : String) (t u : SummaryTable) : Prop :=
  ∀ q s s', c.Reaches e q → ¬ c.Reaches q e → t.find? q = some s → u.find? q = some s' → s = s'

theorem SameBelow.of_earlier {c : Context} {e : String} {t u t' u' : SummaryTable}
    (h : SameBelow c e t' u') (ht : t <+: t') (hu : u <+: u') : SameBelow c e t u :=
  fun q s s' hq hback hs hs' =>
    h q s s' hq hback (find?_of_earlier ht hs) (find?_of_earlier hu hs')

/-- The callees of every entry have entries, or are on the path. -/
def Closed (c : Context) (path : List String) (t : SummaryTable) : Prop :=
  ∀ a b, t.contains a = true → c.Calls a b → t.contains b = true ∨ b ∈ path

variable {c : Context} {path : List String} {t u : SummaryTable}

/-- A group is entered at one member only. -/
theorem EnteredAt.unique {a e e' : String} (h : t.EnteredAt c a e) (h' : t.EnteredAt c a e') :
    e = e' := by
  obtain ⟨before, after, hnames, hmutual, hlast⟩ := h
  obtain ⟨before', after', hnames', hmutual', hlast'⟩ := h'
  rw [hnames, List.append_eq_append_iff] at hnames'
  rcases hnames' with ⟨gap, _, hrest⟩ | ⟨gap, _, hrest⟩
  · cases gap with
    | nil => exact (List.cons.inj hrest).1
    | cons x gap =>
      refine absurd hmutual' (hlast e' ?_)
      rw [(List.cons.inj hrest).2]
      exact List.mem_append_right gap List.mem_cons_self
  · cases gap with
    | nil => exact (List.cons.inj hrest).1.symm
    | cons x gap =>
      refine absurd hmutual (hlast' e ?_)
      rw [(List.cons.inj hrest).2]
      exact List.mem_append_right gap List.mem_cons_self

theorem contains_extend {name : String} {flow : Flow} (hflow : c.flow? name = some flow)
    (t : SummaryTable) (answer : String → Summary) (q : String) :
    contains (t ++ [Summary.buildWith c flow answer]) q = true ↔
      t.contains q = true ∨ name = q := by
  rw [contains, find?_extend hflow, Option.isSome_or, Bool.or_eq_true, contains]
  by_cases h : name = q <;> simp [h]

theorem find?_eq_none_iff {q : String} : t.find? q = none ↔ t.contains q = false := by
  rw [contains, Option.isSome_eq_false_iff, Option.isNone_iff_eq_none]

theorem contains_iff_mem {q : String} :
    t.contains q = true ↔ q ∈ t.map Summary.procedure := by
  simp [contains, find?, List.find?_isSome]

/-- What a procedure with an entry calls has an entry too, unless the calls come across the path. -/
theorem Closed.of_reaches (h : Closed c path t) {e q : String} (he : t.contains e = true)
    (hpath : ∀ p ∈ path, ¬ c.Reaches e p) (hq : c.Reaches e q) : t.contains q = true := by
  induction hq with
  | refl => exact he
  | tail hreach hcall ih =>
    rcases h _ _ ih hcall with hin | hin
    · exact hin
    · exact absurd (hreach.tail hcall) (hpath _ hin)

theorem Built.nodup (h : Built c t) : (t.map Summary.procedure).Nodup := by
  induction h with
  | empty => exact List.nodup_nil
  | @extend t name flow _ hflow hnone _ ih =>
    rw [List.map_append, List.map_singleton, Summary.procedure_buildWith,
      Context.flow?_name hflow, List.nodup_append]
    refine ⟨ih, List.nodup_singleton _, ?_⟩
    rintro _ ha _ hb rfl
    rw [List.mem_singleton.mp hb, ← contains_iff_mem, find?_eq_none_iff.mp hnone] at ha
    cases ha

/-! ### What requests change -/

namespace Requests
variable {names : List String}

/-- Requests leave alone what calls from the requested procedures do not lead to. -/
theorem find?_eq (h : Requests c path t names u) {x : String}
    (hx : ∀ n ∈ names, ¬ c.Reaches n x) : u.find? x = t.find? x := by
  induction h with
  | done => rfl
  | skip _ _ ih => exact ih fun n hn => hx n (List.mem_cons_of_mem _ hn)
  | @build _ _ t u _ q flow _ _ hflow _ _ ihsub ihrest =>
    have hq : ¬ c.Reaches q x := hx q List.mem_cons_self
    have hne : q ≠ x := by
      rintro rfl
      exact hq .refl
    have hsub : u.find? x = t.find? x :=
      ihsub fun n hn hreach => hq (.head ⟨flow, hflow, hn⟩ hreach)
    rw [ihrest fun n hn => hx n (List.mem_cons_of_mem q hn), find?_extend hflow, if_neg hne,
      Option.or_none, hsub]

theorem closed (hc : c.Coherent) (h : Requests c path t names u) (ht : Closed c path t) :
    Closed c path u := by
  induction h with
  | done => exact ht
  | skip _ _ ih => exact ih ht
  | @build path _ t u _ q flow _ _ hflow hsub _ ihsub ihrest =>
    have hu : Closed c (q :: path) u :=
      ihsub fun a b ha hab => (ht a b ha hab).imp_right (List.mem_cons_of_mem q)
    refine ihrest fun a b ha hab => ?_
    have hb : u.contains b = true ∨ b ∈ q :: path := by
      rcases (contains_extend hflow _ _ a).mp ha with ha | rfl
      · exact hu a b ha hab
      · obtain ⟨flow', hflow', hb⟩ := hab
        rw [hflow, Option.some.injEq] at hflow'
        subst hflow'
        exact hsub.settled_callee hc hb
    rw [contains_extend hflow]
    rcases hb with hb | hb
    · exact Or.inl (Or.inl hb)
    · rcases List.mem_cons.mp hb with rfl | hb
      · exact Or.inl (Or.inr rfl)
      · exact Or.inr hb

/-! ### Two runs through one group -/

/-- A name that is passed over leaves the table as it is. -/
theorem eq_of_skip {q : String} (h : Requests c path t [q] u)
    (hq : t.contains q = true ∨ q ∈ path ∨ c.flow? q = none) : u = t := by
  cases h with
  | skip _ hrest =>
    cases hrest
    rfl
  | build hnone hpath hflow =>
    rcases hq with hq | hq | hq
    · rw [find?_eq_none_iff.mp hnone] at hq
      cases hq
    · exact absurd hq hpath
    · rw [hflow] at hq
      cases hq

/-- A request for a procedure below a group leaves the entries of the group alone. -/
theorem find?_eq_of_below {e q : String} (h : Requests c path t [q] u) (hq : ¬ c.Reaches q e)
    {x : String} (hx : c.Mutual e x) : u.find? x = t.find? x := by
  refine h.find?_eq fun n hn hreach => ?_
  rw [List.mem_singleton.mp hn] at hreach
  exact hq (hreach.trans hx.2)

section Agree
variable {e : String} {path₁ path₂ names : List String} {t₁ t₂ u₁ u₂ : SummaryTable}

/-- A member of a group gets the same entry from two tables that agree on the group and below it. -/
theorem buildWith_eq (hc : c.Coherent) {flow : Flow}
    (h₁ : Requests c path₁ t₁ (c.calleesOf flow) u₁)
    (h₂ : Requests c path₂ t₂ (c.calleesOf flow) u₂)
    (hcallees : ∀ n ∈ c.calleesOf flow, c.Reaches e n)
    (hpath₁ : ∀ q ∈ path₁, c.Reaches q e) (hpath₂ : ∀ q ∈ path₂, c.Reaches q e)
    (hu : SameGroup c e u₁ u₂) (hbelow : SameBelow c e u₁ u₂) :
    Summary.buildWith c flow (u₁.answer c) = Summary.buildWith c flow (u₂.answer c) := by
  refine Summary.buildWith_congr fun n hn => ?_
  -- a callee is in the group, or below it and then finished in both tables
  by_cases hback : c.Reaches n e
  · simp only [answer, hu n ⟨hcallees n hn, hback⟩]
  · have hin₁ := (h₁.settled_callee hc hn).resolve_right fun hp => hback (hpath₁ n hp)
    have hin₂ := (h₂.settled_callee hc hn).resolve_right fun hp => hback (hpath₂ n hp)
    obtain ⟨s₁, hs₁⟩ := contains_iff.mp hin₁
    obtain ⟨s₂, hs₂⟩ := contains_iff.mp hin₂
    rw [answer_of_find? hs₁, answer_of_find? hs₂]
    exact hbelow n s₁ s₂ (hcallees n hn) hback hs₁ hs₂

/-- Two tables that agree on a group still do after the same requests, as long as the same members
are on the path and the entries below the group agree. -/
theorem sameGroup (hc : c.Coherent) (h₁ : Requests c path₁ t₁ names u₁)
    (h₂ : Requests c path₂ t₂ names u₂) (hnames : ∀ n ∈ names, c.Reaches e n)
    (hpath : ∀ q, c.Mutual e q → (q ∈ path₁ ↔ q ∈ path₂))
    (hpath₁ : ∀ q ∈ path₁, c.Reaches q e) (hpath₂ : ∀ q ∈ path₂, c.Reaches q e)
    (ht : SameGroup c e t₁ t₂) (hbelow : SameBelow c e u₁ u₂) : SameGroup c e u₁ u₂ := by
  -- The first run is followed step by step, and the second one is taken apart along with it. The
  -- two need not do the same below the group, where one may find entries that the other makes.
  induction h₁ generalizing path₂ t₂ u₂ with
  | done =>
    cases h₂
    exact ht
  | @skip path₁ rest t₁ u₁ q hq hrest ih =>
    obtain ⟨m₂, hfirst₂, hrest₂⟩ := h₂.split
    refine ih hrest₂ (fun n hn => hnames n (List.mem_cons_of_mem q hn)) hpath hpath₁ hpath₂ ?_
      hbelow
    intro x hx
    by_cases hback : c.Reaches q e
    · have hmutual : c.Mutual e q := ⟨hnames q List.mem_cons_self, hback⟩
      rw [contains, ht q hmutual, hpath q hmutual] at hq
      rw [hfirst₂.eq_of_skip hq]
      exact ht x hx
    · rw [hfirst₂.find?_eq_of_below hback hx]
      exact ht x hx
  | @build path₁ rest t₁ w₁ u₁ q flow hnone hq hflow hsub hrest ihsub ihrest =>
    obtain ⟨m₂, hfirst₂, hrest₂⟩ := h₂.split
    refine ihrest hrest₂ (fun n hn => hnames n (List.mem_cons_of_mem q hn)) hpath hpath₁ hpath₂ ?_
      hbelow
    intro x hx
    have hfirst₁ : Requests c path₁ t₁ [q] _ := .build hnone hq hflow hsub .done
    by_cases hback : c.Reaches q e
    · have hmutual : c.Mutual e q := ⟨hnames q List.mem_cons_self, hback⟩
      rw [hpath q hmutual] at hq
      rw [ht q hmutual] at hnone
      cases hfirst₂ with
      | skip hskip _ =>
        -- the second run cannot pass over what the first one builds
        rw [find?_eq_none_iff.mp hnone, hflow] at hskip
        simp [hq] at hskip
      | @build _ _ _ w₂ _ _ flow' _ _ hflow' hsub₂ hdone =>
        cases hdone
        rw [hflow, Option.some.injEq] at hflow'
        subst hflow'
        have hcallees : ∀ n ∈ c.calleesOf flow, c.Reaches e n :=
          fun n hn => hmutual.1.tail ⟨flow, hflow, hn⟩
        have hup₁ : ∀ p ∈ q :: path₁, c.Reaches p e := List.forall_mem_cons.mpr ⟨hback, hpath₁⟩
        have hup₂ : ∀ p ∈ q :: path₂, c.Reaches p e := List.forall_mem_cons.mpr ⟨hback, hpath₂⟩
        have hsame : ∀ p, c.Mutual e p → (p ∈ q :: path₁ ↔ p ∈ q :: path₂) := by
          intro p hp
          rw [List.mem_cons, List.mem_cons, hpath p hp]
        have hbelow' : SameBelow c e w₁ w₂ :=
          hbelow.of_earlier ((List.prefix_append _ _).trans hrest.grows)
            ((List.prefix_append _ _).trans hrest₂.grows)
        have hgroup := ihsub hsub₂ hcallees hsame hup₁ hup₂ ht hbelow'
        rw [find?_extend hflow, find?_extend hflow, hgroup x hx,
          buildWith_eq hc hsub hsub₂ hcallees hup₁ hup₂ hgroup hbelow']
    · rw [hfirst₁.find?_eq_of_below hback hx, hfirst₂.find?_eq_of_below hback hx]
      exact ht x hx

end Agree

end Requests

/-! ### The first request for a group -/

/-- The request that gave the group of `a` its entries: it was for `e`, at a time when no member had
an entry or was on the path, and it left an entry for each. -/
structure Entry (c : Context) (u : SummaryTable) (a e : String) (path : List String)
    (t m : SummaryTable) : Prop where
  mutual_ : c.Mutual a e
  requests : Requests c path t [e] m
  within : m <+: u
  fresh : ∀ q, c.Mutual a q → q ∉ path ∧ t.find? q = none
  above : ∀ p ∈ path, c.Reaches p e
  complete : ∀ q, c.Mutual a q → m.contains q = true
  last : ∃ w s, m = w ++ [s] ∧ s.procedure = e

theorem Entry.mono {a e : String} {m v : SummaryTable} (h : Entry c u a e path t m)
    (huv : u <+: v) : Entry c v a e path t m :=
  { h with within := h.within.trans huv }

theorem Entry.enteredAt {a e : String} {m : SummaryTable} (h : Entry c u a e path t m)
    (hu : Built c u) : u.EnteredAt c a e := by
  obtain ⟨w, s, rfl, rfl⟩ := h.last
  obtain ⟨v, rfl⟩ := h.within
  have hnodup := hu.nodup
  rw [List.map_append, List.nodup_append] at hnodup
  refine ⟨w.map Summary.procedure, v.map Summary.procedure, by simp, h.mutual_, ?_⟩
  intro q hq hmutual
  exact hnodup.2.2 q (contains_iff_mem.mp (h.complete q hmutual)) q hq rfl

theorem Requests.exists_entry (hc : c.Coherent) {names : List String} {a : String}
    (h : Requests c path t names u) (hclosed : Closed c path t)
    (hfresh : ∀ q, c.Mutual a q → q ∉ path ∧ t.find? q = none)
    (hpath : ∀ p ∈ path, ∀ n ∈ names, c.Reaches p n)
    (hin : ∃ q, c.Mutual a q ∧ u.contains q = true) :
    ∃ e path' t' m, Entry c u a e path' t' m := by
  induction h with
  | done =>
    obtain ⟨q, hq, hcontains⟩ := hin
    rw [contains, (hfresh q hq).2] at hcontains
    cases hcontains
  | skip _ _ ih =>
    exact ih hclosed hfresh (fun p hp n hn => hpath p hp n (List.mem_cons_of_mem _ hn)) hin
  | @build path rest t w u e flow hnone he hflow hsub hrest ihsub ihrest =>
    have hfirst : Requests c path t [e] _ := .build hnone he hflow hsub .done
    have habove : ∀ p ∈ path, c.Reaches p e := fun p hp => hpath p hp e List.mem_cons_self
    -- either this is the request, or it came up among the callees, or it comes later
    by_cases hmutual : c.Mutual a e
    · refine ⟨e, path, t, _, hmutual, hfirst, hrest.grows, hfresh, habove, ?_, w, _, rfl, ?_⟩
      · -- calls from `e` stay off the path, whose procedures would otherwise be in the group
        intro q hq
        have he' := (contains_extend hflow w (w.answer c) e).mpr (Or.inr rfl)
        refine (hfirst.closed hc hclosed).of_reaches he' ?_ (hmutual.2.trans hq.1)
        intro p hp hreach
        exact (hfresh p (hmutual.trans ⟨hreach, habove p hp⟩)).1 hp
      · rw [Summary.procedure_buildWith, Context.flow?_name hflow]
    · by_cases hsome : ∃ q, c.Mutual a q ∧ w.contains q = true
      · have hfresh' : ∀ q, c.Mutual a q → q ∉ e :: path ∧ t.find? q = none := by
          intro q hq
          refine ⟨fun hin => ?_, (hfresh q hq).2⟩
          rcases List.mem_cons.mp hin with rfl | hin
          · exact hmutual hq
          · exact (hfresh q hq).1 hin
        obtain ⟨e', path', t', m, hentry⟩ := ihsub
          (fun x y hx hxy => (hclosed x y hx hxy).imp_right (List.mem_cons_of_mem e)) hfresh'
          (List.forall_mem_cons.mpr ⟨fun n hn => .single ⟨flow, hflow, hn⟩,
            fun p hp n hn => (habove p hp).tail ⟨flow, hflow, hn⟩⟩) hsome
        exact ⟨e', path', t', m, hentry.mono ((List.prefix_append _ _).trans hrest.grows)⟩
      · refine ihrest (hfirst.closed hc hclosed) ?_
          (fun p hp n hn => hpath p hp n (List.mem_cons_of_mem e hn)) hin
        intro q hq
        refine ⟨(hfresh q hq).1, find?_eq_none_iff.mpr (Bool.eq_false_iff.mpr fun hcontains => ?_)⟩
        rcases (contains_extend hflow _ _ q).mp hcontains with hcontains | rfl
        · exact hsome ⟨q, hq, hcontains⟩
        · exact hmutual hq

theorem Requests.exists_entry_of_contains (hc : c.Coherent) {names : List String} {a : String}
    (h : Requests c [] [] names u) (ha : u.contains a = true) :
    ∃ e path t m, Entry c u a e path t m :=
  h.exists_entry hc (fun a b ha => by cases ha) (fun q _ => ⟨List.not_mem_nil, rfl⟩)
    (List.forall_mem_nil _) ⟨a, ⟨.refl, .refl⟩, ha⟩

/-! ### All groups -/

section Below
open Classical

/-- The procedures of the program that calls from `name` lead to. -/
noncomputable def reachable (c : Context) (name : String) : Finset String :=
  (c.program.procedures.map Procedure.name).toFinset.filter (c.Reaches name ·)

/-- Fewer procedures are reached from below a procedure that has an entry. -/
theorem card_reachable_lt (hc : c.Coherent) {name q : String} {f : Flow}
    (hflow : c.flow? name = some f) (hq : c.Reaches name q) (hback : ¬ c.Reaches q name) :
    (reachable c q).card < (reachable c name).card := by
  obtain ⟨p, hp, _⟩ := hc.flow?_eq_some.mp hflow
  have hname : name ∈ c.program.procedures.map Procedure.name :=
    List.mem_map.mpr ⟨p, List.mem_of_find?_eq_some hp, Program.find?_name hp⟩
  refine Finset.card_lt_card (Finset.ssubset_iff_of_subset ?_ |>.mpr ⟨name, ?_, ?_⟩)
  · exact Finset.monotone_filter_right _ fun x _ hx => hq.trans hx
  · exact Finset.mem_filter.mpr ⟨List.mem_toFinset.mpr hname, .refl⟩
  · exact fun hmem => hback (Finset.mem_filter.mp hmem).2

end Below

/-- A procedure has the same summary in two tables when they have entered the groups that it leads
to at the same members. -/
theorem eq_of_sameEntries (hc : c.Coherent) {names₁ names₂ : List String}
    {u₁ u₂ : SummaryTable} (h₁ : Requests c [] [] names₁ u₁) (h₂ : Requests c [] [] names₂ u₂)
    {name : String} (hsame : SameEntries c u₁ u₂ name) {s₁ s₂ : Summary}
    (hs₁ : u₁.find? name = some s₁) (hs₂ : u₂.find? name = some s₂) : s₁ = s₂ := by
  -- group after group, from the procedures that call no others upwards
  induction hn : (reachable c name).card using Nat.strong_induction_on
    generalizing name s₁ s₂ with
  | _ n ih =>
    subst hn
    have hbuilt₁ := h₁.built_outside hc .empty
    have hbuilt₂ := h₂.built_outside hc .empty
    obtain ⟨e, path₁, t₁, m₁, hentry₁⟩ :=
      h₁.exists_entry_of_contains hc (contains_iff.mpr ⟨s₁, hs₁⟩)
    obtain ⟨e', path₂, t₂, m₂, hentry₂⟩ :=
      h₂.exists_entry_of_contains hc (contains_iff.mpr ⟨s₂, hs₂⟩)
    obtain rfl := hsame name e e' .refl (hentry₁.enteredAt hbuilt₁) (hentry₂.enteredAt hbuilt₂)
    have hmutual := hentry₁.mutual_
    obtain ⟨_, _, _, _, hflow, _⟩ := hbuilt₁.entry hs₁
    have hbelow : SameBelow c e m₁ m₂ := by
      intro q s s' hq hback hs hs'
      have hreach : c.Reaches name q := hmutual.1.trans hq
      refine ih _ (card_reachable_lt hc hflow hreach fun h => hback (h.trans hmutual.1)) ?_
        (find?_of_earlier hentry₁.within hs) (find?_of_earlier hentry₂.within hs') rfl
      exact fun a x x' ha => hsame a x x' (hreach.trans ha)
    have hgroup : m₁.find? name = m₂.find? name := by
      refine hentry₁.requests.sameGroup hc hentry₂.requests (List.forall_mem_singleton.mpr .refl)
        ?_ hentry₁.above hentry₂.above ?_ hbelow name hmutual.symm
      · intro q hq
        exact iff_of_false (hentry₁.fresh q (hmutual.trans hq)).1
          (hentry₂.fresh q (hmutual.trans hq)).1
      · intro q hq
        rw [(hentry₁.fresh q (hmutual.trans hq)).2, (hentry₂.fresh q (hmutual.trans hq)).2]
    obtain ⟨s, hs⟩ := contains_iff.mp (hentry₁.complete name ⟨.refl, .refl⟩)
    have hfirst := find?_of_earlier hentry₁.within hs
    have hsecond := find?_of_earlier hentry₂.within (hgroup ▸ hs)
    rw [hs₁] at hfirst
    rw [hs₂] at hsecond
    exact (Option.some.inj hfirst).trans (Option.some.inj hsecond).symm

end SummaryTable

end ActorOwnership
