import ActorOwnership.Proofs.Discovery
import ActorOwnership.Proofs.Liveness

/-! The search for a read before a reset decides the existence of a path. When all summaries are
made, it answers yes if and only if a walk without resets leads to a read, in the procedure or in a
chain of methods called on the same object, or leads out of the procedure and another method of the
class has such a walk from its entry. The procedure itself must not be entered again by a call. -/

namespace ActorOwnership
set_option autoImplicit false

open SummaryTable (Requests Built)

/-! ### Paths to reads -/

namespace Context
variable {c : Context} {t : SummaryTable} {x : Symbol}

/-- A procedure exposes a symbol from a position: a walk without resets leads from there to a
statement that reads the symbol, or that calls a method on the object itself which exposes it from
its entry. -/
inductive Exposes (c : Context) (t : SummaryTable) (x : Symbol) : String → Position → Prop where
  | read {name : String} {f : Flow} {a : Position} {n : Int} {k : Nat} :
      c.flow? name = some f → Uncut c t f x a ⟨n, k⟩ → x ∈ f.readsAt ⟨name, n, k⟩ →
        Exposes c t x name a
  | call {name : String} {f : Flow} {a : Position} {n : Int} {k : Nat} {q : Procedure} :
      c.flow? name = some f → Uncut c t f x a ⟨n, k⟩ → c.selfCallee? f ⟨name, n, k⟩ = some q →
        Exposes c t x q.name ⟨q.entry, 0⟩ → Exposes c t x name a

/-- A walk without resets leads from the position out of the procedure. -/
def Escapes (c : Context) (t : SummaryTable) (f : Flow) (x : Symbol) (a : Position) : Prop :=
  ∃ n, Uncut c t f x a ⟨n, (f.scope.procedure.instrsAt n).length⟩ ∧ f.scope.procedure.IsEnd n

/-- Some call on the object itself enters the procedure. -/
def Entered (c : Context) (p : Procedure) : Prop :=
  ∃ name f id, c.flow? name = some f ∧ c.selfCallee? f id = some p

/-- The table has the summaries of all procedures. -/
def Summarised (c : Context) (t : SummaryTable) : Prop :=
  ∀ name f, c.flow? name = some f → t.contains name = true

theorem Entered.exists_instr {g : Program} {p : Procedure} (h : (ofProgram g).Entered p) :
    ∃ q ∈ g.procedures, ∃ n ∈ q.nodes, ∃ i ∈ n.instrs, ∃ v, i.action.invocation? = some v ∧
      g.resolveCallee v q = some p := by
  obtain ⟨name, f, id, hflow, hcallee⟩ := h
  obtain ⟨q, hq, rfl⟩ := List.mem_map.mp (List.mem_of_find?_eq_some hflow)
  obtain ⟨i, v, hi, hcall⟩ := Summary.callAt?_of_selfCallee? hcallee
  obtain ⟨w, hw, hcallee⟩ := Option.bind_eq_some_iff.mp hcall
  obtain ⟨q', hq', heq⟩ := Option.map_eq_some_iff.mp hcallee
  obtain ⟨rfl, rfl⟩ := Prod.mk.inj heq
  obtain ⟨n, k, _, hk⟩ := Procedure.exists_of_instrAt? hi
  obtain ⟨node, hnode, hk⟩ := Procedure.exists_node_of_instrAt? hk
  exact ⟨q, hq, node, List.mem_of_find?_eq_some hnode, i, List.mem_of_getElem? hk, w, hw, hq'⟩

end Context

theorem SummaryTable.contains_asked {c : Context} (hc : c.Coherent) {names : List String}
    {name : String} {p : Procedure} (hp : c.program.find? name = some p) (hname : name ∈ names) :
    (asked c names).contains name = true := by
  have hfold : ∀ (names : List String) (t : SummaryTable),
      name ∈ names ∨ t.contains name = true →
      (names.foldl (fun t name => ((request c name).run t).2) t).contains name = true := by
    intro names
    induction names with
    | nil => exact fun t h => h.resolve_left List.not_mem_nil
    | cons q names ih =>
      intro t h
      apply ih
      rcases h with h | h
      · rcases List.mem_cons.mp h with rfl | h
        · exact Or.inr (contains_of_request hc hp t)
        · exact Or.inl h
      · exact Or.inr (contains_of_earlier ((Steady.request hc q).grows t) h)
  exact hfold names [] (Or.inl hname)

theorem Uncut.trans {c : Context} {t : SummaryTable} {f : Flow} {x : Symbol} {a b d : Position}
    (hab : Uncut c t f x a b) (hbd : Uncut c t f x b d) : Uncut c t f x a d := by
  obtain ⟨xs, hxs, hclear⟩ := hab
  obtain ⟨ys, hys, hclear'⟩ := hbd
  refine ⟨xs ++ ys, hxs.trans hys, ?_⟩
  intro s hs
  rcases List.mem_append.mp hs with hs | hs
  · exact hclear s hs
  · exact hclear' s hs

/-- With all summaries made, a question changes nothing. -/
theorem Steady.run_eq {c : Context} {α : Type} {m : StateM SummaryTable α} (hm : Steady c m)
    {t : SummaryTable} (ht : c.Summarised t) : m.run t = ((m.run t).1, t) := by
  have hkeep : ∀ {path names t u}, Requests c path t names u → c.Summarised t → u = t := by
    intro path names t u h
    induction h with
    | done => exact fun _ => rfl
    | skip _ _ ih => exact ih
    | build hnone _ hflow _ _ _ _ =>
      intro ht
      have hsome := ht _ _ hflow
      rw [SummaryTable.contains, hnone] at hsome
      cases hsome
  obtain ⟨names, h⟩ := hm.asks t
  rw [Prod.ext_iff]
  exact ⟨rfl, hkeep h ht⟩

namespace Liveness
variable {c : Context} {u : SummaryTable} {x : Symbol}

/-! ### Searches that answer yes -/

/-- What an answer shows: a read was found, or a way out. -/
def Passage.Shows (found out : Prop) : Passage → Prop
  | .read => found
  | .through => out
  | .reset => True

section Found
variable {f : Flow} {fuel : Nat} {active : List String}

/-- A walk without resets leads to a statement that reads, by itself or by what the callee is found
to do. -/
def ReadsFrom (c : Context) (u : SummaryTable) (x : Symbol) (fuel : Nat) (active : List String)
    (f : Flow) (a : Position) : Prop :=
  ∃ n k, Uncut c u f x a ⟨n, k⟩ ∧ ((readsAt c f x (askWithin c x fuel active)
    ⟨f.scope.procedure.name, n, (k : Nat)⟩).run u).1 = true

theorem ReadsFrom.after {a b : Position} (hab : Uncut c u f x a b)
    (h : ReadsFrom c u x fuel active f b) : ReadsFrom c u x fuel active f a := by
  obtain ⟨n, k, hcut, hread⟩ := h
  exact ⟨n, k, hab.trans hcut, hread⟩

variable (hc : c.Coherent) (hu : c.Summarised u)

include hc hu

theorem passWithin_shows {n : Int} {k : Nat}
    (hk : k ≤ (f.scope.procedure.instrsAt n).length) :
    Passage.Shows (ReadsFrom c u x fuel active f ⟨n, k⟩)
      (Uncut c u f x ⟨n, k⟩ ⟨n, (f.scope.procedure.instrsAt n).length⟩)
      ((passWithin c x fuel active f (f.scope.procedure.handlesFrom n k)).run u).1 := by
  have hask : ∀ q, Steady c (askWithin c x fuel active q) :=
    steady_askWithin hc (fun active q => steady_searchWithin hc fuel active false none q) active
  -- the induction is on the number of statements that are left
  obtain ⟨left, hleft⟩ : ∃ left, k + left = (f.scope.procedure.instrsAt n).length :=
    ⟨_, Nat.add_sub_cancel' hk⟩
  induction left generalizing k with
  | zero =>
    obtain rfl : k = (f.scope.procedure.instrsAt n).length := by omega
    rw [Procedure.handlesFrom_end]
    exact Uncut.here
  | succ left ih =>
    have hlt : k < (f.scope.procedure.instrsAt n).length := by omega
    obtain ⟨i, hi⟩ : ∃ i, f.scope.procedure.instrAt?
        ⟨f.scope.procedure.name, n, (k : Nat)⟩ = some i :=
      ⟨_, by rw [Procedure.instrAt?_mk]; exact List.getElem?_eq_getElem hlt⟩
    have hsame : ((readsAt c f x (askWithin c x fuel active)
        ⟨f.scope.procedure.name, n, (k : Nat)⟩).run u).2 = u :=
      congrArg Prod.snd ((steady_readsAt hask _).run_eq hu)
    rw [Procedure.handlesFrom_cons hi, passWithin]
    cases hread : ((readsAt c f x (askWithin c x fuel active)
      ⟨f.scope.procedure.name, n, (k : Nat)⟩).run u).1 with
    | true =>
      rw [passage_of_read hread]
      exact ⟨n, k, .here, hread⟩
    | false =>
      cases hreset : Summary.resetsAt c u f x ⟨f.scope.procedure.name, n, (k : Nat)⟩ with
      | true =>
        rw [passage_of_reset hread (by rw [hsame]; exact hreset)]
        trivial
      | false =>
        rw [passage_of_through hread (by rw [hsame]; exact hreset), hsame]
        have hstep : Uncut c u f x ⟨n, k⟩ ⟨n, k + 1⟩ := Uncut.here.step hi hreset
        have hrest := ih hlt (by omega)
        rw [passWithin] at hrest
        revert hrest
        generalize ((passage _ _ _).run u).1 = r
        intro hrest
        cases r with
        | read => exact ReadsFrom.after hstep hrest
        | through => exact hstep.trans hrest
        | reset => trivial

/-- The queue holds places that walks without resets from `a` lead to. -/
def Reachable (c : Context) (u : SummaryTable) (x : Symbol) (f : Flow) (a : Position)
    (queue : List (Int × Nat)) : Prop :=
  ∀ n k, (n, k) ∈ queue → f.scope.procedure.hasNode n = true →
    k ≤ (f.scope.procedure.instrsAt n).length ∧ Uncut c u f x a ⟨n, k⟩

/-- What a search of the graph answers is borne out by a walk without resets from its start. -/
theorem explore_shows {a : Position} (steps : Nat) {queue : List (Int × Nat)} (seen : List Int)
    {escaped : Bool} (hqueue : Reachable c u x f a queue)
    (hescaped : escaped = true → c.Escapes u f x a) :
    Passage.Shows (ReadsFrom c u x fuel active f a) (c.Escapes u f x a)
      ((explore f.scope.procedure (passWithin c x fuel active f) steps queue seen escaped).run
        u).1 := by
  have hstop : ∀ {escaped : Bool}, (escaped = true → c.Escapes u f x a) →
      Passage.Shows (ReadsFrom c u x fuel active f a) (c.Escapes u f x a)
        (if escaped then .through else .reset) := by
    intro escaped hescaped
    cases escaped with
    | true => exact hescaped rfl
    | false => trivial
  induction steps generalizing queue seen escaped with
  | zero => exact hstop hescaped
  | succ steps ih =>
    match queue with
    | [] => exact hstop hescaped
    | (id, skip) :: queue =>
      have hrest : Reachable c u x f a queue :=
        fun n k hnk => hqueue n k (List.mem_cons_of_mem _ hnk)
      cases hnode : f.scope.procedure.node? id with
      | none =>
        rw [explore, hnode]
        exact ih seen hrest hescaped
      | some n =>
        have hhas := Procedure.hasNode_iff.mpr ⟨n, hnode⟩
        obtain ⟨hskip, hcut⟩ := hqueue id skip List.mem_cons_self hhas
        have hshows : Passage.Shows _ _
            ((passWithin c x fuel active f (f.scope.procedure.handlesFrom id skip)).run u).1 :=
          passWithin_shows hc hu hskip
        have hsteady : Steady c (passWithin c x fuel active f
            (f.scope.procedure.handlesFrom id skip)) :=
          steady_passWithin hc (fun active q => steady_searchWithin hc fuel active false none q)
            active f _
        have hsame := hsteady.run_eq hu
        rw [explore_cons_run hnode, hsame]
        revert hshows
        generalize ((passWithin c x fuel active f
          (f.scope.procedure.handlesFrom id skip)).run u).1 = r
        intro hshows
        cases r with
        | read => exact ReadsFrom.after hcut hshows
        | reset => exact ih seen hrest hescaped
        | through =>
          have hend : Uncut c u f x a ⟨id, (f.scope.procedure.instrsAt id).length⟩ :=
            hcut.trans hshows
          have hsucc : f.scope.procedure.successors id = n.succs := by
            simp [Procedure.successors, hnode]
          apply ih
          · intro m k hmk hm
            rcases List.mem_append.mp hmk with hmk | hmk
            · exact hrest m k hmk hm
            · obtain ⟨m', hm', heq⟩ := List.mem_map.mp hmk
              cases heq
              have hleads : f.scope.procedure.LeadsTo id m := by
                rw [Procedure.LeadsTo, hsucc]
                exact mem_distinct.mp (List.mem_filter.mp hm').1
              exact ⟨Nat.zero_le _, hend.move hleads hm⟩
          · intro hescaped'
            rcases Bool.or_eq_true_iff.mp hescaped' with hescaped' | hnil
            · exact hescaped hescaped'
            · exact ⟨id, hend, hhas, by rw [hsucc]; simpa using hnil⟩

theorem askWithin_run (q : String) : (askWithin c x fuel active q).run u =
    (searchWithin c x fuel active false none q).run u := by
  rw [askWithin, run_bind, (Steady.request hc q).run_eq hu]

omit hc in
theorem exists_of_anyOf {ask : String → StateM SummaryTable Bool} (hask : ∀ q, Steady c (ask q))
    {names : List String} (h : ((anyOf ask names).run u).1 = true) :
    ∃ q ∈ names, ((ask q).run u).1 = true := by
  induction names with
  | nil => cases h
  | cons name names ih =>
    cases hname : ((ask name).run u).1 with
    | true => exact ⟨name, List.mem_cons_self, hname⟩
    | false =>
      have hsame := (hask name).run_eq hu
      rw [hname] at hsame
      rw [anyOf, run_bind, hsame] at h
      obtain ⟨q, hq, hread⟩ := ih h
      exact ⟨q, List.mem_cons_of_mem name hq, hread⟩

end Found

def startPosition (p : Procedure) (after : Option StatementId) : Position :=
  ⟨(startOf p after).1, (startOf p after).2⟩

theorem startOf_le (p : Procedure) (after : Option StatementId) :
    (startOf p after).2 ≤ (p.instrsAt (startOf p after).1).length := by
  unfold startOf
  split
  · rename_i s
    split
    · rename_i hs
      obtain ⟨i, hi⟩ := Procedure.contains_iff.mp hs
      obtain ⟨n, k, rfl, hk⟩ := Procedure.exists_of_instrAt? hi
      exact (List.getElem?_eq_some_iff.mp hk).1
    · exact Nat.zero_le _
  · exact Nat.zero_le _

theorem reachable_start (f : Flow) (after : Option StatementId) :
    Reachable c u x f (startPosition f.scope.procedure after)
      [startOf f.scope.procedure after] := by
  intro n k hnk _
  have heq : startOf f.scope.procedure after = (n, k) := (List.mem_singleton.mp hnk).symm
  have hle := startOf_le f.scope.procedure after
  unfold startPosition
  rw [heq] at hle ⊢
  exact ⟨hle, .here⟩

/-- A statement that is found to read exposes the symbol, if what is found one level below is
exposed from the entry there. -/
theorem ReadsFrom.exposes (hc : c.Coherent) {fuel : Nat} {active : List String}
    (hasked : ∀ {q : String}, ((askWithin c x fuel active q).run u).1 = true →
      ∃ f, c.flow? q = some f ∧ c.Exposes u x q ⟨f.scope.procedure.entry, 0⟩)
    {name : String} {f : Flow} (hflow : c.flow? name = some f) {a : Position}
    (h : ReadsFrom c u x fuel active f a) : c.Exposes u x name a := by
  obtain ⟨n, k, hcut, hread⟩ := h
  rw [Context.flow?_name hflow] at hread
  unfold readsAt at hread
  split at hread
  · rename_i hdirect
    exact .read hflow hcut (by simpa using hdirect)
  · split at hread
    · rename_i q hq
      obtain ⟨f', hflow', hexposes⟩ := hasked hread
      rw [hc.flow?_selfCallee hq, Option.some.injEq] at hflow'
      subst hflow'
      exact .call hflow hcut hq hexposes
    · cases hread

/-- A search answers yes only where the symbol is exposed. -/
theorem exposes_of_search (hc : c.Coherent) (hu : c.Summarised u) {fuel : Nat}
    {active : List String} {escalate : Bool} {after : Option StatementId} {name : String}
    (h : ((searchWithin c x fuel active escalate after name).run u).1 = true) :
    ∃ f, c.flow? name = some f ∧ (c.Exposes u x name (startPosition f.scope.procedure after) ∨
      escalate = true ∧ c.Escapes u f x (startPosition f.scope.procedure after) ∧
      ∃ q ∈ successors c f.scope.procedure x, ∃ f', c.flow? q = some f' ∧
        c.Exposes u x q ⟨f'.scope.procedure.entry, 0⟩) := by
  induction fuel generalizing active escalate after name with
  | zero => cases h
  | succ fuel ih =>
    cases hflow : c.flow? name with
    | none =>
      simp only [searchWithin, hflow] at h
      cases h
    | some f =>
      refine ⟨f, rfl, ?_⟩
      have hactive : name ∉ active := by
        intro hmem
        simp only [searchWithin, hflow, List.contains_iff_mem, hmem, if_true] at h
        cases h
      have hbelow : ∀ active q, Steady c (searchWithin c x fuel active false none q) :=
        fun _ _ => steady_searchWithin hc _ _ _ _ _
      have hasked : ∀ {q : String}, ((askWithin c x fuel (name :: active) q).run u).1 = true →
          ∃ f', c.flow? q = some f' ∧ c.Exposes u x q ⟨f'.scope.procedure.entry, 0⟩ := by
        intro q hq
        rw [askWithin_run hc hu] at hq
        obtain ⟨f', hflow', hexposes | ⟨hno, _⟩⟩ := ih hq
        · exact ⟨f', hflow', hexposes⟩
        · cases hno
      have hshows : Passage.Shows _ _
          ((exploreWithin c x fuel (name :: active) f after).run u).1 :=
        explore_shows hc hu (f.scope.procedure.edgeCount + 2) [] (reachable_start f after)
          Bool.false_ne_true.elim
      have hsteady : Steady c (exploreWithin c x fuel (name :: active) f after) :=
        steady_exploreWithin hc hbelow (name :: active) f after
      rw [searchWithin_succ hflow hactive, run_bind, hsteady.run_eq hu] at h
      revert h hshows
      generalize ((exploreWithin c x fuel (name :: active) f after).run u).1 = r
      intro h hshows
      cases r with
      | read => exact Or.inl (ReadsFrom.exposes hc hasked hflow hshows)
      | reset => cases h
      | through =>
        right
        cases escalate with
        | false => cases h
        | true =>
          have hask := steady_askWithin hc hbelow (name :: active)
          obtain ⟨q, hq, hread⟩ := exists_of_anyOf hu hask h
          exact ⟨rfl, hshows, q, hq, hasked hread⟩

/-! ### Searches for what is exposed -/

section Complete
variable {p : Procedure} (hc : c.Coherent) (hp : c.program.find? p.name = some p)
  (hfree : ¬ c.Entered p)

include hp hfree

theorem callee_ne {name : String} {f : Flow} (hflow : c.flow? name = some f) {id : StatementId}
    {q : Procedure} (hcallee : c.selfCallee? f id = some q) : q.name ≠ p.name := by
  intro heq
  have hfound := Summary.find?_self_of_selfCallee? hcallee
  rw [heq, hp, Option.some.injEq] at hfound
  exact hfree ⟨name, f, id, hflow, hfound ▸ hcallee⟩

include hc

/-- A procedure other than `p` that exposes the symbol does so in some number of nested calls, and
none of them enters `p`. -/
theorem exists_exposes {name : String} {a : Position} (h : c.Exposes u x name a) {f : Flow}
    (hflow : c.flow? name = some f) (ha : a = ⟨f.scope.procedure.entry, 0⟩) (hne : name ≠ p.name) :
    ∃ r, Exposes c u x p.name r name := by
  induction h generalizing f with
  | @read name f' a n k hflow' hcut hread =>
    obtain rfl := Option.some.inj (hflow.symm.trans hflow')
    obtain ⟨i, hi⟩ := exists_instr_of_read hc hflow hread
    exact ⟨0, hne, f, n, k, i, hflow, ha ▸ hcut, hi, hread⟩
  | @call name f' a n k q hflow' hcut hcallee _ ih =>
    obtain rfl := Option.some.inj (hflow.symm.trans hflow')
    obtain ⟨r, hr⟩ := ih (hc.flow?_selfCallee hcallee) rfl (callee_ne hp hfree hflow hcallee)
    exact ⟨r + 1, hne, f, n, k, q, hflow, ha ▸ hcut, hcallee, hr⟩

/-- While only `p` is active, a search from the entry of another procedure finds what is exposed. -/
theorem search_below_ne_false {q : Procedure}
    (hflow : c.flow? q.name = some (Flow.ofScope ⟨q, c.program.library⟩))
    (hne : q.name ≠ p.name) (h : c.Exposes u x q.name ⟨q.entry, 0⟩) :
    (searchWithin c x c.program.procedures.length [p.name] false none q.name).run u ≠
      (false, u) := by
  -- a derivation of least depth enters no procedure twice, so the fuel lasts and nothing is active
  obtain ⟨r, hr⟩ := exists_exposes hc hp hfree h hflow rfl hne
  obtain ⟨r, hrank⟩ := exists_rank hr
  exact searchWithin_ne_false hc hrank (hrank.lt_procedures hc)
    fun a ha => Or.inl (List.mem_singleton.mp ha)

theorem search_ne_false_of_exposes {escalate : Bool} {after : Option StatementId}
    (h : c.Exposes u x p.name (startPosition p after)) :
    (searchWithin c x (c.program.procedures.length + 1) [] escalate after p.name).run u ≠
      (false, u) := by
  intro hrun
  have hflow₀ := hc.flow?_eq_some.mpr ⟨p, hp, rfl⟩
  cases h with
  | read hflow hcut hread =>
    obtain rfl := Option.some.inj (hflow₀.symm.trans hflow)
    obtain ⟨i, hi⟩ := exists_instr_of_read hc hflow hread
    exact ((searchWithin_false hc hflow List.not_mem_nil hrun hcut).1 i hi).1 hread
  | @call _ _ _ _ _ q hflow hcut hcallee hq =>
    obtain rfl := Option.some.inj (hflow₀.symm.trans hflow)
    obtain ⟨i, _, hi, _⟩ := Summary.callAt?_of_selfCallee? hcallee
    have hask := ((searchWithin_false hc hflow List.not_mem_nil hrun hcut).1 i hi).2 q hcallee
    exact search_below_ne_false hc hp hfree (hc.flow?_selfCallee hcallee)
      (callee_ne hp hfree hflow hcallee) hq hask

theorem search_ne_false_of_escapes {after : Option StatementId}
    (hescape : c.Escapes u (Flow.ofScope ⟨p, c.program.library⟩) x (startPosition p after))
    {q : Procedure} (hq : c.program.find? q.name = some q)
    (hmem : q.name ∈ successors c p x) (hne : q.name ≠ p.name)
    (h : c.Exposes u x q.name ⟨q.entry, 0⟩) :
    (searchWithin c x (c.program.procedures.length + 1) [] true after p.name).run u ≠
      (false, u) := by
  intro hrun
  have hflow := hc.flow?_eq_some.mpr ⟨p, hp, rfl⟩
  obtain ⟨n, hcut, hend⟩ := hescape
  have hask := (searchWithin_false hc hflow List.not_mem_nil hrun hcut).2 rfl rfl hend q.name hmem
  exact search_below_ne_false hc hp hfree (hc.flow?_eq_some.mpr ⟨q, hq, rfl⟩) hne h hask

end Complete

theorem exists_of_mem_successors {g : Program} (hg : g.Distinct) {p : Procedure} {name : String}
    (h : name ∈ successors (.ofProgram g) p x) :
    x.owner ≠ "" ∧ p.className = some x.owner ∧ ∃ q ∈ g.procedures, q.name = name ∧
      g.find? name = some q ∧ q.className = some x.owner ∧ q.name ≠ p.name ∧
      q.isConstructor = false := by
  unfold successors at h
  split at h
  · rename_i cls hcls
    split at h
    · rename_i hcond
      simp only [ne_eq, Bool.and_eq_true, decide_eq_true_eq] at hcond
      obtain ⟨hnamed, rfl⟩ := hcond
      obtain ⟨q, hq, rfl⟩ := List.mem_map.mp h
      obtain ⟨hq, hother⟩ := List.mem_filter.mp hq
      obtain ⟨hmem, hclass⟩ := List.mem_filter.mp hq
      simp only [ne_eq, decide_not, Bool.and_eq_true, Bool.not_eq_true',
        decide_eq_false_iff_not] at hother
      exact ⟨hnamed, hcls, q, hmem, rfl, Program.find?_of_mem hg hmem, by simpa using hclass,
        hother.1, hother.2⟩
    · cases h
  · cases h

end Liveness

/-- With all summaries made, and for a procedure that no call on its own object enters, the answer
is yes if and only if the procedure exposes the field from just behind the statement (from its entry
when there is none), or a walk without resets leaves it from there and another method of its class
exposes the field from its entry. A class must have a name. -/
theorem isReadBeforeReset_iff_exposes (g : Program) (hg : g.Distinct) (names : List String)
    (hall : ∀ q ∈ g.procedures,
      (SummaryTable.asked (.ofProgram g) names).contains q.name = true)
    {p : Procedure} (hp : p ∈ g.procedures) (hfree : ¬ (Context.ofProgram g).Entered p) {x : Symbol}
    (hx : x.isField = true) (after : Option StatementId) :
    ((Liveness.isReadBeforeReset (.ofProgram g) x p.name after true).run
      (SummaryTable.asked (.ofProgram g) names)).1 = true ↔
    (Context.ofProgram g).Exposes (SummaryTable.asked (.ofProgram g) names) x p.name
      (Liveness.startPosition p after) ∨
    (Context.ofProgram g).Escapes (SummaryTable.asked (.ofProgram g) names)
      (Flow.ofScope ⟨p, g.library⟩) x (Liveness.startPosition p after) ∧
      x.owner ≠ "" ∧ p.className = some x.owner ∧
      ∃ q ∈ g.procedures, q.className = some x.owner ∧ q.name ≠ p.name ∧ q.isConstructor = false ∧
        (Context.ofProgram g).Exposes (SummaryTable.asked (.ofProgram g) names) x q.name
          ⟨q.entry, 0⟩ := by
  have hc := Context.coherent_ofProgram g
  have hfind : g.find? p.name = some p := Program.find?_of_mem hg hp
  have hfull : (Context.ofProgram g).Summarised (SummaryTable.asked (.ofProgram g) names) := by
    intro name f hflow
    obtain ⟨q, hq, _⟩ := hc.flow?_eq_some.mp hflow
    have hname := Program.find?_name hq
    exact hname ▸ hall q (List.mem_of_find?_eq_some hq)
  generalize SummaryTable.asked (.ofProgram g) names = t at hfull
  rw [Liveness.isReadBeforeReset, if_pos hx]
  constructor
  · intro h
    obtain ⟨f, hflow, hexposes | ⟨_, hescape, name, hname, f', hflow', hexposes⟩⟩ :=
      Liveness.exposes_of_search hc hfull h
    · obtain ⟨_, hq, rfl⟩ := hc.flow?_eq_some.mp hflow
      obtain rfl := Option.some.inj (hfind.symm.trans hq)
      exact Or.inl hexposes
    · obtain ⟨_, hq, rfl⟩ := hc.flow?_eq_some.mp hflow
      obtain rfl := Option.some.inj (hfind.symm.trans hq)
      obtain ⟨hnamed, hclass, q, hqmem, rfl, hqfind, hqclass, hne, hctor⟩ :=
        Liveness.exists_of_mem_successors hg hname
      obtain ⟨_, hq', rfl⟩ := hc.flow?_eq_some.mp hflow'
      obtain rfl := Option.some.inj (hqfind.symm.trans hq')
      exact Or.inr ⟨hescape, hnamed, hclass, q, hqmem, hqclass, hne, hctor, hexposes⟩
  · intro h
    have hsteady : Steady (.ofProgram g) (Liveness.searchWithin (.ofProgram g) x
        ((Context.ofProgram g).program.procedures.length + 1) [] true after p.name) :=
      Liveness.steady_searchWithin hc _ [] true after p.name
    have hsame := hsteady.run_eq hfull
    cases hb : ((Liveness.searchWithin (.ofProgram g) x
      ((Context.ofProgram g).program.procedures.length + 1) [] true after p.name).run t).1 with
    | true => rfl
    | false =>
      rw [hb] at hsame
      rcases h with hexposes | ⟨hescape, hnamed, hclass, q, hq, hqclass, hne, hctor, hexposes⟩
      · exact absurd hsame (Liveness.search_ne_false_of_exposes hc hfind hfree hexposes)
      · have hqfind := Program.find?_of_mem hg hq
        exact absurd hsame (Liveness.search_ne_false_of_escapes hc hfind hfree hescape hqfind
          (Liveness.mem_successors hqfind hnamed hclass hqclass hne hctor) hne hexposes)

/-- Gives up a field in a loop, and calls `ping` at its start. -/
def spinner : Procedure :=
  methodOf "A.spin" []
    [{ id := 0, preds := [0], succs := [0]
       instrs := [selfCall "ping" [], sendCall (selfField "f")] }]

def pinger : Procedure := methodOf "A.ping" [] [{ id := 0, instrs := [selfCall "pong" []] }]

/-- Calls `ping` again, or reads the field. -/
def ponger : Procedure :=
  methodOf "A.pong" []
    [{ id := 0, succs := [1, 2] }, { id := 1, preds := [0], instrs := [selfCall "ping" []] },
      { id := 2, preds := [0], instrs := [printCall (selfField "f")] }]

def spinning : Program where
  procedures := [spinner, pinger, ponger]

theorem not_entered_spinner : ¬ (Context.ofProgram spinning).Entered spinner := by
  have hcalls : ∀ p ∈ spinning.procedures, ∀ n ∈ p.nodes, ∀ i ∈ n.instrs,
      (i.action.invocation?.bind fun v => (spinning.resolveCallee v p).map Procedure.name) ≠
        some "A.spin" := by decide +kernel
  intro h
  obtain ⟨p, hp, n, hn, i, hi, v, hv, hcallee⟩ := h.exists_instr
  apply hcalls p hp n hn i hi
  rw [hv, Option.bind_some, hcallee]
  rfl

/-- The way to the read goes back to the start of the loop, before the statement that it starts
behind. -/
theorem isReadBeforeReset_iff_exposes_spinning :
    ((Liveness.isReadBeforeReset (.ofProgram spinning) ⟨"f", .field, "A"⟩ "A.spin"
      (some ⟨"A.spin", 0, 1⟩) true).run
        (SummaryTable.asked (.ofProgram spinning) ["A.pong", "A.ping", "A.spin"])).1 = true := by
  have hc := Context.coherent_ofProgram spinning
  have hall : ∀ q ∈ spinning.procedures, (SummaryTable.asked (.ofProgram spinning)
      ["A.pong", "A.ping", "A.spin"]).contains q.name = true := by
    intro q hq
    apply SummaryTable.contains_asked hc (p := q)
    · exact Program.find?_of_mem (by unfold Program.Distinct; decide) hq
    · revert q
      decide
  refine (isReadBeforeReset_iff_exposes spinning (by unfold Program.Distinct; decide) _ hall
    List.mem_cons_self not_entered_spinner rfl (some ⟨"A.spin", 0, 1⟩)).mpr (Or.inl ?_)
  refine .call (q := pinger) rfl (Uncut.here.move (n := 0) List.mem_cons_self rfl) rfl ?_
  refine .call (q := ponger) rfl .here rfl ?_
  refine .read (n := 2) (k := 0) rfl
    (Uncut.here.move (List.mem_cons_of_mem 1 List.mem_cons_self) rfl) ?_
  rw [Flow.readsAt, Flow.fact?_ofScope]
  exact List.mem_cons_self

end ActorOwnership
