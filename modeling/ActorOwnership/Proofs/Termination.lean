import ActorOwnership.Proofs.Explore
import ActorOwnership.Proofs.Recursion

/-! Requests to the table of summaries come to an end. The programs below keep the names whose
summaries are being made in the state, write a new summary over an entry of its name, and ask for
every summary that they look at. Nothing in them makes them end: they are cut off at some depth of
calls, and have no result then. A run comes to an end if it has one and the same result at all
depths from some depth on. All requests do, with the result of the request to the table; no name is
then left in progress, and no entry has been written over. -/

namespace ActorOwnership
set_option autoImplicit false

open SummaryTable (Built Requests Idle Served)

/-- The summaries that are finished, the names of those that are being made, and all that has ever
been written to the table. -/
structure Progress where
  table : SummaryTable := []
  making : List String := []
  written : List Summary := []

namespace Progress

def enter (s : Progress) (name : String) : Progress := { s with making := name :: s.making }

/-- Writes a finished summary, over the entry of its name if there is one. -/
def finish (s : Progress) (name : String) (r : Summary) : Progress where
  table := if s.table.contains name then s.table.map fun e => if e.procedure == name then r else e
    else s.table ++ [r]
  making := s.making.erase name
  written := s.written ++ [r]

/-- The names on the path are being made, and what has been written is what is in the table. -/
def during (path : List String) (t : SummaryTable) : Progress := ⟨t, path, t⟩

theorem enter_during (path : List String) (t : SummaryTable) (name : String) :
    (during path t).enter name = during (name :: path) t := rfl

theorem finish_during {path : List String} {t : SummaryTable} {name : String} (r : Summary)
    (h : t.find? name = none) :
    (during (name :: path) t).finish name r = during path (t ++ [r]) := by
  have habsent : t.contains name = false := SummaryTable.find?_eq_none_iff.mp h
  simp only [finish, during, habsent, Bool.false_eq_true, if_false, List.erase_cons_head]

end Progress

/-- Computations on the table that may be cut off. -/
abbrev Asking := StateT Progress Option

/-! ### Summaries -/

mutual

/-- The summary of a name. While it is being made, a request for it gets a blank one. -/
def summaryOf (c : Context) : Nat → String → Asking Summary
  | 0, _ => failure
  | depth + 1, name => do
    let s ← get
    match s.table.find? name, c.program.find? name, c.flow? name with
    | some r, _, _ => return r
    | none, some p, some flow =>
      if s.making.contains name then return Summary.blank p
      else
        modify fun s => s.enter name
        let r ← summarise c depth flow
        modify fun s => s.finish name r
        return r
    | none, _, _ => return { procedure := name }

def summarise (c : Context) : Nat → Flow → Asking Summary
  | 0, _ => failure
  | depth + 1, flow => do
    let p := flow.scope.procedure
    let (s, fields) ← p.statements.foldlM (gatherAt c depth flow) (Summary.blank p, [])
    let candidates := union fields (s.fieldWrites.map Prod.fst)
    let resets ← candidates.filterM fun x =>
      not <$> escapesFrom c depth flow x [p.entry] [p.entry]
    return { s with resets }

def gatherAt (c : Context) : Nat → Flow → Summary × List Symbol → StatementId × Instr →
    Asking (Summary × List Symbol)
  | 0, _, _, _ => failure
  | depth + 1, flow, x, st =>
    let s := x.1.addStatement flow st.1 st.2.action
    match c.callAt? flow st.2 with
    | none => return (s, x.2)
    | some (v, callee) => do
      let r ← summaryOf c depth callee.name
      return (s.addCallee flow st.1 v r, union x.2 (Summary.calleeResets flow v r))

/-- Whether some way from the queue leads to an end without a statement that replaces the field. -/
def escapesFrom (c : Context) : Nat → Flow → Symbol → List Int → List Int → Asking Bool
  | 0, _, _, _, _ => failure
  | _ + 1, _, _, [], _ => return false
  | depth + 1, flow, x, id :: queue, seen =>
    match flow.scope.procedure.node? id with
    | none => escapesFrom c depth flow x queue seen
    | some n => do
      if ← ((flow.scope.procedure.statementsOf n).map Prod.fst).anyM (replaces c depth flow x) then
        escapesFrom c depth flow x queue seen
      else if n.succs.isEmpty then return true
      else
        let new := (distinct n.succs).filter fun s => !seen.contains s
        escapesFrom c depth flow x (queue ++ new) (seen ++ new)

def replaces (c : Context) : Nat → Flow → Symbol → StatementId → Asking Bool
  | 0, _, _, _ => failure
  | depth + 1, flow, x, id =>
    if flow.resets x id then return true
    else match c.selfCallee? flow id with
      | none => return false
      | some callee => do
        let r ← summaryOf c depth callee.name
        return r.resets.contains x

end

/-! ### Searches -/

mutual

/-- Whether some way from behind a statement, or from the entry, reads a field before it replaces
it. -/
def readBeforeReset (c : Context) (x : Symbol) :
    Nat → List String → Bool → Option StatementId → String → Asking Bool
  | 0, _, _, _, _ => failure
  | depth + 1, active, escalate, after, name =>
    match c.flow? name with
    | none => return false
    | some f =>
      if !x.isField || active.contains name then return false
      else do
        let start := Liveness.startOf f.scope.procedure after
        match ← followFrom c x depth f (name :: active) [start] [] false with
        | .read => return true
        | .reset => return false
        | .through =>
          if escalate then
            (Liveness.successors c f.scope.procedure x).anyM (entered c x depth (name :: active))
          else return false

/-- The search from the entry of another procedure, whose summary is asked for first. -/
def entered (c : Context) (x : Symbol) : Nat → List String → String → Asking Bool
  | 0, _, _ => failure
  | depth + 1, active, name => do
    let _ ← summaryOf c depth name
    readBeforeReset c x depth active false none name

def followFrom (c : Context) (x : Symbol) :
    Nat → Flow → List String → List (Int × Nat) → List Int → Bool → Asking Liveness.Passage
  | 0, _, _, _, _, _ => failure
  | _ + 1, _, _, [], _, escaped => return if escaped then .through else .reset
  | depth + 1, f, active, (id, skip) :: queue, seen, escaped =>
    match f.scope.procedure.node? id with
    | none => followFrom c x depth f active queue seen escaped
    | some n => do
      match ← passFrom c x depth f active
        (((f.scope.procedure.statementsOf n).map Prod.fst).drop skip) with
      | .read => return .read
      | .reset => followFrom c x depth f active queue seen escaped
      | .through =>
        let new := (distinct n.succs).filter fun s => !seen.contains s
        followFrom c x depth f active (queue ++ new.map fun s => (s, 0)) (seen ++ new)
          (escaped || n.succs.isEmpty)

def passFrom (c : Context) (x : Symbol) :
    Nat → Flow → List String → List StatementId → Asking Liveness.Passage
  | 0, _, _, _ => failure
  | _ + 1, _, _, [] => return .through
  | depth + 1, f, active, id :: rest => do
    if ← readsField c x depth f active id then return .read
    else if ← replaces c depth f x id then return .reset
    else passFrom c x depth f active rest

def readsField (c : Context) (x : Symbol) :
    Nat → Flow → List String → StatementId → Asking Bool
  | 0, _, _, _ => failure
  | depth + 1, f, active, id =>
    if (f.readsAt id).contains x then return true
    else match c.selfCallee? f id with
      | some callee => entered c x depth active callee.name
      | none => return false

end

/-! ### Runs that come to an end -/

section Runs
variable {α β : Type}

/-- From some depth on, the run is not cut off and has this result. -/
def Terminates (s : Progress) (m : Nat → Asking α) (r : α × Progress) : Prop :=
  ∃ limit, ∀ depth, limit ≤ depth → (m depth).run s = some r

/-- The run ends with an answer and leaves the state as it is. -/
abbrev Answers (s : Progress) (m : Nat → Asking α) (a : α) : Prop := Terminates s m (a, s)

/-- While the names on the path are being made, the run ends with the answer and the table of a
request. -/
abbrev Agrees (path : List String) (t : SummaryTable) (m : Nat → Asking α)
    (b : StateM SummaryTable α) : Prop :=
  Terminates (.during path t) m ((b.run t).1, .during path (b.run t).2)

theorem run_get_bind (k : Progress → Asking α) (s : Progress) :
    ((get : Asking Progress) >>= k).run s = (k s).run s := rfl

theorem run_modify_bind (f : Progress → Progress) (k : Unit → Asking α) (s : Progress) :
    ((modify f : Asking Unit) >>= k).run s = (k ()).run (f s) := rfl

namespace Terminates
variable {s s' : Progress} {m : Nat → Asking α} {k : Nat → α → Asking β} {a : α}
  {r : β × Progress}

theorem of_pure (a : α) : Terminates s (fun _ => pure a) (a, s) :=
  ⟨0, fun _ _ => rfl⟩

/-- It is enough to look at the depths at which the first call is made. -/
theorem of_succ {m : Nat → Asking β} (h : Terminates s (fun depth => m (depth + 1)) r) :
    Terminates s m r := by
  obtain ⟨limit, hlimit⟩ := h
  refine ⟨limit + 1, fun depth hdepth => ?_⟩
  obtain ⟨d, rfl⟩ := Nat.exists_eq_add_of_le' hdepth
  exact hlimit (d + limit) (Nat.le_add_left limit d)

theorem bind (h : Terminates s m (a, s')) (hk : Terminates s' (fun depth => k depth a) r) :
    Terminates s (fun depth => m depth >>= k depth) r := by
  obtain ⟨first, hfirst⟩ := h
  obtain ⟨second, hsecond⟩ := hk
  refine ⟨max first second, fun depth hdepth => ?_⟩
  obtain ⟨hle, hle'⟩ := Nat.max_le.mp hdepth
  rw [StateT.run_bind, hfirst depth hle]
  exact hsecond depth hle'

end Terminates

namespace Answers
variable {s : Progress}

theorem anyM {p : Nat → α → Asking Bool} {b : α → Bool} {xs : List α}
    (h : ∀ x ∈ xs, Answers s (fun depth => p depth x) (b x)) :
    Answers s (fun depth => xs.anyM (p depth)) (xs.any b) := by
  induction xs with
  | nil => exact .of_pure false
  | cons x xs ih =>
    simp only [List.anyM_cons, List.any_cons]
    refine (h x List.mem_cons_self).bind ?_
    cases b x with
    | true => exact .of_pure true
    | false => exact ih fun y hy => h y (List.mem_cons_of_mem x hy)

theorem filterM {p : Nat → Symbol → Asking Bool} {b : Symbol → Bool} {xs : List Symbol}
    (h : ∀ x ∈ xs, Answers s (fun depth => p depth x) (b x)) :
    Answers s (fun depth => xs.filterM (p depth)) (xs.filter b) := by
  have haux : ∀ kept : List Symbol, Answers s (fun depth => xs.filterAuxM (p depth) kept)
      ((xs.filter b).reverse ++ kept) := by
    induction xs with
    | nil => exact fun kept => .of_pure kept
    | cons x xs ih =>
      intro kept
      simp only [List.filterAuxM]
      refine (h x List.mem_cons_self).bind ?_
      have hrest := ih fun y hy => h y (List.mem_cons_of_mem x hy)
      cases hx : b x with
      | true => simpa [hx] using hrest (x :: kept)
      | false => simpa [hx] using hrest kept
  simp only [List.filterM]
  refine (haux []).bind ?_
  rw [List.append_nil, List.reverse_reverse]
  exact .of_pure _

end Answers

namespace Agrees
variable {path : List String} {t : SummaryTable}

theorem bind {m : Nat → Asking α} {b : StateM SummaryTable α} {k : Nat → α → Asking β}
    {l : α → StateM SummaryTable β} (h : Agrees path t m b)
    (hk : ∀ a u, b.run t = (a, u) → Agrees path u (fun depth => k depth a) (l a)) :
    Agrees path t (fun depth => m depth >>= k depth) (b >>= l) :=
  Terminates.bind h (hk _ _ rfl)

theorem mapM {m : Nat → α → Asking β} {b : α → StateM SummaryTable β}
    (h : ∀ x t, Agrees path t (fun depth => m depth x) (b x)) (xs : List α) (t : SummaryTable) :
    Agrees path t (fun depth => xs.mapM (m depth)) (xs.mapM b) := by
  induction xs generalizing t with
  | nil => exact .of_pure []
  | cons x xs ih =>
    simp only [List.mapM_cons]
    refine (h x t).bind fun y u _ => ?_
    exact (ih u).bind fun ys v _ => .of_pure (y :: ys)

end Agrees

end Runs

/-! ### Searches that meet everything once -/

/-- What is left of a search that queues each node at most once, or of a descent that enters each
name at most once. -/
structure Bounded {α : Type} (nodes : List α) (fuel queued : Nat) (seen : List α) : Prop where
  nodup : seen.Nodup
  known : seen ⊆ nodes
  budget : nodes.length + queued + 1 ≤ fuel + seen.length

namespace Bounded

section Descent
variable {α : Type} {nodes seen : List α} {fuel queued : Nat}

theorem start (nodes : List α) : Bounded nodes (nodes.length + 1) 0 [] :=
  ⟨List.nodup_nil, List.nil_subset _, Nat.le_refl _⟩

theorem ne_zero (h : Bounded nodes fuel queued seen) : fuel ≠ 0 := by
  have hlen := length_le_of_subset h.nodup h.known
  have hbudget := h.budget
  omega

theorem enter (h : Bounded nodes (fuel + 1) queued seen) {a : α} (ha : a ∈ nodes)
    (hnew : a ∉ seen) : Bounded nodes fuel queued (a :: seen) := by
  refine ⟨List.nodup_cons.mpr ⟨hnew, h.nodup⟩, List.cons_subset.mpr ⟨ha, h.known⟩, ?_⟩
  have hbudget := h.budget
  rw [List.length_cons]
  omega

end Descent

variable {nodes seen : List Int} {fuel queued : Nat}

theorem pop (h : Bounded nodes (fuel + 1) (queued + 1) seen) : Bounded nodes fuel queued seen := by
  have hbudget := h.budget
  exact ⟨h.nodup, h.known, by omega⟩

theorem push (h : Bounded nodes (fuel + 1) (queued + 1) seen) {succs : List Int}
    (hsuccs : succs ⊆ nodes) :
    let new := (distinct succs).filter fun s => !seen.contains s
    Bounded nodes fuel (queued + new.length) (seen ++ new) := by
  intro new
  have hnew : ∀ m ∈ new, m ∈ succs ∧ m ∉ seen := by
    intro m hm
    obtain ⟨hm, hseen⟩ := List.mem_filter.mp hm
    exact ⟨mem_distinct.mp hm, by simpa using hseen⟩
  refine ⟨?_, ?_, ?_⟩
  · refine List.nodup_append.mpr ⟨h.nodup, (nodup_distinct _).filter _, ?_⟩
    rintro a ha b hb rfl
    exact (hnew a hb).2 ha
  · exact List.append_subset.mpr ⟨h.known, fun m hm => hsuccs (hnew m hm).1⟩
  · have hbudget := h.budget
    rw [List.length_append]
    omega

end Bounded

theorem Procedure.succs_subset_targets {p : Procedure} {id : Int} {n : Node}
    (h : p.node? id = some n) : n.succs ⊆ p.targets := by
  have hsub := p.successors_subset_targets id
  rwa [successors, h] at hsub

namespace Context
variable {c : Context}

def procedureNames (c : Context) : List String := c.program.procedures.map Procedure.name

theorem length_procedureNames : c.procedureNames.length = c.program.procedures.length :=
  List.length_map _

theorem Coherent.mem_procedureNames (hc : c.Coherent) {name : String} {f : Flow}
    (h : c.flow? name = some f) : name ∈ c.procedureNames := by
  obtain ⟨p, hp, -⟩ := hc.flow?_eq_some.mp h
  exact List.mem_map.mpr ⟨p, List.mem_of_find?_eq_some hp, Program.find?_name hp⟩

end Context

/-! ### Summaries agree -/

section Summaries
variable {c : Context} {flow : Flow} {name : String} {s : Progress} {path : List String}
  {t : SummaryTable}

/-- A name that has an entry, is being made or is unknown is answered at once. -/
theorem summaryOf_settled (hc : c.Coherent)
    (h : s.table.contains name = true ∨ name ∈ s.making ∨ c.flow? name = none) :
    Answers s (fun depth => summaryOf c depth name) (s.table.answer c name) := by
  refine .of_succ ⟨0, fun depth _ => ?_⟩
  simp only [summaryOf]
  rw [run_get_bind]
  cases hname : s.table.find? name with
  | some r =>
    rw [SummaryTable.answer_of_find? hname]
    rfl
  | none =>
    rw [SummaryTable.answer_of_absent hname]
    cases hp : c.program.find? name with
    | none => rfl
    | some p =>
      have hflow : c.flow? name = some (Flow.ofScope ⟨p, c.program.library⟩) := by
        rw [hc, hp, Option.map_some]
      have hmaking : name ∈ s.making := by
        rw [SummaryTable.find?_eq_none_iff.mp hname, hflow] at h
        simpa using h
      simp only [hflow, List.contains_iff_mem, hmaking, if_true]
      rfl

theorem summaryOf_build {p : Procedure} {b : StateM SummaryTable Summary}
    (hname : t.find? name = none) (hp : c.program.find? name = some p)
    (hflow : c.flow? name = some flow) (hpath : name ∉ path)
    (h : Agrees (name :: path) t (fun depth => summarise c depth flow) b)
    (hlast : (b.run t).2.find? name = none) :
    Terminates (.during path t) (fun depth => summaryOf c depth name)
      ((b.run t).1, .during path ((b.run t).2 ++ [(b.run t).1])) := by
  obtain ⟨limit, hlimit⟩ := h
  refine .of_succ ⟨limit, fun depth hdepth => ?_⟩
  have hfind : (Progress.during path t).table.find? name = none := hname
  have hmaking : name ∉ (Progress.during path t).making := hpath
  simp only [summaryOf]
  rw [run_get_bind]
  simp only [hfind, hp, hflow, List.contains_iff_mem, hmaking, if_false]
  rw [run_modify_bind, Progress.enter_during, StateT.run_bind, hlimit depth hdepth]
  change some (_, (Progress.during (name :: path) _).finish name _) = _
  rw [Progress.finish_during _ hlast]

theorem replaces_settled (hc : c.Coherent) {x : Symbol} {id : StatementId}
    (h : ∀ q, c.selfCallee? flow id = some q →
      s.table.contains q.name = true ∨ q.name ∈ s.making) :
    Answers s (fun depth => replaces c depth flow x id)
      (Summary.resetsAt c s.table flow x id) := by
  refine .of_succ ?_
  simp only [replaces, Summary.resetsAt]
  cases flow.resets x id with
  | true => exact .of_pure true
  | false =>
    cases hq : c.selfCallee? flow id with
    | none => exact .of_pure false
    | some q =>
      have hsettled := (h q hq).imp_right (Or.inl (b := c.flow? q.name = none))
      refine (summaryOf_settled hc hsettled).bind ?_
      rw [SummaryTable.resets_answer]
      exact .of_pure _

theorem escapesFrom_settled (hc : c.Coherent) {x : Symbol}
    (h : ∀ q ∈ c.calleesOf flow, s.table.contains q = true ∨ q ∈ s.making) {nodes : List Int}
    (hnodes : flow.scope.procedure.targets ⊆ nodes) {fuel : Nat} {queue seen : List Int}
    (hbound : Bounded nodes fuel queue.length seen) :
    Answers s (fun depth => escapesFrom c depth flow x queue seen)
      (Summary.escapes flow.scope.procedure (Summary.resetsAt c s.table flow x) fuel queue
        seen) := by
  induction fuel generalizing queue seen with
  | zero => exact absurd rfl hbound.ne_zero
  | succ fuel ih =>
    refine .of_succ ?_
    match queue with
    | [] =>
      simp only [escapesFrom]
      exact .of_pure false
    | id :: queue =>
      simp only [escapesFrom, Summary.escapes]
      cases hnode : flow.scope.procedure.node? id with
      | none => exact ih hbound.pop
      | some n =>
        have hblock : Answers s (fun depth =>
            ((flow.scope.procedure.statementsOf n).map Prod.fst).anyM (replaces c depth flow x))
            (((flow.scope.procedure.statementsOf n).map Prod.fst).any
              (Summary.resetsAt c s.table flow x)) :=
          Answers.anyM fun id _ => replaces_settled hc fun q hq =>
            h q.name (Summary.selfCallee?_mem_calleesOf hq)
        refine hblock.bind ?_
        rw [List.any_map]
        simp only [Function.comp_def]
        split
        · exact ih hbound.pop
        · split
          · exact .of_pure true
          · refine ih ?_
            rw [List.length_append]
            exact hbound.push (List.Subset.trans (Procedure.succs_subset_targets hnode) hnodes)

/-- A request in the middle of a run: the names on the path are being made. -/
structure Serves (c : Context) (path : List String)
    (request : String → StateM SummaryTable Summary) : Prop where
  agrees : ∀ q t, Idle path t → Agrees path t (fun depth => summaryOf c depth q) (request q)
  served : ∀ q t, Idle path t → Served c path t q ((request q).run t)

variable {request : String → StateM SummaryTable Summary}

theorem gather_agrees (h : Serves c path request) (sts : List (StatementId × Instr))
    (x : Summary × List Symbol) (ht : Idle path t) :
    Agrees path t (fun depth => sts.foldlM (gatherAt c depth flow) x)
      (Summary.gather c flow request sts x.1 x.2) := by
  induction sts generalizing x t with
  | nil => exact .of_pure x
  | cons st sts ih =>
    simp only [List.foldlM_cons]
    rw [Summary.gather_cons]
    cases hcall : c.callAt? flow st.2 with
    | none =>
      refine Terminates.bind (.of_succ ?_) (ih (x.1.addStatement flow st.1 st.2.action, x.2) ht)
      simp only [gatherAt, hcall]
      exact .of_pure _
    | some w =>
      have hidle := (h.served w.2.name t ht).requests.idle ht
      refine Terminates.bind (.of_succ ?_) (ih (_, _) hidle)
      simp only [gatherAt, hcall]
      exact Terminates.bind (h.agrees w.2.name t ht) (.of_pure _)

theorem summarise_agrees (hc : c.Coherent) (h : Serves c path request) (ht : Idle path t) :
    Agrees path t (fun depth => summarise c depth flow) (Summary.build c flow request) := by
  obtain ⟨hrequests, -⟩ := SummaryTable.gather_run hc flow h.served flow.scope.procedure.statements
    (Summary.blank flow.scope.procedure) [] ht
  refine .of_succ ?_
  simp only [summarise, Summary.build]
  refine (gather_agrees h _ _ ht).bind ?_
  rintro ⟨s, fields⟩ u hrun
  rw [hrun] at hrequests
  -- by now every callee has an entry or is being made, so no test asks for a new summary
  have hreset : ∀ x, Answers (.during path u)
      (fun depth => not <$> escapesFrom c depth flow x [flow.scope.procedure.entry]
        [flow.scope.procedure.entry])
      (Summary.resetsOnEveryPath flow.scope.procedure (Summary.resetsAt c u flow x)) := by
    intro x
    have hstart : Bounded (flow.scope.procedure.entry :: flow.scope.procedure.targets)
        (flow.scope.procedure.edgeCount + 2) [flow.scope.procedure.entry].length
        [flow.scope.procedure.entry] :=
      ⟨by simp, by simp, by simp [Procedure.length_targets]⟩
    simp only [map_eq_pure_bind]
    refine (escapesFrom_settled hc (fun q hq => hrequests.settled_callee hc hq)
      (List.subset_cons_self _ _) hstart).bind ?_
    exact .of_pure _
  exact Terminates.bind (Answers.filterM fun x _ => hreset x) (.of_pure _)

theorem requestWithin_served_of_bounded (hc : c.Coherent) {fuel : Nat}
    (h : Bounded c.procedureNames fuel 0 path) (q : String) (ht : Idle path t) :
    Served c path t q ((SummaryTable.requestWithin c fuel path q).run t) := by
  refine SummaryTable.requestWithin_served hc fuel h.nodup h.known ?_ q ht
  rw [← Context.length_procedureNames]
  exact h.budget

/-- A request ends, like the request with fuel for the procedures off the path. -/
theorem summaryOf_agrees (hc : c.Coherent) {fuel : Nat} {path : List String}
    (h : Bounded c.procedureNames fuel 0 path) (name : String) {t : SummaryTable}
    (ht : Idle path t) :
    Agrees path t (fun depth => summaryOf c depth name)
      (SummaryTable.requestWithin c fuel path name) := by
  induction fuel generalizing path name t with
  | zero => exact absurd rfl h.ne_zero
  | succ fuel ih =>
    have hserved := requestWithin_served_of_bounded hc h name ht
    by_cases hsettled : t.contains name = true ∨ name ∈ path ∨ c.flow? name = none
    · have hanswer := summaryOf_settled (s := .during path t) hc hsettled
      unfold Agrees
      rw [hserved.answers, hserved.requests.eq_of_skip hsettled]
      exact hanswer
    · simp only [not_or, Bool.not_eq_true, ← SummaryTable.find?_eq_none_iff] at hsettled
      obtain ⟨hname, hpath, hflow⟩ := hsettled
      obtain ⟨flow, hflow⟩ := Option.ne_none_iff_exists'.mp hflow
      obtain ⟨p, hp, -⟩ := hc.flow?_eq_some.mp hflow
      have hbelow : Bounded c.procedureNames fuel 0 (name :: path) :=
        h.enter (hc.mem_procedureNames hflow) hpath
      have hserves : Serves c (name :: path)
          (SummaryTable.requestWithin c fuel (name :: path)) :=
        ⟨fun q u hu => ih hbelow q hu, fun q u hu => requestWithin_served_of_bounded hc hbelow q hu⟩
      have hidle : Idle (name :: path) t := List.forall_mem_cons.mpr ⟨hname, ht⟩
      obtain ⟨hrequests, -⟩ := SummaryTable.build_run hc hserves.served hidle
      unfold Agrees
      rw [SummaryTable.requestWithin_build hname hp hflow hpath]
      exact summaryOf_build hname hp hflow hpath (summarise_agrees hc hserves hidle)
        (hrequests.idle hidle name List.mem_cons_self)

theorem summaryOf_request (hc : c.Coherent) (name : String) (t : SummaryTable) :
    Agrees [] t (fun depth => summaryOf c depth name) (SummaryTable.request c name) := by
  rw [SummaryTable.request, ← Context.length_procedureNames]
  exact summaryOf_agrees hc (.start c.procedureNames) name (List.forall_mem_nil _)

end Summaries

/-! ### Searches agree -/

section Searches
variable {c : Context} {f : Flow} {x : Symbol} {fuel : Nat} {active : List String}

theorem entered_agrees (hc : c.Coherent)
    (h : ∀ q t, Agrees [] t (fun depth => readBeforeReset c x depth active false none q)
      (Liveness.searchWithin c x fuel active false none q)) (q : String) (t : SummaryTable) :
    Agrees [] t (fun depth => entered c x depth active q)
      (Liveness.askWithin c x fuel active q) := by
  refine .of_succ ?_
  simp only [entered]
  exact (summaryOf_request hc q t).bind fun _ u _ => h q u

variable (hc : c.Coherent)
  (h : ∀ q t, Agrees [] t (fun depth => entered c x depth active q)
    (Liveness.askWithin c x fuel active q))

include h

theorem readsField_agrees (id : StatementId) (t : SummaryTable) :
    Agrees [] t (fun depth => readsField c x depth f active id)
      (Liveness.readsAt c f x (Liveness.askWithin c x fuel active) id) := by
  refine .of_succ ?_
  simp only [readsField, Liveness.readsAt]
  split
  · exact .of_pure true
  · cases c.selfCallee? f id with
    | none => exact .of_pure false
    | some q => exact h q.name t

theorem anyM_agrees (names : List String) (t : SummaryTable) :
    Agrees [] t (fun depth => names.anyM (entered c x depth active))
      (Liveness.anyOf (Liveness.askWithin c x fuel active) names) := by
  induction names generalizing t with
  | nil => exact .of_pure false
  | cons name names ih =>
    simp only [List.anyM_cons, Liveness.anyOf]
    refine (h name t).bind ?_
    intro found u _
    cases found with
    | true => exact .of_pure true
    | false => exact ih u

include hc

omit h in
/-- A statement that was found not to read has had its callee asked for. -/
theorem replaces_of_unread {id : StatementId} {t u : SummaryTable} (hrun : (Liveness.readsAt c f x
      (Liveness.askWithin c x fuel active) id).run t = (false, u)) :
    Answers (.during [] u) (fun depth => replaces c depth f x id)
      (Summary.resetsAt c u f x id) := by
  refine replaces_settled hc fun q hq => Or.inl ?_
  unfold Liveness.readsAt at hrun
  split at hrun
  · cases hrun
  · simp only [hq] at hrun
    rw [Liveness.askWithin, run_bind] at hrun
    have hsteady : Steady c (Liveness.searchWithin c x fuel active false none q.name) :=
      Liveness.steady_searchWithin hc fuel active false none q.name
    have hgrows := hsteady.grows ((SummaryTable.request c q.name).run t).2
    rw [hrun] at hgrows
    exact SummaryTable.contains_of_earlier hgrows
      (SummaryTable.contains_of_request hc (Summary.find?_self_of_selfCallee? hq) t)

theorem passFrom_agrees (ids : List StatementId) (t : SummaryTable) :
    Agrees [] t (fun depth => passFrom c x depth f active ids)
      (Liveness.passWithin c x fuel active f ids) := by
  induction ids generalizing t with
  | nil => exact .of_succ (.of_pure Liveness.Passage.through)
  | cons id ids ih =>
    refine .of_succ ?_
    simp only [passFrom]
    rw [Liveness.passWithin, Liveness.passage]
    refine (readsField_agrees h id t).bind ?_
    intro isRead u hrun
    cases isRead with
    | true => exact .of_pure Liveness.Passage.read
    | false =>
      have hreset := replaces_of_unread hc hrun
      refine Terminates.bind hreset ?_
      simp only [Bool.false_eq_true, if_false]
      rw [run_bind, run_get]
      split
      · exact .of_pure _
      · exact ih u

theorem followFrom_agrees {fuel' : Nat} {queue : List (Int × Nat)} {seen : List Int}
    {escaped : Bool} (hbound : Bounded f.scope.procedure.targets fuel' queue.length seen)
    (t : SummaryTable) :
    Agrees [] t (fun depth => followFrom c x depth f active queue seen escaped)
      (Liveness.explore f.scope.procedure (Liveness.passWithin c x fuel active f) fuel' queue seen
        escaped) := by
  induction fuel' generalizing queue seen escaped t with
  | zero => exact absurd rfl hbound.ne_zero
  | succ fuel' ih =>
    refine .of_succ ?_
    match queue with
    | [] => exact .of_pure _
    | (id, skip) :: queue =>
      simp only [followFrom, Liveness.explore]
      cases hnode : f.scope.procedure.node? id with
      | none => exact ih hbound.pop t
      | some n =>
        refine (passFrom_agrees hc h _ t).bind ?_
        intro passed u _
        cases passed with
        | read => exact .of_pure Liveness.Passage.read
        | reset => exact ih hbound.pop u
        | through =>
          refine ih ?_ u
          rw [List.length_append, List.length_map]
          exact hbound.push (Procedure.succs_subset_targets hnode)

end Searches

theorem readBeforeReset_agrees {c : Context} (hc : c.Coherent) {x : Symbol} (hx : x.isField = true)
    {fuel : Nat} {active : List String} (h : Bounded c.procedureNames fuel 0 active)
    (escalate : Bool) (after : Option StatementId) (name : String) (t : SummaryTable) :
    Agrees [] t (fun depth => readBeforeReset c x depth active escalate after name)
      (Liveness.searchWithin c x fuel active escalate after name) := by
  induction fuel generalizing active escalate after name t with
  | zero => exact absurd rfl h.ne_zero
  | succ fuel ih =>
    refine .of_succ ?_
    simp only [readBeforeReset]
    cases hflow : c.flow? name with
    | none =>
      simp only [Liveness.searchWithin, hflow]
      exact .of_pure false
    | some f =>
      by_cases hactive : name ∈ active
      · simp only [Liveness.searchWithin, hflow, hx, List.contains_iff_mem, hactive, if_true,
          Bool.not_true, Bool.false_or]
        exact .of_pure false
      · have hbelow := h.enter (hc.mem_procedureNames hflow) hactive
        have hasks : ∀ q t, Agrees [] t (fun depth => entered c x depth (name :: active) q)
            (Liveness.askWithin c x fuel (name :: active) q) :=
          entered_agrees hc fun q t => ih hbelow false none q t
        have hstart : Bounded f.scope.procedure.targets (f.scope.procedure.edgeCount + 2) 1 [] :=
          ⟨by simp, by simp, by simp [Procedure.length_targets]⟩
        rw [Liveness.searchWithin_succ hflow hactive]
        simp only [hx, List.contains_iff_mem, hactive, Bool.not_true, Bool.false_or, if_false]
        refine (followFrom_agrees hc hasks hstart t).bind ?_
        intro passed u _
        cases passed with
        | read => exact .of_pure true
        | reset => exact .of_pure false
        | through =>
          cases escalate with
          | true => exact anyM_agrees hasks _ u
          | false => exact .of_pure false

/-! ### Sequences of requests -/

/-- What can be asked of a table of summaries. -/
inductive Query where
  | summary (name : String)
  | readBeforeReset (field : Symbol) (name : String) (after : Option StatementId) (escalate : Bool)

namespace Query

def ask (c : Context) : Query → StateM SummaryTable (Summary ⊕ Bool)
  | summary name => do return .inl (← SummaryTable.request c name)
  | readBeforeReset field name after escalate => do
    return .inr (← Liveness.isReadBeforeReset c field name after escalate)

/-- The query, cut off at a depth of calls. -/
def perform (c : Context) (depth : Nat) : Query → Asking (Summary ⊕ Bool)
  | summary name => do return .inl (← summaryOf c depth name)
  | readBeforeReset field name after escalate => do
    return .inr (← ActorOwnership.readBeforeReset c field depth [] escalate after name)

variable {c : Context}

theorem steady (hc : c.Coherent) (q : Query) : Steady c (q.ask c) := by
  cases q with
  | summary name => exact (Steady.request hc name).bind fun _ => .of_pure _
  | readBeforeReset field name after escalate =>
    exact (Liveness.steady_isReadBeforeReset hc name after escalate).bind fun _ => .of_pure _

theorem agrees (hc : c.Coherent) (q : Query) (t : SummaryTable) :
    Agrees [] t (fun depth => q.perform c depth) (q.ask c) := by
  cases q with
  | summary name => exact (summaryOf_request hc name t).bind fun _ _ _ => .of_pure _
  | readBeforeReset field name after escalate =>
    refine Agrees.bind ?_ fun _ _ _ => .of_pure _
    unfold Liveness.isReadBeforeReset
    split
    · rename_i hfield
      rw [← Context.length_procedureNames]
      exact readBeforeReset_agrees hc hfield (.start c.procedureNames) escalate after name t
    · rename_i hfield
      refine .of_succ ?_
      simp only [ActorOwnership.readBeforeReset]
      cases c.flow? name with
      | none => exact .of_pure false
      | some f =>
        simp only [hfield, Bool.not_false, Bool.true_or, if_true]
        exact .of_pure false

theorem steady_sequence (hc : c.Coherent) (queries : List Query) :
    Steady c (queries.mapM (ask c)) := by
  induction queries with
  | nil => exact .of_pure []
  | cons q queries ih =>
    rw [List.mapM_cons]
    exact (steady hc q).bind fun _ => ih.bind fun _ => .of_pure _

theorem grows_sequence (hc : c.Coherent) (queries more : List Query) (t : SummaryTable) :
    ((queries.mapM (ask c)).run t).2 <+: (((queries ++ more).mapM (ask c)).run t).2 := by
  rw [List.mapM_append, run_bind]
  exact ((steady_sequence hc more).bind fun _ => .of_pure _).grows _

end Query

/-- On a fresh table, a request makes the entries of the procedures that calls lead to. -/
theorem SummaryTable.contains_request {c : Context} (hc : c.Coherent) {name : String}
    {p : Procedure} (hp : c.program.find? name = some p) (q : String) :
    ((SummaryTable.request c name).run []).2.contains q = true ↔ c.Reaches name q := by
  have hrequests := (request_served hc name []).requests
  constructor
  · intro hq
    by_contra hreach
    have hnone : find? [] q = none := rfl
    rw [← hrequests.find?_eq (by simpa using hreach), find?_eq_none_iff, hq] at hnone
    cases hnone
  · have hclosed : Closed c [] ((SummaryTable.request c name).run []).2 :=
      hrequests.closed hc fun _ _ ha => by cases ha
    exact hclosed.of_reaches (contains_of_request hc hp []) (List.forall_mem_nil _)

/-- Every sequence of requests on a fresh table comes to an end, with the answers and the table of
the requests to the table. Then no summary is being made, and what has been written is what is in
the table, one entry for each name. Later requests leave the entries as they are. A name outside the
program has none, and a single request makes those of the procedures that calls lead to. -/
theorem requests_compute_once (g : Program) (queries : List Query) :
    let c := Context.ofProgram g
    let r := (queries.mapM (Query.ask c)).run []
    Terminates {} (fun depth => queries.mapM (Query.perform c depth))
        (r.1, { table := r.2, making := [], written := r.2 }) ∧
      (r.2.map Summary.procedure).Nodup ∧
      (∀ more name s, r.2.find? name = some s →
        (((queries ++ more).mapM (Query.ask c)).run []).2.find? name = some s) ∧
      (∀ name, g.find? name = none → r.2.contains name = false) ∧
      ∀ name p, g.find? name = some p → ∀ q,
        (([Query.summary name].mapM (Query.ask c)).run []).2.contains q = true ↔
          c.Reaches name q := by
  intro c r
  have hc : c.Coherent := Context.coherent_ofProgram g
  have hbuilt : Built c r.2 := (Query.steady_sequence hc queries).built hc .empty
  refine ⟨Agrees.mapM (Query.agrees hc) queries [], hbuilt.nodup, ?_, ?_, ?_⟩
  · intro more name s hs
    exact SummaryTable.find?_of_earlier (Query.grows_sequence hc queries more []) hs
  · intro name hname
    rw [← SummaryTable.find?_eq_none_iff]
    apply hbuilt.find?_eq_none
    rw [hc]
    exact Option.map_eq_none_iff.mpr hname
  · intro name p hp q
    rw [List.mapM_cons, List.mapM_nil]
    exact SummaryTable.contains_request hc hp q

end ActorOwnership
