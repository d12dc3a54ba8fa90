import Mathlib
import ActorOwnership.Proofs.Explore

/-! Runs in which the calls of a procedure on its own object are carried out, to any depth. The
search for a read after a statement finds every read that such a run gets to before the field is
replaced, as long as the procedure that it starts from is active only once when the read takes
place. A field that a summary lists as replaced is replaced in every such run from entry to end. -/

namespace ActorOwnership
set_option autoImplicit false

open SummaryTable (Built)

/-! ### Runs -/

/-- An active procedure, and how far it has got. -/
structure Frame where
  name : String
  place : Position

/-- `Run c start xs stack`: from the frames `start` the statements `xs` are done one after the
other, and the frames `stack` are left, the innermost first. A call on the object itself enters its
callee. -/
inductive Run (c : Context) (start : List Frame) : List StatementId → List Frame → Prop where
  | here : Run c start [] start
  | step {xs : List StatementId} {name : String} {f : Flow} {n : Int} {k : Nat} {i : Instr}
      {rest : List Frame} :
      Run c start xs (⟨name, ⟨n, k⟩⟩ :: rest) → c.flow? name = some f →
        f.scope.procedure.instrAt? ⟨name, n, k⟩ = some i → c.selfCallee? f ⟨name, n, k⟩ = none →
          Run c start (xs ++ [⟨name, n, k⟩]) (⟨name, ⟨n, k + 1⟩⟩ :: rest)
  | call {xs : List StatementId} {name : String} {f : Flow} {n : Int} {k : Nat} {q : Procedure}
      {rest : List Frame} :
      Run c start xs (⟨name, ⟨n, k⟩⟩ :: rest) → c.flow? name = some f →
        c.selfCallee? f ⟨name, n, k⟩ = some q →
          Run c start (xs ++ [⟨name, n, k⟩])
            (⟨q.name, ⟨q.entry, 0⟩⟩ :: ⟨name, ⟨n, k + 1⟩⟩ :: rest)
  | move {xs : List StatementId} {name : String} {f : Flow} {n m : Int} {rest : List Frame} :
      Run c start xs (⟨name, ⟨n, (f.scope.procedure.instrsAt n).length⟩⟩ :: rest) →
        c.flow? name = some f → f.scope.procedure.LeadsTo n m →
          f.scope.procedure.hasNode m = true → Run c start xs (⟨name, ⟨m, 0⟩⟩ :: rest)
  | leave {xs : List StatementId} {name : String} {f : Flow} {n : Int} {caller : Frame}
      {rest : List Frame} :
      Run c start xs (⟨name, ⟨n, (f.scope.procedure.instrsAt n).length⟩⟩ :: caller :: rest) →
        c.flow? name = some f → f.scope.procedure.IsEnd n → Run c start xs (caller :: rest)

def Context.Reads (c : Context) (x : Symbol) (id : StatementId) : Prop :=
  ∃ f, c.flow? id.procedure = some f ∧ x ∈ f.readsAt id

def Context.Replaces (c : Context) (x : Symbol) (id : StatementId) : Prop :=
  ∃ f, c.flow? id.procedure = some f ∧ f.resets x id = true

theorem Context.Coherent.reads {c : Context} (hc : c.Coherent) {x : Symbol} {id : StatementId}
    {p : Procedure} {i : Instr} (hp : c.program.find? id.procedure = some p)
    (hi : p.instrAt? id = some i)
    (hread : x ∈ (Fact.ofStatement ⟨p, c.program.library⟩ (id, i)).reads) : c.Reads x id := by
  refine ⟨Flow.ofScope ⟨p, c.program.library⟩, by rw [hc, hp, Option.map_some], ?_⟩
  rw [Flow.readsAt, Flow.fact?_ofScope, hi]
  exact hread

theorem Context.Coherent.not_replaces {c : Context} (hc : c.Coherent) {x : Symbol}
    {id : StatementId} {p : Procedure} {i : Instr} (hp : c.program.find? id.procedure = some p)
    (hi : p.instrAt? id = some i)
    (hkeep : (Fact.ofStatement ⟨p, c.program.library⟩ (id, i)).resets x = false) :
    ¬ c.Replaces x id := by
  rintro ⟨f, hflow, hreset⟩
  rw [hc, hp, Option.map_some, Option.some.injEq] at hflow
  rw [← hflow, Flow.resets, Flow.fact?_ofScope, hi, Option.map_some, Option.any_some, hkeep]
    at hreset
  cases hreset

/-- Some run gets to a statement that reads the symbol, before a statement has replaced it, and with
`outer` active nowhere but in the outermost frame. -/
def Context.ReachesRead (c : Context) (x : Symbol) (outer : String) (start : Frame) : Prop :=
  ∃ xs name n k rest, Run c [start] xs (⟨name, ⟨n, k⟩⟩ :: rest) ∧ (∀ s ∈ xs, ¬ c.Replaces x s) ∧
    c.Reads x ⟨name, n, (k : Nat)⟩ ∧
    ∀ frame ∈ ((⟨name, ⟨n, k⟩⟩ : Frame) :: rest).dropLast, frame.name ≠ outer

/-- Some run gets to an end of the outermost procedure before the symbol has been replaced. -/
def Context.Leaves (c : Context) (x : Symbol) (start : Frame) : Prop :=
  ∃ xs f n, Run c [start] xs [⟨start.name, ⟨n, (f.scope.procedure.instrsAt n).length⟩⟩] ∧
    c.flow? start.name = some f ∧ f.scope.procedure.IsEnd n ∧ ∀ s ∈ xs, ¬ c.Replaces x s

/-! ### Ways without resets -/

/-- Some walk from `a` to `b` has, by the table, no statement and no callee that replaces `x`. -/
def Uncut (c : Context) (t : SummaryTable) (f : Flow) (x : Symbol) (a b : Position) : Prop :=
  ∃ xs, Walk f.scope.procedure f.scope.procedure.LeadsTo a xs b ∧
    ∀ s ∈ xs, Summary.resetsAt c t f x s = false

section Uncut
variable {c : Context} {t : SummaryTable} {f : Flow} {x : Symbol} {a : Position}

theorem Uncut.here : Uncut c t f x a a := ⟨[], .here, by simp⟩

theorem Uncut.step {n : Int} {k : Nat} {i : Instr} (h : Uncut c t f x a ⟨n, k⟩)
    (hi : f.scope.procedure.instrAt? ⟨f.scope.procedure.name, n, k⟩ = some i)
    (hs : Summary.resetsAt c t f x ⟨f.scope.procedure.name, n, k⟩ = false) :
    Uncut c t f x a ⟨n, k + 1⟩ := by
  obtain ⟨xs, hw, hclear⟩ := h
  refine ⟨_, hw.step hi, ?_⟩
  intro s hs'
  rcases List.mem_append.mp hs' with hs' | hs'
  · exact hclear s hs'
  · rw [List.mem_singleton.mp hs']
    exact hs

theorem Uncut.move {n m : Int} (h : Uncut c t f x a ⟨n, (f.scope.procedure.instrsAt n).length⟩)
    (he : f.scope.procedure.LeadsTo n m) (hm : f.scope.procedure.hasNode m = true) :
    Uncut c t f x a ⟨m, 0⟩ := by
  obtain ⟨xs, hw, hclear⟩ := h
  exact ⟨xs, hw.move he.hasNode he hm, hclear⟩

theorem resetsAt_of_earlier {u : SummaryTable} (h : u <+: t) {id : StatementId}
    (ht : Summary.resetsAt c t f x id = false) : Summary.resetsAt c u f x id = false := by
  unfold Summary.resetsAt at ht ⊢
  cases hq : c.selfCallee? f id with
  | none =>
    rw [hq] at ht
    exact ht
  | some q =>
    rw [hq, Option.any_some, Bool.or_eq_false_iff] at ht
    rw [Option.any_some, Bool.or_eq_false_iff]
    refine ⟨ht.1, ?_⟩
    cases hs : u.find? q.name with
    | none => simp [SummaryTable.resetsOf, hs]
    | some s =>
      have hresets : u.resetsOf q.name = t.resetsOf q.name := by
        simp only [SummaryTable.resetsOf, hs, SummaryTable.find?_of_earlier h hs]
      rw [hresets]
      exact ht.2

theorem not_mem_resetsOf (ht : Built c t) {name : String} (hflow : c.flow? name = some f) {n : Int}
    (h : Uncut c t f x ⟨f.scope.procedure.entry, 0⟩
      ⟨n, (f.scope.procedure.instrsAt n).length⟩) (hend : f.scope.procedure.IsEnd n) :
    x ∉ t.resetsOf name := by
  cases hs : t.find? name with
  | none => simp [SummaryTable.resetsOf, hs]
  | some s =>
    obtain ⟨u, flow, hu, _, hflow', _, _, rfl⟩ := ht.entry hs
    rw [hflow, Option.some.injEq] at hflow'
    subst hflow'
    obtain ⟨xs, hw, hclear⟩ := h
    have hescape := Summary.resetsOnEveryPath_eq_false hw hend
      fun s hs => resetsAt_of_earlier hu (hclear s hs)
    rw [Summary.resetsAt_eq_resetsWith] at hescape
    simp [SummaryTable.resetsOf, hs, Summary.buildWith, hescape]

end Uncut

/-! ### Frames without resets -/

/-- Where the procedure of a frame began: the outermost one at `a`, any other at its entry. -/
def origin (a : Position) (f : Flow) : List Frame → Position
  | [] => a
  | _ :: _ => ⟨f.scope.procedure.entry, 0⟩

/-- The frames wait for a call of the procedure to end. Each has got to its call without a reset. -/
inductive Waiting (c : Context) (t : SummaryTable) (x : Symbol) (root : String) (a : Position) :
    String → List Frame → Prop where
  | root : Waiting c t x root a root []
  | call {name : String} {f : Flow} {n : Int} {k : Nat} {q : Procedure} {rest : List Frame} :
      Waiting c t x root a name rest → c.flow? name = some f →
        Uncut c t f x (origin a f rest) ⟨n, k⟩ → c.selfCallee? f ⟨name, n, k⟩ = some q →
          f.resets x ⟨name, n, k⟩ = false →
            Waiting c t x root a q.name (⟨name, ⟨n, k + 1⟩⟩ :: rest)

/-- The innermost frame has got to its place without a reset, and so have the frames around it. -/
inductive Intact (c : Context) (t : SummaryTable) (x : Symbol) (root : String) (a : Position) :
    List Frame → Prop where
  | mk {name : String} {f : Flow} {b : Position} {rest : List Frame} :
      Waiting c t x root a name rest → c.flow? name = some f → Uncut c t f x (origin a f rest) b →
        Intact c t x root a (⟨name, b⟩ :: rest)

section Intact
variable {c : Context} {t : SummaryTable} {x : Symbol} {root : String} {a : Position}

theorem Context.Coherent.flow?_selfCallee (hc : c.Coherent) {f : Flow} {id : StatementId}
    {q : Procedure} (h : c.selfCallee? f id = some q) :
    c.flow? q.name = some (Flow.ofScope ⟨q, c.program.library⟩) := by
  rw [hc, Summary.find?_self_of_selfCallee? h, Option.map_some]

theorem Intact.step {name : String} {f : Flow} {n : Int} {k : Nat} {i : Instr} {rest : List Frame}
    (h : Intact c t x root a (⟨name, ⟨n, k⟩⟩ :: rest)) (hflow : c.flow? name = some f)
    (hi : f.scope.procedure.instrAt? ⟨name, n, k⟩ = some i)
    (hcallee : c.selfCallee? f ⟨name, n, k⟩ = none) (hkeep : ¬ c.Replaces x ⟨name, n, k⟩) :
    Intact c t x root a (⟨name, ⟨n, k + 1⟩⟩ :: rest) := by
  cases h with
  | mk hwait hflow' hcut =>
    rw [hflow, Option.some.injEq] at hflow'
    subst hflow'
    have hname := Context.flow?_name hflow
    refine .mk hwait hflow (hcut.step (hname ▸ hi) ?_)
    rw [hname, Summary.resetsAt, hcallee, Option.any_none, Bool.or_false]
    cases hreset : f.resets x ⟨name, n, k⟩ with
    | false => rfl
    | true => exact absurd ⟨f, hflow, hreset⟩ hkeep

theorem Intact.call (hc : c.Coherent) {name : String} {f : Flow} {n : Int} {k : Nat}
    {q : Procedure} {rest : List Frame} (h : Intact c t x root a (⟨name, ⟨n, k⟩⟩ :: rest))
    (hflow : c.flow? name = some f) (hcallee : c.selfCallee? f ⟨name, n, k⟩ = some q)
    (hkeep : ¬ c.Replaces x ⟨name, n, k⟩) :
    Intact c t x root a (⟨q.name, ⟨q.entry, 0⟩⟩ :: ⟨name, ⟨n, k + 1⟩⟩ :: rest) := by
  cases h with
  | mk hwait hflow' hcut =>
    rw [hflow, Option.some.injEq] at hflow'
    subst hflow'
    refine .mk (.call hwait hflow hcut hcallee ?_) (hc.flow?_selfCallee hcallee) .here
    cases hreset : f.resets x ⟨name, n, k⟩ with
    | false => rfl
    | true => exact absurd ⟨f, hflow, hreset⟩ hkeep

theorem Intact.move {name : String} {f : Flow} {n m : Int} {rest : List Frame}
    (h : Intact c t x root a (⟨name, ⟨n, (f.scope.procedure.instrsAt n).length⟩⟩ :: rest))
    (hflow : c.flow? name = some f) (he : f.scope.procedure.LeadsTo n m)
    (hm : f.scope.procedure.hasNode m = true) :
    Intact c t x root a (⟨name, ⟨m, 0⟩⟩ :: rest) := by
  cases h with
  | mk hwait hflow' hcut =>
    rw [hflow, Option.some.injEq] at hflow'
    subst hflow'
    exact .mk hwait hflow (hcut.move he hm)

/-- When a callee ends without a reset, its caller has done the call without one. -/
theorem Intact.leave (ht : Built c t) {name : String} {f : Flow} {n : Int}
    {caller : Frame} {rest : List Frame} (h : Intact c t x root a
      (⟨name, ⟨n, (f.scope.procedure.instrsAt n).length⟩⟩ :: caller :: rest))
    (hflow : c.flow? name = some f) (hend : f.scope.procedure.IsEnd n) :
    Intact c t x root a (caller :: rest) := by
  cases h with
  | mk hwait hflow' hcut =>
    rw [hflow, Option.some.injEq] at hflow'
    subst hflow'
    have hresets := not_mem_resetsOf ht hflow hcut hend
    cases hwait with
    | @call name' g m k q _ hwait' hflow' hcut' hcallee hkeep =>
      obtain ⟨i, _, hi, _⟩ := Summary.callAt?_of_selfCallee? hcallee
      have hname := Context.flow?_name hflow'
      refine .mk hwait' hflow' (hcut'.step (hname ▸ hi) ?_)
      rw [hname, Summary.resetsAt, hcallee, Option.any_some, hkeep, Bool.false_or]
      simpa using hresets

/-- Every run that replaces the symbol nowhere keeps the frames without resets. -/
theorem intact_of_run (hc : c.Coherent) (ht : Built c t) {f : Flow}
    (hflow : c.flow? root = some f) {xs : List StatementId} {stack : List Frame}
    (hrun : Run c [⟨root, a⟩] xs stack) (hkeep : ∀ s ∈ xs, ¬ c.Replaces x s) :
    Intact c t x root a stack := by
  have hlast : ∀ {xs : List StatementId} {s : StatementId}, s ∈ xs ++ [s] := by simp
  induction hrun with
  | here => exact .mk .root hflow .here
  | step _ hflow' hi hcallee ih =>
    have hbefore := ih fun s hs => hkeep s (List.mem_append.mpr (Or.inl hs))
    exact hbefore.step hflow' hi hcallee (hkeep _ hlast)
  | call _ hflow' hcallee ih =>
    have hbefore := ih fun s hs => hkeep s (List.mem_append.mpr (Or.inl hs))
    exact hbefore.call hc hflow' hcallee (hkeep _ hlast)
  | move _ hflow' he hm ih => exact (ih hkeep).move hflow' he hm
  | leave _ hflow' hend ih => exact (ih hkeep).leave ht hflow' hend

end Intact

/-! ### Runs from entry to end -/

/-- A summary lists only fields that every complete run of its procedure replaces, whatever requests
it was made by. Recursion is no exception, although callees then count with blank summaries. -/
theorem replaces_of_mem_resets (g : Program) (names : List String) {name : String} {s : Summary}
    (hs : (SummaryTable.asked (.ofProgram g) names).find? name = some s) {x : Symbol}
    (hx : x ∈ s.resets) {p : Procedure} (hp : g.find? name = some p) {xs : List StatementId}
    {n : Int} (hrun : Run (.ofProgram g) [⟨name, ⟨p.entry, 0⟩⟩] xs
      [⟨name, ⟨n, (p.instrsAt n).length⟩⟩]) (hend : p.IsEnd n) :
    ∃ id ∈ xs, (Context.ofProgram g).Replaces x id := by
  have hc := Context.coherent_ofProgram g
  have hbuilt := SummaryTable.built_asked hc names
  have hflow : (Context.ofProgram g).flow? name = some (Flow.ofScope ⟨p, g.library⟩) :=
    hc.flow?_eq_some.mpr ⟨p, hp, rfl⟩
  by_contra hnone
  have hkeep : ∀ id ∈ xs, ¬ (Context.ofProgram g).Replaces x id :=
    fun id hid hreplaces => hnone ⟨id, hid, hreplaces⟩
  cases intact_of_run hc hbuilt hflow hrun hkeep with
  | mk _ hflow' hcut =>
    obtain rfl := Option.some.inj (hflow.symm.trans hflow')
    apply not_mem_resetsOf hbuilt hflow hcut hend
    rw [SummaryTable.resetsOf, hs]
    exact hx

/-- Stores a field, or leaves that to `refill`. -/
def fill : Procedure :=
  methodOf "A.fill" ["x"]
    [{ id := 0, succs := [1, 2] },
      { id := 1, preds := [0], instrs := [⟨.unknown, .store (selfField "f") (.var "x")⟩] },
      { id := 2, preds := [0], instrs := [selfCall "refill" [.var "x"]] }]

/-- Stores the field and calls `fill` again. -/
def refill : Procedure :=
  methodOf "A.refill" ["y"]
    [{ id := 0, instrs := [⟨.unknown, .store (selfField "f") (.var "y")⟩,
        selfCall "fill" [.var "y"]] }]

def filling : Program where
  procedures := [fill, refill]

/-- Both calls are carried out, the inner one of `fill` by its other branch. -/
theorem replaces_of_mem_resets_filling :
    ((SummaryTable.asked (.ofProgram filling) ["A.fill"]).find? "A.fill").map Summary.resets =
      some [⟨"f", .field, "A"⟩] ∧
    ∃ xs, Run (.ofProgram filling) [⟨"A.fill", ⟨0, 0⟩⟩] xs [⟨"A.fill", ⟨2, 1⟩⟩] ∧
      ∃ id ∈ xs, (Context.ofProgram filling).Replaces ⟨"f", .field, "A"⟩ id := by
  have hresets : ((SummaryTable.asked (.ofProgram filling) ["A.fill"]).find? "A.fill").map
      Summary.resets = some [⟨"f", .field, "A"⟩] := by cbv
  obtain ⟨s, hs, hs'⟩ := Option.map_eq_some_iff.mp hresets
  have hflow : (Context.ofProgram filling).flow? "A.fill" =
      some (Flow.ofScope ⟨fill, filling.library⟩) := rfl
  have hflow' : (Context.ofProgram filling).flow? "A.refill" =
      some (Flow.ofScope ⟨refill, filling.library⟩) := rfl
  have hstart : Run (.ofProgram filling) [⟨"A.fill", ⟨0, 0⟩⟩] [] [⟨"A.fill", ⟨0, 0⟩⟩] := .here
  have hbranch := hstart.move (m := 2) hflow (List.mem_cons_of_mem 1 List.mem_cons_self) rfl
  have hrefill := hbranch.call (q := refill) hflow rfl
  have hfill := (hrefill.step hflow' rfl rfl).call (q := fill) hflow' rfl
  have hother := hfill.move (m := 1) hflow List.mem_cons_self rfl
  have hinner := (hother.step hflow rfl rfl).leave hflow ⟨rfl, rfl⟩
  have hleft := hinner.leave hflow' ⟨rfl, rfl⟩
  refine ⟨hresets, _, hleft, ?_⟩
  exact replaces_of_mem_resets filling ["A.fill"] hs (hs' ▸ List.mem_singleton.mpr rfl)
    (p := fill) rfl hleft ⟨rfl, rfl⟩

end ActorOwnership
