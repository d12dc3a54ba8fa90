import Mathlib.Data.List.Forall2
import ActorOwnership.Lowering.Statement
import ActorOwnership.Proofs.Discovery
import ActorOwnership.Proofs.Header

/-! Graphs that differ only in the order of the arguments of hand-offs. All steps that build a graph
keep them so, and at each hand-off the same symbols are discovered. -/

namespace ActorOwnership
set_option autoImplicit false

open SummaryTable (Built)

/-! ### Actions, nodes and procedures -/

/-- The same action, except that a hand-off may have its arguments in another order. -/
inductive Action.Similar : Action → Action → Prop where
  | refl (a : Action) : Action.Similar a a
  | handOff {ret : Option String} {func : Exp} {args args' : List Exp} {receiver : Option Exp}
      {givenUp givenUp' : List Int} {description : String} : args.Perm args' →
      (givenUp.filterMap (pick? args)).Perm (givenUp'.filterMap (pick? args')) →
        Action.Similar (.handOff ret ⟨func, args, receiver⟩ givenUp description)
          (.handOff ret ⟨func, args', receiver⟩ givenUp' description)

theorem Action.Similar.givenUpArgs_perm {a a' : Action} (h : a.Similar a') :
    a.givenUpArgs.Perm a'.givenUpArgs := by
  cases h with
  | refl => exact .refl _
  | handOff _ hgiven => exact hgiven

structure Instr.Similar (i i' : Instr) : Prop where
  loc : i.loc = i'.loc
  action : i.action.Similar i'.action

structure Node.Similar (n n' : Node) : Prop where
  id : n.id = n'.id
  kind : n.kind = n'.kind
  succs : n.succs = n'.succs
  preds : n.preds = n'.preds
  instrs : List.Forall₂ Instr.Similar n.instrs n'.instrs

/-- All but the nodes is the same. -/
structure Procedure.Similar (p p' : Procedure) : Prop where
  header : { p with nodes := [] } = { p' with nodes := [] }
  nodes : List.Forall₂ Node.Similar p.nodes p'.nodes

namespace Node.Similar
variable {n n' : Node} (h : n.Similar n')

include h

theorem addInstr {i i' : Instr} (hi : i.Similar i') : (n.addInstr i).Similar (n'.addInstr i') :=
  ⟨h.id, h.kind, h.succs, h.preds, List.rel_append h.instrs (.cons hi .nil)⟩

theorem addSucc (id : Int) : (n.addSucc id).Similar (n'.addSucc id) :=
  ⟨h.id, h.kind, congrArg (insertNew · id) h.succs, h.preds, h.instrs⟩

theorem addPred (id : Int) : (n.addPred id).Similar (n'.addPred id) :=
  ⟨h.id, h.kind, h.succs, congrArg (insertNew · id) h.preds, h.instrs⟩

end Node.Similar

theorem Node.similar_fresh (id : Int) (kind : NodeKind) :
    Node.Similar { id := id, kind := kind } { id := id, kind := kind } :=
  ⟨rfl, rfl, rfl, rfl, .nil⟩

namespace Procedure.Similar
variable {p p' : Procedure} (h : p.Similar p')

include h

theorem name : p.name = p'.name := by
  have hname := congrArg Procedure.name h.header
  exact hname

theorem nextId : p.nextId = p'.nextId := by
  have hnext := congrArg Procedure.nextId h.header
  exact hnext

theorem hasNode (id : Int) : p.hasNode id = p'.hasNode id := by
  unfold Procedure.hasNode
  have hnodes := h.nodes
  generalize p.nodes = ns at hnodes
  generalize p'.nodes = ns' at hnodes
  induction hnodes with
  | nil => rfl
  | cons hn _ ih => rw [List.any_cons, List.any_cons, hn.id, ih]

theorem modifyNode {f f' : Node → Node} (hf : ∀ n n', n.Similar n' → (f n).Similar (f' n'))
    (id : Int) : (p.modifyNode id f).Similar (p'.modifyNode id f') := by
  refine ⟨h.header, ?_⟩
  unfold Procedure.modifyNode
  rw [List.forall₂_map_left_iff, List.forall₂_map_right_iff]
  apply h.nodes.imp
  intro n n' hn
  rw [hn.id]
  split
  · exact hf n n' hn
  · exact hn

theorem addNode {n n' : Node} (hn : n.Similar n') : (p.addNode n).Similar (p'.addNode n') := by
  constructor
  · have hheader := congrArg (fun q : Procedure =>
      { q with nextId := if q.nextId ≤ n.id then n.id + 1 else q.nextId }) h.header
    unfold Procedure.addNode
    rw [← hn.id]
    exact hheader
  · unfold Procedure.addNode
    rw [← hn.id, h.hasNode]
    split
    · rw [List.forall₂_map_left_iff, List.forall₂_map_right_iff]
      apply h.nodes.imp
      intro m m' hm
      rw [hm.id]
      split
      · exact hn
      · exact hm
    · exact List.rel_append h.nodes (.cons hn .nil)

theorem connect (source target : Int) :
    (p.connect source target).Similar (p'.connect source target) := by
  unfold Procedure.connect
  rw [h.hasNode, h.hasNode]
  split
  · apply modifyNode
    · exact h.modifyNode (fun n n' hn => hn.addSucc target) source
    · exact fun n n' hn => hn.addPred source
  · exact h

end Procedure.Similar

structure Program.Similar (g g' : Program) : Prop where
  library : g.library = g'.library
  procedures : List.Forall₂ Procedure.Similar g.procedures g'.procedures

theorem Program.Similar.addProcedure {g g' : Program} (h : g.Similar g') {p p' : Procedure}
    (hp : p.Similar p') : (g.addProcedure p).Similar (g'.addProcedure p') := by
  have hany : ∀ {ps ps' : List Procedure}, List.Forall₂ Procedure.Similar ps ps' →
      (ps.any fun q => q.name == p.name) = ps'.any fun q => q.name == p.name := by
    intro ps ps' hps
    induction hps with
    | nil => rfl
    | cons hq _ ih => rw [List.any_cons, List.any_cons, hq.name, ih]
  refine ⟨h.library, ?_⟩
  unfold Program.addProcedure
  rw [← hp.name, hany h.procedures]
  split
  · rw [List.forall₂_map_left_iff, List.forall₂_map_right_iff]
    apply h.procedures.imp
    intro q q' hq
    rw [hq.name]
    split
    · exact hp
    · exact hq
  · exact List.rel_append h.procedures (.cons hp .nil)

theorem Program.Distinct.addProcedure {g : Program} (h : g.Distinct) (p : Procedure) :
    (g.addProcedure p).Distinct := by
  unfold Program.addProcedure Program.Distinct
  split
  · have hnames : (g.procedures.map fun q => if q.name == p.name then p else q).map
        Procedure.name = g.procedures.map Procedure.name := by
      rw [List.map_map]
      apply List.map_congr_left
      intro q _
      simp only [Function.comp_apply]
      split
      · rename_i heq
        exact (eq_of_beq heq).symm
      · rfl
    simp only [hnames]
    exact h
  · rename_i hnew
    simp only [List.map_append, List.map_cons, List.map_nil]
    rw [List.nodup_append]
    refine ⟨h, by simp, ?_⟩
    intro name hname other hother heq
    obtain ⟨q, hq, rfl⟩ := List.mem_map.mp hname
    rw [List.mem_singleton.mp hother] at heq
    exact hnew (List.any_eq_true.mpr ⟨q, hq, by simpa using heq⟩)

/-! ### States -/

namespace Lowering

/-- The graphs under construction and all finished ones are similar; the rest is the same. -/
structure State.Similar (s s' : State) : Prop where
  temps : s.temps = s'.temps
  current : s.current = s'.current
  exits : s.exits = s'.exits
  proc : s.proc.Similar s'.proc
  program : s.program.Similar s'.program
  distinct : s.program.Distinct

/-- Results with the same value and similar states. -/
def Alike {α : Type} (r r' : α × State) : Prop :=
  ∃ a s s', r = (a, s) ∧ r' = (a, s') ∧ s.Similar s'

namespace State.Similar
variable {s s' : State} (h : s.Similar s')

include h

theorem newTemp : Alike s.newTemp s'.newTemp := by
  refine ⟨_, _, { s' with temps := s'.temps + 1 }, rfl, ?_,
    ⟨congrArg (· + 1) h.temps, h.current, h.exits, h.proc, h.program, h.distinct⟩⟩
  rw [h.temps]
  rfl

theorem emitAt (id : Int) {i i' : Instr} (hi : i.Similar i') :
    (s.emitAt id i).Similar (s'.emitAt id i') :=
  ⟨h.temps, h.current, h.exits, h.proc.modifyNode (fun _ _ hn => hn.addInstr hi) id, h.program,
    h.distinct⟩

theorem emit (loc : Location) {a a' : Action} (ha : a.Similar a') :
    (s.emit loc a).Similar (s'.emit loc a') := by
  unfold State.emit
  rw [← h.current]
  cases s.current with
  | none => exact h
  | some id => exact h.emitAt id ⟨rfl, ha⟩

theorem emit_same (loc : Location) (a : Action) : (s.emit loc a).Similar (s'.emit loc a) :=
  h.emit loc (.refl a)

theorem newNode (kind : NodeKind) : Alike (s.newNode kind) (s'.newNode kind) := by
  have hnext : s.proc.nextId = s'.proc.nextId := h.proc.nextId
  refine ⟨s'.proc.nextId, (s.newNode kind).2, (s'.newNode kind).2, ?_, rfl, ?_⟩
  · rw [← hnext]
    rfl
  refine ⟨h.temps, h.current, h.exits, ?_, h.program, h.distinct⟩
  have hfresh : (s.proc.freshNode kind).2.Similar (s'.proc.freshNode kind).2 := by
    refine ⟨?_, h.proc.nodes⟩
    have hheader := congrArg (fun q : Procedure => { q with nextId := q.nextId + 1 }) h.proc.header
    exact hheader
  apply hfresh.addNode
  rw [hnext]
  exact Node.similar_fresh _ kind

theorem connect (source : Option Int) (target : Int) :
    (s.connect source target).Similar (s'.connect source target) := by
  cases source with
  | none => exact h
  | some id =>
    exact ⟨h.temps, h.current, h.exits, h.proc.connect id target, h.program, h.distinct⟩

theorem connectCurrent (target : Int) :
    (s.connectCurrent target).Similar (s'.connectCurrent target) := by
  unfold State.connectCurrent
  rw [← h.current]
  exact h.connect s.current target

theorem moveTo (id : Int) : (s.moveTo id).Similar (s'.moveTo id) :=
  ⟨h.temps, rfl, h.exits, h.proc, h.program, h.distinct⟩

theorem stop : s.stop.Similar s'.stop :=
  ⟨h.temps, rfl, h.exits, h.proc, h.program, h.distinct⟩

theorem leave : s.leave.Similar s'.leave := by
  refine ⟨h.temps, rfl, ?_, h.proc, h.program, h.distinct⟩
  unfold State.leave
  rw [h.exits, h.current]

/-! The steps that are made of others. -/

theorem fork (source : Option Int) (loc : Location) (condition : Exp)
    (kinds : BranchKind × BranchKind) (yes no : Int) :
    (Lowering.fork s source loc condition kinds yes no).Similar
      (Lowering.fork s' source loc condition kinds yes no) := by
  cases source with
  | none => exact h
  | some id =>
    have hinstr (i : Instr) : i.Similar i := ⟨rfl, .refl _⟩
    have hyes := (h.emitAt id (hinstr ⟨loc, .assume_ condition true kinds.1⟩)).connect (some id) yes
    exact (hyes.emitAt id (hinstr ⟨loc, .assume_ condition false kinds.2⟩)).connect (some id) no

theorem openLoop (loc : Location) (condition : Exp) (kinds : BranchKind × BranchKind) :
    Alike (Lowering.openLoop loc condition kinds s) (Lowering.openLoop loc condition kinds s') := by
  obtain ⟨head, s₁, s₁', h₁, h₁', hs₁⟩ := h.newNode .loopHead
  obtain ⟨body, s₂, s₂', h₂, h₂', hs₂⟩ := hs₁.newNode .normal
  obtain ⟨after, s₃, s₃', h₃, h₃', hs₃⟩ := hs₂.newNode .normal
  unfold Lowering.openLoop
  simp only [h₁, h₁', h₂, h₂', h₃, h₃', h.current]
  exact ⟨_, _, _, rfl, rfl, ((hs₃.connect _ head).fork _ loc condition kinds body after).moveTo body⟩

theorem closeLoop (l : Loop) : (Lowering.closeLoop l s).Similar (Lowering.closeLoop l s') :=
  (h.connectCurrent l.head).moveTo l.after

/-- A change of the header, made to both graphs. -/
theorem setHeader {f : Procedure → Procedure} (hnodes : ∀ p, (f p).nodes = p.nodes)
    (hheader : ∀ p, { f p with nodes := [] } = f { p with nodes := [] }) :
    { s with proc := f s.proc }.Similar { s' with proc := f s'.proc } := by
  refine ⟨h.temps, h.current, h.exits, ⟨?_, ?_⟩, h.program, h.distinct⟩
  · rw [hheader, hheader, h.proc.header]
  · rw [hnodes, hnodes]
    exact h.proc.nodes

/-- A graph begun in both states. -/
theorem begin_ (p : Procedure) (hp : p.nodes = []) :
    { s with proc := p, current := none, exits := [] }.Similar
      { s' with proc := p, current := none, exits := [] } :=
  ⟨h.temps, rfl, rfl, ⟨rfl, hp ▸ .nil⟩, h.program, h.distinct⟩

theorem enter : { (s.newNode .entry).2 with
      proc := { (s.newNode .entry).2.proc with entry := (s.newNode .entry).1 } }.Similar
    { (s'.newNode .entry).2 with
      proc := { (s'.newNode .entry).2.proc with entry := (s'.newNode .entry).1 } } := by
  obtain ⟨entry, t, t', ht, ht', hsim⟩ := h.newNode .entry
  rw [ht, ht']
  exact hsim.setHeader (f := fun q => { q with entry := entry }) (fun _ => rfl) (fun _ => rfl)

theorem openFunction (name : String) (owner : Option String) (params : List (String × TypeNote))
    (loc : Location) (isStatic : Bool) :
    (Lowering.openFunction name owner params loc isStatic s).Similar
      (Lowering.openFunction name owner params loc isStatic s') :=
  (h.begin_ _ rfl).enter.moveTo 0

theorem connectExits (target : Int) :
    (s.exits.foldl (fun s id => s.connect (some id) target) s).Similar
      (s'.exits.foldl (fun s id => s.connect (some id) target) s') := by
  rw [← h.exits]
  exact List.foldl_rel h fun id _ _ _ ht => ht.connect (some id) target

theorem finish : { s with program := s.program.addProcedure s.proc }.Similar
    { s' with program := s'.program.addProcedure s'.proc } :=
  ⟨h.temps, h.current, h.exits, h.proc, h.program.addProcedure h.proc, h.distinct.addProcedure _⟩

theorem closeFunction : (Lowering.closeFunction s).Similar (Lowering.closeFunction s') := by
  obtain ⟨exit, t, t', ht, ht', hsim⟩ := h.newNode .exit
  unfold Lowering.closeFunction
  rw [ht, ht']
  have hexit := hsim.setHeader (f := fun q => { q with exit := exit }) (fun _ => rfl) (fun _ => rfl)
  exact ((hexit.connectCurrent exit).connectExits exit).finish

end State.Similar

end Lowering

/-! ### Discovery -/

theorem Action.Similar.call_right {a a' : Action} (h : a.Similar a') {ret : Option String}
    {v : Invocation} (ha : a = .call ret v) : a' = .call ret v := by
  cases h with
  | refl => exact ha
  | handOff => cases ha

theorem Action.Similar.handOff_right {a a' : Action} (h : a.Similar a') {ret : Option String}
    {v : Invocation} {givenUp : List Int} {description : String}
    (ha : a = .handOff ret v givenUp description) :
    ∃ v' givenUp', a' = .handOff ret v' givenUp' description := by
  cases h with
  | refl => exact ⟨v, givenUp, ha⟩
  | handOff =>
    cases ha
    exact ⟨_, _, rfl⟩

theorem Procedure.Similar.instrs {p p' : Procedure} (h : p.Similar p') (id : Int) :
    List.Forall₂ Instr.Similar (p.instrsAt id) (p'.instrsAt id) := by
  unfold Procedure.instrsAt Procedure.node?
  have hnodes := h.nodes
  generalize p.nodes = ns at hnodes
  generalize p'.nodes = ns' at hnodes
  induction hnodes with
  | nil => exact .nil
  | @cons n n' _ _ hn _ ih =>
    rw [List.find?_cons, List.find?_cons, hn.id]
    split
    · exact hn.instrs
    · exact ih

theorem Procedure.Similar.instrAt? {p p' : Procedure} (h : p.Similar p') {id : StatementId}
    {i : Instr} (hi : p.instrAt? id = some i) :
    ∃ i', p'.instrAt? id = some i' ∧ i.Similar i' := by
  obtain ⟨n, k, rfl, hk⟩ := Procedure.exists_of_instrAt? hi
  obtain ⟨hlt, rfl⟩ := List.getElem?_eq_some_iff.mp hk
  have hinstrs := h.instrs n
  refine ⟨_, ?_, hinstrs.get hlt (hinstrs.length_eq ▸ hlt)⟩
  rw [h.name, Procedure.instrAt?_mk]
  exact List.getElem?_eq_getElem _

theorem Program.Distinct.eq {g : Program} (h : g.Distinct) {p q : Procedure}
    (hp : p ∈ g.procedures) (hq : q ∈ g.procedures) (hname : p.name = q.name) : p = q := by
  have hfound := Program.find?_of_mem h hp
  rw [hname, Program.find?_of_mem h hq] at hfound
  exact (Option.some.inj hfound).symm

/-- The symbol is discovered at the statement, when `t` is the table before. -/
def Program.GivenUpAt (g : Program) (t : SummaryTable) (id : StatementId) (x : Symbol) : Prop :=
  ⟨x, id, id.procedure⟩ ∈ ((HandOffPoint.discover (.ofProgram g)).run t).1

namespace Program.GivenUpAt
variable {g : Program} (hg : g.Distinct) {t : SummaryTable} (ht : Built (.ofProgram g) t)
variable {p : Procedure} (hp : p ∈ g.procedures) {id : StatementId} {i : Instr}
variable (hi : p.instrAt? id = some i) {x : Symbol}

include hg ht hp hi

/-- What is discovered at a statement comes from the arguments that it hands off. -/
theorem iff_handedOff : g.GivenUpAt t id x ↔
    ∃ arg ∈ ((HandOffPoint.handedOff (.ofProgram g) p i.action).run
        ((HandOffPoint.discover (.ofProgram g)).run t).2).1,
      ∃ part ∈ Summary.handedParts arg, x ∈ (⟨p, g.library⟩ : Scope).flowing part := by
  obtain ⟨n, k, rfl, _⟩ := Procedure.exists_of_instrAt? hi
  unfold GivenUpAt
  rw [HandOffPoint.mem_discover (Context.coherent_ofProgram g) ht]
  constructor
  · rintro ⟨f, hf, st, hst, hmem⟩
    obtain ⟨q, hq, rfl⟩ := List.mem_map.mp hf
    obtain ⟨arg, harg, part, hpart, y, hy, heq⟩ := HandOffPoint.mem_ofStatement.mp hmem
    obtain ⟨rfl, hst', hname⟩ := HandOffPoint.mk.inj heq
    obtain rfl : q = p := hg.eq hq hp hname
    have hi' : q.instrAt? st.1 = some st.2 := Procedure.mem_statements.mp hst
    rw [hst', hi, Option.some.injEq] at hi'
    exact ⟨arg, hi' ▸ harg, part, hpart, hy⟩
  · rintro ⟨arg, harg, part, hpart, hx⟩
    exact ⟨Flow.ofScope ⟨p, g.library⟩, List.mem_map_of_mem hp, (_, i),
      Procedure.mem_statements.mpr hi,
      HandOffPoint.mem_ofStatement.mpr ⟨arg, harg, part, hpart, x, hx, rfl⟩⟩

theorem iff_handOff {ret : Option String} {v : Invocation} {givenUp : List Int}
    {description : String} (ha : i.action = .handOff ret v givenUp description) :
    g.GivenUpAt t id x ↔ ∃ arg ∈ i.action.givenUpArgs, ∃ part ∈ Summary.handedParts arg,
      x ∈ (⟨p, g.library⟩ : Scope).flowing part := by
  rw [iff_handedOff hg ht hp hi, ha]
  rfl

/-- At a call, the positions that the callee gives up select among the arguments as they stand. -/
theorem iff_call {ret : Option String} {v : Invocation} (ha : i.action = .call ret v)
    {q : Procedure} (hq : g.resolveCallee v p = some q) :
    g.GivenUpAt t id x ↔ ∃ k ∈ ((SummaryTable.request (.ofProgram g) q.name).run
        ((HandOffPoint.discover (.ofProgram g)).run t).2).1.givenUpParams,
      ∃ arg ∈ v.args[k]?, ∃ part ∈ Summary.handedParts arg,
        x ∈ (⟨p, g.library⟩ : Scope).flowing part := by
  rw [iff_handedOff hg ht hp hi, ha]
  generalize ((HandOffPoint.discover (.ofProgram g)).run t).2 = u
  have hrun : ((HandOffPoint.handedOff (.ofProgram g) p (.call ret v)).run u).1 =
      (sortPositions ((SummaryTable.request (.ofProgram g) q.name).run u).1.givenUpParams).filterMap
        fun k => v.args[k]? := by
    have hq' : (Context.ofProgram g).program.resolveCallee v p = some q := hq
    unfold HandOffPoint.handedOff
    simp only [hq']
    rfl
  rw [hrun]
  simp only [List.mem_filterMap, sortPositions, List.mem_mergeSort]
  constructor
  · rintro ⟨arg, ⟨k, hk, harg⟩, hpart⟩
    exact ⟨k, hk, arg, harg, hpart⟩
  · rintro ⟨k, hk, arg, harg, hpart⟩
    exact ⟨arg, ⟨k, hk, harg⟩, hpart⟩

end Program.GivenUpAt

theorem Program.Similar.distinct {g g' : Program} (h : g.Similar g') (hg : g.Distinct) :
    g'.Distinct := by
  have hnames : g.procedures.map Procedure.name = g'.procedures.map Procedure.name := by
    rw [← List.forall₂_eq_eq_eq, List.forall₂_map_left_iff, List.forall₂_map_right_iff]
    exact h.procedures.imp fun _ _ hp => hp.name
  unfold Program.Distinct
  rw [← hnames]
  exact hg

theorem Program.Similar.exists_procedure {g g' : Program} (h : g.Similar g') {p : Procedure}
    (hp : p ∈ g.procedures) : ∃ p' ∈ g'.procedures, p.Similar p' := by
  obtain ⟨k, hk, rfl⟩ := List.mem_iff_getElem.mp hp
  have hk' := h.procedures.length_eq ▸ hk
  exact ⟨_, List.getElem_mem hk', h.procedures.get hk hk'⟩

/-- At similar hand-offs the same symbols are discovered. -/
theorem Program.Similar.givenUpAt_iff {g g' : Program} (h : g.Similar g') (hg : g.Distinct)
    {t t' : SummaryTable} (ht : Built (.ofProgram g) t) (ht' : Built (.ofProgram g') t')
    {p p' : Procedure} (hp : p ∈ g.procedures) (hp' : p' ∈ g'.procedures) (hsim : p.Similar p')
    {id : StatementId} {i i' : Instr} (hi : p.instrAt? id = some i)
    (hi' : p'.instrAt? id = some i') (hinstr : i.Similar i') {ret : Option String} {v : Invocation}
    {givenUp : List Int} {description : String}
    (ha : i.action = .handOff ret v givenUp description) {x : Symbol} :
    g.GivenUpAt t id x ↔ g'.GivenUpAt t' id x := by
  obtain ⟨v', givenUp', ha'⟩ := hinstr.action.handOff_right ha
  rw [GivenUpAt.iff_handOff hg ht hp hi ha, GivenUpAt.iff_handOff (h.distinct hg) ht' hp' hi' ha',
    h.library]
  simp only [hinstr.action.givenUpArgs_perm.mem_iff, Scope.flowing_congr hsim.header]

end ActorOwnership
