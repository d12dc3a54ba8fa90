import ActorOwnership.Proofs.Final

/-! Which calls become hand-off instructions. A call that stands alone or is assigned to a plain name
is lowered as an instruction. A call in the place of a value, such as an argument, is one only if it
is a hand-off itself, and hand-offs below any other call are not looked for. The graph of a function
has exactly the hand-offs that are found in this way, each of them once. -/

namespace ActorOwnership
set_option autoImplicit false

/-- What a hand-off instruction gives away. -/
structure Handover where
  loc : Location
  callee : Exp
  receiver : Option Exp
  givenUp : List Int
  description : String

def Instr.handover? (i : Instr) : Option Handover :=
  match i.action with
  | .handOff _ v givenUp description => some ⟨i.loc, v.func, v.receiver, givenUp, description⟩
  | _ => none

/-! ### The hand-offs of a graph -/

namespace Procedure
variable {p : Procedure} {id : Int}

def handovers (p : Procedure) : List Handover :=
  p.nodes.flatMap fun n => n.instrs.filterMap Instr.handover?

/-- No two nodes have the same name. -/
def Distinct (p : Procedure) : Prop := (p.nodes.map Node.id).Nodup

theorem find?_id_of_nodup {nodes : List Node} (h : (nodes.map Node.id).Nodup) {n : Node}
    (hn : n ∈ nodes) : nodes.find? (·.id == n.id) = some n := by
  induction nodes with
  | nil => cases hn
  | cons m nodes ih =>
    rw [List.map_cons, List.nodup_cons] at h
    rcases List.mem_cons.mp hn with rfl | hn
    · simp
    · have hne : (m.id == n.id) = false := by
        rw [beq_eq_false_iff_ne]
        intro heq
        exact h.1 (heq ▸ List.mem_map_of_mem hn)
      rw [List.find?_cons, hne]
      exact ih h.2 hn

theorem sortedNodes_perm (h : p.Distinct) : p.sortedNodes.Perm p.nodes := by
  have hids : ∀ nodes : List Node, (∀ n ∈ nodes, p.node? n.id = some n) →
      (nodes.map Node.id).filterMap p.node? = nodes := by
    intro nodes hfind
    induction nodes with
    | nil => rfl
    | cons n nodes ih =>
      rw [List.map_cons, List.filterMap_cons_some (hfind n List.mem_cons_self),
        ih fun m hm => hfind m (List.mem_cons_of_mem _ hm)]
  have hsorted := (List.mergeSort_perm (p.nodes.map Node.id) fun a b => a ≤ b).filterMap p.node?
  rwa [hids p.nodes fun n hn => find?_id_of_nodup h hn] at hsorted

theorem statements_perm (h : p.Distinct) :
    (p.statements.filterMap fun x => x.2.handover?).Perm p.handovers := by
  have hnode : ∀ n, (p.statementsOf n).filterMap (fun x => x.2.handover?) =
      n.instrs.filterMap Instr.handover? := by
    intro n
    calc (p.statementsOf n).filterMap (fun x => x.2.handover?)
        = (n.instrs.zipIdx.map Prod.fst).filterMap Instr.handover? := by
          rw [statementsOf, List.filterMap_map, List.filterMap_map]
          rfl
      _ = n.instrs.filterMap Instr.handover? := by rw [List.zipIdx_map_fst]
  unfold statements handovers
  rw [List.filterMap_flatMap]
  simp only [hnode]
  exact (sortedNodes_perm h).flatMap_right _

theorem distinct_modifyNode (f : Node → Node) (hf : ∀ n, (f n).id = n.id) (h : p.Distinct) :
    (p.modifyNode id f).Distinct := by
  have hids : (p.modifyNode id f).nodes.map Node.id = p.nodes.map Node.id := by
    unfold modifyNode
    rw [List.map_map]
    apply List.map_congr_left
    intro n _
    simp only [Function.comp]
    split
    · exact hf n
    · rfl
  unfold Distinct
  rwa [hids]

theorem handovers_modifyNode (f : Node → Node) (hf : ∀ n, (f n).instrs = n.instrs) :
    (p.modifyNode id f).handovers = p.handovers := by
  unfold handovers modifyNode
  rw [List.flatMap_map]
  congr 1
  funext n
  split
  · rw [hf]
  · rfl

theorem handovers_connect (source target : Int) :
    (p.connect source target).handovers = p.handovers := by
  unfold connect
  split
  · rw [handovers_modifyNode (·.addPred source) fun _ => rfl,
      handovers_modifyNode (·.addSucc target) fun _ => rfl]
  · rfl

theorem distinct_connect (source target : Int) (h : p.Distinct) :
    (p.connect source target).Distinct := by
  unfold connect
  split
  · exact distinct_modifyNode _ (fun _ => rfl) (distinct_modifyNode _ (fun _ => rfl) h)
  · exact h

/-- A new instruction is counted once, because only one node has the name. -/
theorem handovers_addInstr (h : p.Distinct) (hid : p.hasNode id = true) (i : Instr) :
    (p.modifyNode id (·.addInstr i)).handovers.Perm (p.handovers ++ i.handover?.toList) := by
  unfold Distinct at h
  unfold hasNode at hid
  unfold handovers modifyNode
  generalize p.nodes = nodes at h hid
  simp only
  induction nodes with
  | nil => simp at hid
  | cons n nodes ih =>
    rw [List.map_cons, List.nodup_cons] at h
    rw [List.map_cons, List.flatMap_cons, List.flatMap_cons]
    by_cases hn : n.id = id
    · have hrest : nodes.map (fun m => if m.id == id then m.addInstr i else m) = nodes := by
        rw [List.map_congr_left, List.map_id]
        intro m hm
        have hne : m.id ≠ id := by
          rintro rfl
          exact h.1 (hn ▸ List.mem_map_of_mem hm)
        simp [hne]
      rw [hrest, if_pos (by simpa using hn), Node.addInstr, List.filterMap_append,
        List.append_assoc, List.append_assoc]
      have hone : List.filterMap Instr.handover? [i] = i.handover?.toList := by
        cases hi : i.handover? <;> simp [hi]
      rw [hone]
      exact List.perm_append_comm.append_left _
    · rw [if_neg (by simpa using hn), List.append_assoc]
      refine (ih h.2 ?_).append_left _
      simpa [hn] using hid

end Procedure

namespace Lowering
open Surface State

/-! ### Steps of a graph -/

/-- From `s` to `t` the graph got the hand-offs `hs`, somewhere. -/
structure Hands (hs : List Handover) (s t : State) : Prop where
  distinct : s.proc.Distinct → t.proc.Distinct
  handed : s.proc.Distinct → t.proc.handovers.Perm (s.proc.handovers ++ hs)

section Hands
variable {hs hs' : List Handover} {s t u : State}

theorem Hands.of_proc (h : t.proc = s.proc) : Hands [] s t := by
  refine ⟨fun hs => h ▸ hs, fun _ => ?_⟩
  rw [h, List.append_nil]

theorem Hands.trans (h : Hands hs s t) (h' : Hands hs' t u) : Hands (hs ++ hs') s u := by
  refine ⟨fun hs => h'.distinct (h.distinct hs), fun hs => ?_⟩
  rw [← List.append_assoc]
  exact (h'.handed (h.distinct hs)).trans ((h.handed hs).append_right _)

/-- A step after which no hand-off is added. -/
theorem Hands.andThen (h : Hands hs s t) (h' : Hands [] t u) : Hands hs s u :=
  List.append_nil hs ▸ h.trans h'

theorem hands_newNode (kind : NodeKind) (hs : Good s) : Hands [] s (s.newNode kind).2 := by
  have hnodes := nodes_newNode kind hs.toSized
  constructor
  · intro hdistinct
    have hfresh : s.size ∉ s.proc.nodes.map Node.id := by
      have hnode := hs.not_hasNode (Int.le_refl _)
      simpa [Procedure.hasNode] using hnode
    unfold Procedure.Distinct
    rw [hnodes, List.map_append]
    refine List.nodup_append.mpr ⟨hdistinct, by simp, ?_⟩
    rintro a ha b hb rfl
    obtain rfl : a = s.size := List.mem_singleton.mp hb
    exact hfresh ha
  · intro _
    unfold Procedure.handovers
    rw [hnodes]
    simp

theorem hands_connect (s : State) (source : Option Int) (target : Int) :
    Hands [] s (s.connect source target) := by
  cases source with
  | none => exact .of_proc rfl
  | some c =>
    refine ⟨Procedure.distinct_connect c target, fun _ => ?_⟩
    rw [List.append_nil]
    exact .of_eq (Procedure.handovers_connect c target)

theorem hands_emitAt (s : State) {id : Int} (hid : s.proc.hasNode id = true) (i : Instr) :
    Hands i.handover?.toList s (s.emitAt id i) :=
  ⟨Procedure.distinct_modifyNode _ fun _ => rfl, fun h => Procedure.handovers_addInstr h hid i⟩

theorem hands_jump (s : State) (target next : Int) : Hands [] s (s.jump target next) :=
  (hands_connect s s.current target).andThen (.of_proc rfl)

theorem hands_branch (hs : Good s) (loc : Location) (condition : Exp)
    (kinds : BranchKind × BranchKind) (yes no : Int) :
    Hands [] s (s.branch loc condition kinds yes no) := by
  unfold branch fork
  cases hc : s.current with
  | none => exact .of_proc rfl
  | some c =>
    have hnode := hs.hasNode hc
    have hfirst := (hands_emitAt s hnode ⟨loc, .assume_ condition true kinds.1⟩).andThen
      (hands_connect _ (some c) yes)
    have hnode' : ((s.emitAt c ⟨loc, .assume_ condition true kinds.1⟩).connect (some c)
        yes).proc.hasNode c = true :=
      Procedure.hasNode_connect.trans ((Procedure.hasNode_addInstr _).trans hnode)
    have hsecond := (hfirst.trans
      (hands_emitAt _ hnode' ⟨loc, .assume_ condition false kinds.2⟩)).andThen
      (hands_connect _ (some c) no)
    exact hsecond.andThen (.of_proc rfl)

theorem hands_openClause (hs : Good s) (loc : Location) (condition : Exp) :
    Hands [] s (s.openClause loc condition) :=
  ((hands_newNode .normal hs).andThen (hands_newNode .normal (hs.newNode .normal))).andThen
    (hands_branch (grows_spare hs).good loc condition _ _ _)

theorem hands_openBody (hs : Good s) (loc : Location) (condition : Exp)
    (kinds : BranchKind × BranchKind) : Hands [] s (s.openBody loc condition kinds) := by
  have hhead := hs.newNode .loopHead
  have hspare : Hands [] s (s.newNode .loopHead).2.spare :=
    ((hands_newNode .loopHead hs).andThen (hands_newNode .normal hhead)).andThen
      (hands_newNode .normal (hhead.newNode .normal))
  exact (hspare.andThen (hands_jump _ s.size s.size)).andThen
    (hands_branch (grows_openHead hs).good loc condition kinds _ _)

theorem hands_enterHandler (hw : Good s) (before bodyEnd : Option Int) :
    Hands [] s (enterHandler before bodyEnd s) :=
  (((hands_newNode .exception hw).andThen (hands_connect _ before _)).andThen
    (hands_connect _ bodyEnd _)).andThen (.of_proc rfl)

theorem hands_openJoin (hs : Good s) : Hands [] s (openJoin s) :=
  ((hands_newNode .join hs).andThen (hands_jump _ s.size s.size)).andThen (.of_proc rfl)

theorem hands_goTo (pick : Loop → Int) (loop : Option Loop) (s : State) :
    Hands [] s (goTo pick loop s) := by
  cases loop with
  | none => exact .of_proc rfl
  | some l => exact (hands_jump s (pick l) (pick l)).andThen (.of_proc rfl)

theorem hands_closed (hs : Good s) : Hands [] s (closed s) := by
  have hexit : Hands [] s ((withExit s).connectCurrent s.size) := by
    have hexit := hands_newNode .exit hs
    have hset : Hands [] (s.newNode .exit).2 (withExit s) :=
      ⟨fun h => h, fun _ => .of_eq (List.append_nil _).symm⟩
    exact (hexit.andThen hset).andThen (hands_connect _ _ _)
  have hall : ∀ (ids : List Int) (t : State),
      Hands [] t (ids.foldl (fun t id => t.connect (some id) s.size) t) := by
    intro ids
    induction ids with
    | nil => exact fun t => .of_proc rfl
    | cons id ids ih => exact fun t => (hands_connect t (some id) s.size).andThen (ih _)
  exact hexit.andThen (hall s.exits _)

end Hands

/-! ### Steps that only emit instructions -/

/-- The step emits instructions, the hand-offs `hs` among them. -/
def Yields (hs : List Handover) (f : State → State) : Prop :=
  Emits f ∧ ∀ s, Good s → Hands (if s.current.isSome then hs else []) s (f s)

section Yields
variable {α : Type} {hs hs' : List Handover}

theorem Yields.comp {f g : State → State} (hf : Yields hs f) (hg : Yields hs' g) :
    Yields (hs ++ hs') fun s => g (f s) := by
  refine ⟨hg.1.comp hf.1, fun s hs => ?_⟩
  have hgood : Good (f s) := (extends_emits (T := fun _ => False) hs hf.1).good
  have hboth := (hf.2 s hs).trans (hg.2 (f s) hgood)
  rw [current_emits hf.1] at hboth
  split
  · rename_i hc
    rwa [if_pos hc, if_pos hc] at hboth
  · rename_i hc
    rwa [if_neg hc, if_neg hc] at hboth

theorem Yields.andThen {f : State → α × State} (hf : Plain f) (hyields : Yields hs fun s => (f s).2)
    {g : α → State → State} (hg : ∀ a, Yields hs' (g a)) :
    Yields (hs ++ hs') fun s => g (f s).1 (f s).2 :=
  ⟨hf.andThen fun a => (hg a).1, fun s => (hyields.comp (hg (f s).1)).2 s⟩

theorem Yields.congr {f g : State → State} (hf : Yields hs f) (h : ∀ s, g s = f s) : Yields hs g :=
  funext h ▸ hf

theorem Yields.of_eq {f : State → State} (hf : Yields hs f) (h : hs = hs') : Yields hs' f := h ▸ hf

theorem yields_id : Yields [] fun s => s :=
  ⟨emits_id, fun s _ => by rw [ite_self]; exact .of_proc rfl⟩

theorem yields_newTemp : Yields [] fun s => s.newTemp.2 :=
  ⟨plain_newTemp.2, fun s _ => by rw [ite_self]; exact .of_proc rfl⟩

theorem yields_emit (loc : Location) (action : Action) :
    Yields (Instr.handover? ⟨loc, action⟩).toList fun s => s.emit loc action := by
  refine ⟨emits_emit loc action, fun s hs => ?_⟩
  simp only [emit]
  cases hc : s.current with
  | none => exact .of_proc rfl
  | some c => exact hands_emitAt s (hs.hasNode hc) ⟨loc, action⟩

theorem Yields.foldl {f : State → α → State} {h : α → List Handover} (as : List α)
    (hf : ∀ a, Yields (h a) fun s => f s a) : Yields (as.flatMap h) fun s => as.foldl f s := by
  induction as with
  | nil => exact yields_id
  | cons a as ih => exact (hf a).comp ih

end Yields

/-! ### Operands and assignments -/

section Operands
variable (catalog : Catalog) (loc : Location)

/-- The hand-off that a call of this name is, if the catalog has the name. -/
def callHandover (name : String) (receiver : Option Exp) (args : List Argument) : List Handover :=
  ((catalog.find? name).map fun spec => ⟨loc, .const (.text name), receiver,
    givenUpIndices spec (args.map Argument.keyword), spec.description⟩).toList

mutual

/-- The hand-offs that an operand in the place of a value becomes. -/
def operandHandovers : Operand → List Handover
  | .value _ => []
  | .call name receiver args =>
    if (catalog.find? name).isSome then
      argumentHandovers args ++ callHandover catalog loc name receiver args
    else []

def argumentHandovers : List Argument → List Handover
  | [] => []
  | .mk _ v :: args => operandHandovers v ++ argumentHandovers args

end

/-- The hand-offs of a call that is an instruction. -/
def callHandovers (name : String) (receiver : Option Exp) (args : List Argument) : List Handover :=
  argumentHandovers catalog loc args ++ callHandover catalog loc name receiver args

def assignHandovers (d : Destination) (v : Operand) : List Handover :=
  match d, v with
  | .name _, .call name receiver args => callHandovers catalog loc name receiver args
  | _, v => operandHandovers catalog loc v

def tempHandovers : Operand → List Handover
  | .call name receiver args => callHandovers catalog loc name receiver args
  | .value _ => []

def pairsHandovers (pairs : List Pair) : List Handover :=
  if overlaps pairs then pairs.flatMap fun p => tempHandovers catalog loc p.value
  else pairs.flatMap fun p => assignHandovers catalog loc p.destination p.value

def itemHandovers (item : WithItem) : List Handover :=
  match item.alias_ with
  | some d => assignHandovers catalog loc d item.value
  | none => tempHandovers catalog loc item.value

theorem handover?_callAction (ret : Option String) (name : String) (receiver : Option Exp)
    (args : List Argument) (es : List Exp) :
    (Instr.handover? ⟨loc, callAction catalog ret name receiver (args.map Argument.keyword)
      es⟩).toList = callHandover catalog loc name receiver args := by
  unfold callAction callHandover
  cases catalog.find? name <;> rfl

theorem yields_callAction (ret : Option String) (name : String) (receiver : Option Exp)
    (args : List Argument) (es : List Exp) : Yields (callHandover catalog loc name receiver args)
      fun s => s.emit loc (callAction catalog ret name receiver (args.map Argument.keyword) es) :=
  (yields_emit loc _).of_eq (handover?_callAction catalog loc ret name receiver args es)

mutual

theorem yields_lowerOperand : ∀ v,
    Yields (operandHandovers catalog loc v) fun s => (lowerOperand catalog loc v s).2
  | .value e => by
    rw [operandHandovers]
    exact yields_id.congr fun s => by rw [lowerOperand]
  | .call name receiver args => by
    rw [operandHandovers]
    by_cases hname : (catalog.find? name).isSome = true
    · have hargs : ∀ temp, Yields (argumentHandovers catalog loc args ++
          callHandover catalog loc name receiver args) fun s =>
            (lowerArguments catalog loc args s).2.emit loc (callAction catalog (some temp) name
              receiver (args.map Argument.keyword) (lowerArguments catalog loc args s).1) :=
        fun temp => Yields.andThen (plain_lowerArguments catalog loc args)
          (yields_lowerArguments args) fun es => yields_callAction catalog loc _ name receiver args es
      rw [if_pos hname]
      apply (Yields.andThen plain_newTemp yields_newTemp hargs).congr
      intro s
      rw [lowerOperand, if_pos hname]
    · rw [if_neg hname]
      exact yields_id.congr fun s => by rw [lowerOperand, if_neg hname]

theorem yields_lowerArguments : ∀ args,
    Yields (argumentHandovers catalog loc args) fun s => (lowerArguments catalog loc args s).2
  | [] => by
    rw [argumentHandovers]
    exact yields_id.congr fun s => by rw [lowerArguments]
  | .mk keyword v :: args => by
    rw [argumentHandovers]
    apply ((yields_lowerOperand v).comp (yields_lowerArguments args)).congr
    intro s
    rw [lowerArguments]

end

theorem yields_lowerCall (ret : Option String) (name : String) (receiver : Option Exp)
    (args : List Argument) : Yields (callHandovers catalog loc name receiver args)
      (lowerCall catalog loc ret name receiver args) :=
  Yields.andThen (plain_lowerArguments catalog loc args) (yields_lowerArguments catalog loc args)
    fun es => yields_callAction catalog loc _ name receiver args es

theorem yields_writeTarget (value : Exp) (target : Target) :
    Yields [] fun s => writeTarget loc value s target := by
  cases target with
  | name id => exact yields_emit loc (.assign id value)
  | path text e => exact yields_emit loc (.store e value)

theorem yields_writeTargets (targets : List Target) (value : Exp) :
    Yields [] (writeTargets loc targets value) := by
  have hall : ∀ value, Yields [] fun s => targets.foldl (writeTarget loc value) s :=
    fun value => (Yields.foldl targets (yields_writeTarget loc value)).of_eq (by simp)
  unfold writeTargets
  split
  · split
    · exact Yields.andThen plain_newTemp yields_newTemp
        (g := fun temp s =>
          targets.foldl (writeTarget loc (.var temp)) (s.emit loc (.assign temp _)))
        fun temp => (yields_emit loc _).comp (hall (.var temp))
    · exact hall _
  · exact hall _

theorem yields_assignOperand (d : Destination) (v : Operand) :
    Yields (assignHandovers catalog loc d v) (assignOperand catalog loc d v) := by
  have hvalue : ∀ v, Yields (operandHandovers catalog loc v) fun s => writeTargets loc d.targets
      (lowerOperand catalog loc v s).1 (lowerOperand catalog loc v s).2 := fun v =>
    (Yields.andThen (plain_lowerOperand catalog loc v) (yields_lowerOperand catalog loc v)
      (yields_writeTargets loc d.targets)).of_eq (List.append_nil _)
  cases d with
  | pattern targets => exact hvalue v
  | name id =>
    cases v with
    | value e => exact hvalue (.value e)
    | call name receiver args => exact yields_lowerCall catalog loc (some id) name receiver args

theorem yields_assignTemp (v : Operand) :
    Yields (tempHandovers catalog loc v) fun s => (assignTemp catalog loc v s).2 := by
  cases v with
  | value e =>
    exact Yields.andThen plain_newTemp yields_newTemp
      (g := fun temp s => s.emit loc (.assign temp e)) fun temp => yields_emit loc _
  | call name receiver args =>
    exact Yields.andThen plain_newTemp yields_newTemp
      (g := fun temp s => lowerCall catalog loc (some temp) name receiver args s)
      fun temp => yields_lowerCall catalog loc _ name receiver args

theorem yields_assignTemps (pairs : List Pair) :
    Yields (pairs.flatMap fun p => tempHandovers catalog loc p.value)
      fun s => (assignTemps catalog loc pairs s).2 := by
  induction pairs with
  | nil => exact yields_id
  | cons p pairs ih => exact (yields_assignTemp catalog loc p.value).comp ih

theorem yields_assignPairs (pairs : List Pair) :
    Yields (pairsHandovers catalog loc pairs) (assignPairs catalog loc pairs) := by
  unfold assignPairs pairsHandovers
  split
  · refine (Yields.andThen (plain_assignTemps catalog loc pairs)
      (yields_assignTemps catalog loc pairs) (g := fun temps s =>
        (pairs.zip temps).foldl (fun s x => writeTargets loc x.1.destination.targets x.2 s) s)
      fun temps => ?_).of_eq (List.append_nil _)
    exact (Yields.foldl (pairs.zip temps) fun x => yields_writeTargets loc _ x.2).of_eq (by simp)
  · exact Yields.foldl pairs fun p => yields_assignOperand catalog loc _ _

theorem yields_lowerWithItem (item : WithItem) :
    Yields (itemHandovers catalog loc item) fun s => lowerWithItem catalog loc s item := by
  obtain ⟨alias_, v⟩ := item
  cases alias_ with
  | some d => exact yields_assignOperand catalog loc d v
  | none =>
    cases v with
    | value e => exact yields_id
    | call name receiver args => exact yields_lowerCall catalog loc none name receiver args

theorem yields_giveBack (v : Option Operand) :
    Yields (v.toList.flatMap (operandHandovers catalog loc)) (giveBack catalog loc v) := by
  cases v with
  | none => exact yields_emit loc (.return_ none)
  | some v =>
    exact Yields.andThen (plain_lowerOperand catalog loc v) (yields_lowerOperand catalog loc v)
      (g := fun e s => s.emit loc (.return_ (some e))) fun e => yields_emit loc _

end Operands

/-! ### Statements -/

mutual

/-- Whether what follows a statement can be reached, if the statement itself can (`live`). -/
def stmtLive (live : Bool) : Stmt → Bool
  | .return_ .. | .raise | .break_ | .continue_ => false
  | .branch .. | .while_ .. | .for_ .. => true
  | .try_ body orElse handlers final =>
    blockLive (!handlers.isEmpty || blockLive (blockLive live body) orElse) final
  | .with_ _ _ body => blockLive live body
  | _ => live

def blockLive (live : Bool) : List Stmt → Bool
  | [] => live
  | stmt :: stmts => blockLive (stmtLive live stmt) stmts

end

section Statements
variable (catalog : Catalog)

/-- The hand-offs of a statement without the blocks in it. -/
def headHandovers : Stmt → List Handover
  | .call loc name receiver args => callHandovers catalog loc name receiver args
  | .declare loc _ _ init => init.toList.flatMap (operandHandovers catalog loc)
  | .assign loc d v => assignHandovers catalog loc d v
  | .assignEach loc pairs => pairsHandovers catalog loc pairs
  | .augment loc _ _ _ v => operandHandovers catalog loc v
  | .return_ loc v => v.toList.flatMap (operandHandovers catalog loc)
  | .with_ loc items _ => items.flatMap (itemHandovers catalog loc)
  | _ => []

mutual

/-- The hand-offs that a statement becomes. The clauses of a branch, the body of a loop and a handler
have nodes of their own and are lowered in any case; a function has its own graph. -/
def stmtHandovers (live : Bool) : Stmt → List Handover
  | .branch clauses orElse =>
    clausesHandovers clauses ++ blockHandovers (live || !clauses.isEmpty) orElse
  | .while_ _ _ body => blockHandovers true body
  | .for_ _ _ _ body => blockHandovers true body
  | .try_ body orElse handlers final =>
    blockHandovers live body ++ blockHandovers (blockLive live body) orElse ++
      handlersHandovers handlers ++
      blockHandovers (!handlers.isEmpty || blockLive (blockLive live body) orElse) final
  | .with_ loc items body =>
    (if live then headHandovers catalog (.with_ loc items body) else []) ++ blockHandovers live body
  | stmt => if live then headHandovers catalog stmt else []

def blockHandovers (live : Bool) : List Stmt → List Handover
  | [] => []
  | stmt :: stmts => stmtHandovers live stmt ++ blockHandovers (stmtLive live stmt) stmts

def clausesHandovers : List Clause → List Handover
  | [] => []
  | .mk _ _ body :: clauses => blockHandovers true body ++ clausesHandovers clauses

def handlersHandovers : List (List Stmt) → List Handover
  | [] => []
  | handler :: handlers => blockHandovers true handler ++ handlersHandovers handlers

end

theorem yields_simple {stmt : Stmt} (h : isSimple stmt = true) :
    Yields (headHandovers catalog stmt) (lowerStmt catalog none stmt) := by
  cases stmt with
  | call loc name receiver args =>
    exact (yields_lowerCall catalog loc none name receiver args).congr fun s => by rw [lowerStmt]
  | declare loc name type init =>
    cases init with
    | none =>
      exact (yields_emit loc (.declare name (.named type) none)).congr fun s => by rw [lowerStmt]
    | some v =>
      refine (Yields.andThen (plain_lowerOperand catalog loc v) (yields_lowerOperand catalog loc v)
        (g := fun e s => s.emit loc (.declare name (.named type) (some e))) ?_).congr ?_
      · exact fun e => yields_emit loc _
      · exact fun s => by rw [lowerStmt]
  | assign loc d v => exact (yields_assignOperand catalog loc d v).congr fun s => by rw [lowerStmt]
  | assignEach loc pairs =>
    exact (yields_assignPairs catalog loc pairs).congr fun s => by rw [lowerStmt]
  | augment loc target op left v =>
    refine ((Yields.andThen (plain_lowerOperand catalog loc v) (yields_lowerOperand catalog loc v)
      (g := fun e s => target.toList.foldl (writeTarget loc (.binary op left e)) s) ?_).of_eq
        (List.append_nil _)).congr ?_
    · intro e
      exact (Yields.foldl target.toList (yields_writeTarget loc _)).of_eq (by simp)
    · exact fun s => by rw [lowerStmt]
  | _ => cases h

theorem current_goTo (pick : Loop → Int) (loop : Option Loop) (s : State) :
    (goTo pick loop s).current = none := by
  cases loop <;> rfl

variable {catalog} in
theorem live_simple {stmt : Stmt} (h : isSimple stmt = true) (loop : Option Loop) (s : State) :
    (lowerStmt catalog loop stmt s).current.isSome = stmtLive s.current.isSome stmt := by
  rw [current_simple catalog h loop s]
  cases stmt with
  | call | declare | assign | assignEach | augment => simp only [stmtLive]
  | _ => cases h

mutual

theorem live_lowerStmt : ∀ (stmt : Stmt) (loop : Option Loop) (s : State),
    (lowerStmt catalog loop stmt s).current.isSome = stmtLive s.current.isSome stmt
  | .call .., loop, s => live_simple rfl loop s
  | .declare .., loop, s => live_simple rfl loop s
  | .assign .., loop, s => live_simple rfl loop s
  | .assignEach .., loop, s => live_simple rfl loop s
  | .augment .., loop, s => live_simple rfl loop s
  | .return_ .., loop, s => by
    rw [lowerStmt_return, stmtLive]
    rfl
  | .raise, loop, s => by
    rw [lowerStmt, stmtLive]
    rfl
  | .branch .., loop, s => by
    rw [lowerStmt_branch, stmtLive]
    rfl
  | .while_ .., loop, s => by
    rw [lowerStmt_while, stmtLive]
    rfl
  | .for_ .., loop, s => by
    rw [lowerStmt_for, stmtLive]
    rfl
  | .try_ body orElse handlers final, loop, s => by
    rw [lowerStmt_try, live_lowerBlock final, guarded, stmtLive]
    cases handlers with
    | nil =>
      rw [List.isEmpty_nil, if_pos rfl, protect, live_lowerBlock orElse, live_lowerBlock body]
      rfl
    | cons handler handlers =>
      rw [List.isEmpty_cons, if_neg Bool.false_ne_true]
      rfl
  | .with_ loc items body, loop, s => by
    rw [lowerStmt_with, live_lowerBlock body, current_emits (emits_enterAll catalog loc items),
      stmtLive]
  | .break_, loop, s => by
    rw [lowerStmt_break, current_goTo, stmtLive]
    rfl
  | .continue_, loop, s => by
    rw [lowerStmt_continue, current_goTo, stmtLive]
    rfl
  | .define (.mk name params loc isStatic body), loop, s => by
    rw [lowerStmt, lowerFunction]
    simp only [stmtLive]

theorem live_lowerBlock : ∀ (stmts : List Stmt) (loop : Option Loop) (s : State),
    (lowerBlock catalog loop stmts s).current.isSome = blockLive s.current.isSome stmts
  | [], loop, s => by rw [lowerBlock, blockLive]
  | stmt :: stmts, loop, s => by
    rw [lowerBlock, live_lowerBlock stmts, live_lowerStmt stmt, blockLive]

end

theorem live_guarded (body orElse : List Stmt) (handlers : List (List Stmt)) (loop : Option Loop)
    (s : State) : (guarded catalog loop body orElse handlers s).current.isSome =
      (!handlers.isEmpty || blockLive (blockLive s.current.isSome body) orElse) := by
  have hlive := live_lowerStmt catalog (.try_ body orElse handlers []) loop s
  rwa [lowerStmt_try, lowerBlock, stmtLive, blockLive] at hlive

theorem live_lowerClauses (clauses : List Clause) (loop : Option Loop) (join : Int) (s : State) :
    (lowerClauses catalog loop join clauses s).current.isSome =
      (s.current.isSome || !clauses.isEmpty) := by
  induction clauses generalizing s with
  | nil => simp [lowerClauses]
  | cons clause clauses ih =>
    obtain ⟨condition, loc, body⟩ := clause
    rw [lowerClauses_cons, ih, List.isEmpty_cons, Bool.not_false, Bool.or_true]
    rfl

variable {catalog} in
theorem hands_simple {stmt : Stmt} (h : isSimple stmt = true) (loop : Option Loop) {s : State}
    (hs : Good s) : Hands (stmtHandovers catalog s.current.isSome stmt) s
      (lowerStmt catalog loop stmt s) := by
  have hhead : stmtHandovers catalog s.current.isSome stmt =
      if s.current.isSome then headHandovers catalog stmt else [] := by
    cases stmt with
    | call | declare | assign | assignEach | augment => simp only [stmtHandovers]
    | _ => cases h
  rw [lowerStmt_simple catalog h loop, hhead]
  exact (yields_simple catalog h).2 s hs

mutual

theorem hands_lowerStmt : ∀ (stmt : Stmt) (loop : Option Loop) {s : State}, Good s →
    Within loop s → Hands (stmtHandovers catalog s.current.isSome stmt) s
      (lowerStmt catalog loop stmt s)
  | .call .., loop, s, hs, _ => hands_simple rfl loop hs
  | .declare .., loop, s, hs, _ => hands_simple rfl loop hs
  | .assign .., loop, s, hs, _ => hands_simple rfl loop hs
  | .assignEach .., loop, s, hs, _ => hands_simple rfl loop hs
  | .augment .., loop, s, hs, _ => hands_simple rfl loop hs
  | .return_ loc v, loop, s, hs, _ => by
    simp only [stmtHandovers, lowerStmt_return, headHandovers]
    exact ((yields_giveBack catalog loc v).2 s hs).andThen (.of_proc rfl)
  | .raise, loop, s, hs, _ => by
    rw [lowerStmt]
    simp only [stmtHandovers, headHandovers, ite_self]
    exact .of_proc rfl
  | .branch clauses orElse, loop, s, hs, hloop => by
    have hnew : Extends (loopTargets loop) s (s.newNode .join).2 := extends_newNode .join hs
    have hwithin := hloop.grows hs hnew.toGrows
    have hjoin := untouched_newNode .join hs
    have hclauses := extends_lowerClauses catalog clauses loop hnew.good hwithin hjoin
    have helse := hands_lowerBlock orElse loop hclauses.good
      (hwithin.grows hnew.good hclauses.toGrows)
    rw [live_lowerClauses] at helse
    rw [lowerStmt_branch, stmtHandovers]
    exact (((hands_newNode .join hs).trans (hands_lowerClauses clauses loop hnew.good hwithin
      hjoin)).trans helse).andThen (hands_jump _ _ _)
  | .while_ loc condition body, loop, s, hs, hloop => by
    have hopen := grows_openBody hs loc condition (.whileTrue, .whileFalse)
    have hbody := hands_lowerBlock body _ hopen.good (within_openBody hs loc condition _)
    rw [lowerStmt_while, stmtHandovers]
    exact ((hands_openBody hs loc condition _).trans hbody).andThen (hands_jump _ _ _)
  | .for_ loc targets iterable body, loop, s, hs, hloop => by
    have hopen := grows_openBody hs loc (.const (.bool true)) (.forEnter, .forExit)
    have htake : Extends (fun _ => False) _ _ :=
      extends_emits hopen.good (emits_takeNext loc targets iterable)
    have hnext := (yields_writeTargets loc targets (nextOf iterable)).2 _ hopen.good
    rw [ite_self] at hnext
    have hbody := hands_lowerBlock body _ htake.good
      ((within_openBody hs loc _ _).grows hopen.good htake.toGrows)
    rw [current_emits (emits_takeNext loc targets iterable)] at hbody
    rw [lowerStmt_for, stmtHandovers]
    exact (((hands_openBody hs loc _ _).andThen hnext).trans hbody).andThen (hands_jump _ _ _)
  | .try_ body orElse handlers final, loop, s, hs, hloop => by
    have hbody := extends_lowerBlock catalog body loop hs hloop
    have hprotect := extends_protect catalog hs hloop body orElse
    have hguarded := extends_guarded catalog hs hloop body orElse handlers
    have helse := hands_lowerBlock orElse loop hbody.good (hloop.grows hs hbody.toGrows)
    rw [live_lowerBlock] at helse
    have hfirst : Hands _ s (protect catalog loop body orElse s) :=
      (hands_lowerBlock body loop hs hloop).trans helse
    have hhandlers := hands_lowerHandlers handlers loop hs hloop (handling_openJoin hs hprotect)
    have hmiddle : Hands (blockHandovers catalog s.current.isSome body ++
        blockHandovers catalog (blockLive s.current.isSome body) orElse ++
          handlersHandovers catalog handlers) s (guarded catalog loop body orElse handlers s) := by
      unfold guarded
      split
      · rename_i hnone
        rw [List.isEmpty_iff.mp hnone, handlersHandovers, List.append_nil]
        exact hfirst
      · exact ((hfirst.andThen (hands_openJoin hprotect.good)).trans hhandlers).andThen
          (.of_proc rfl)
    have hfinal := hands_lowerBlock final loop hguarded.good (hloop.grows hs hguarded.toGrows)
    rw [live_guarded] at hfinal
    rw [lowerStmt_try, stmtHandovers]
    exact hmiddle.trans hfinal
  | .with_ loc items body, loop, s, hs, hloop => by
    have henter : Extends (loopTargets loop) s (enterAll catalog loc items s) :=
      extends_emits hs (emits_enterAll catalog loc items)
    have hitems := (Yields.foldl items (yields_lowerWithItem catalog loc)).2 s hs
    have hbody := hands_lowerBlock body loop henter.good (hloop.grows hs henter.toGrows)
    rw [current_emits (emits_enterAll catalog loc items)] at hbody
    rw [lowerStmt_with, stmtHandovers, headHandovers]
    exact hitems.trans hbody
  | .break_, loop, s, hs, _ => by
    rw [lowerStmt_break]
    simp only [stmtHandovers, headHandovers, ite_self]
    exact hands_goTo Loop.after loop s
  | .continue_, loop, s, hs, _ => by
    rw [lowerStmt_continue]
    simp only [stmtHandovers, headHandovers, ite_self]
    exact hands_goTo Loop.head loop s
  | .define (.mk name params loc isStatic body), loop, s, hs, _ => by
    rw [lowerStmt, lowerFunction]
    simp only [stmtHandovers, headHandovers, ite_self]
    exact .of_proc rfl

theorem hands_lowerBlock : ∀ (stmts : List Stmt) (loop : Option Loop) {s : State}, Good s →
    Within loop s → Hands (blockHandovers catalog s.current.isSome stmts) s
      (lowerBlock catalog loop stmts s)
  | [], loop, s, _, _ => by
    rw [lowerBlock, blockHandovers]
    exact .of_proc rfl
  | stmt :: stmts, loop, s, hs, hloop => by
    have hfirst := extends_lowerStmt catalog stmt loop hs hloop
    have hrest := hands_lowerBlock stmts loop hfirst.good (hloop.grows hs hfirst.toGrows)
    rw [live_lowerStmt] at hrest
    rw [lowerBlock, blockHandovers]
    exact (hands_lowerStmt stmt loop hs hloop).trans hrest

theorem hands_lowerClauses : ∀ (clauses : List Clause) (loop : Option Loop) {join : Int}
    {s : State}, Good s → Within loop s → Untouched s join →
      Hands (clausesHandovers catalog clauses) s (lowerClauses catalog loop join clauses s)
  | [], loop, join, s, _, _, _ => by
    rw [lowerClauses, clausesHandovers]
    exact .of_proc rfl
  | .mk condition loc body :: clauses, loop, join, s, hs, hloop, hjoin => by
    have hopen := grows_openClause hs loc condition
    have hwithin := hloop.grows hs hopen
    have hbody := extends_lowerBlock catalog body loop hopen.good hwithin
    have hjump := extends_closeClause hs loc condition hjoin hbody
    have hfirst := hands_lowerBlock body loop hopen.good hwithin
    have hrest := hands_lowerClauses clauses loop hjump.good (hloop.grows hs hjump.toGrows)
      (hjump.toGrows.untouched hjoin)
    rw [lowerClauses_cons, clausesHandovers]
    exact (((hands_openClause hs loc condition).trans hfirst).andThen (hands_jump _ join _)).trans
      hrest

theorem hands_lowerHandlers : ∀ (handlers : List (List Stmt)) (loop : Option Loop)
    {before bodyEnd : Option Int} {join : Int} {s w : State}, Good s → Within loop s →
      Handling (loopTargets loop) s before bodyEnd join w →
      Hands (handlersHandovers catalog handlers) w
        (handlers.foldl (lowerHandler catalog loop before bodyEnd join) w)
  | [], _, _, _, _, _, _, _, _, _ => by
    rw [handlersHandovers]
    exact .of_proc rfl
  | handler :: handlers, loop, before, bodyEnd, join, s, w, hs, hloop, hw => by
    have henter := hw.extends_enterHandler hs
    have hwithin := hloop.grows hs henter.toGrows
    have hblock := extends_lowerBlock catalog handler loop henter.good hwithin
    have hfirst := hands_lowerBlock handler loop henter.good hwithin
    have hrest := hands_lowerHandlers handlers loop hs hloop (hw.next hs hblock)
    rw [handlersHandovers, List.foldl_cons]
    have hone : Hands (blockHandovers catalog true handler) w
        (lowerHandler catalog loop before bodyEnd join w handler) :=
      (((hands_enterHandler hw.grown.good before bodyEnd).trans hfirst).andThen
        (hands_jump _ join join)).andThen (.of_proc rfl)
    exact hone.trans hrest

end

/-- The hand-off instructions in the procedure of a function are exactly those that are read off its
body, each of them as often as it is written there. -/
theorem handovers_lowerFunction (owner : Option String) (f : Function) (s : State) :
    ∃ p, (lowerFunction catalog owner f s).program.find? (qualifiedName owner f.name) = some p ∧
      (p.statements.filterMap fun x => x.2.handover?).Perm (blockHandovers catalog true f.body) := by
  have hbody := hands_lowerBlock catalog f.body none (good_entered owner f s) nofun
  have hclosed := hbody.andThen (hands_closed (grows_entered catalog owner f s).good)
  have hstart : (entered owner f s).proc.Distinct ∧ (entered owner f s).proc.handovers = [] ∧
      (entered owner f s).current.isSome = true := by
    obtain ⟨name, params, loc, isStatic, body⟩ := f
    exact ⟨List.nodup_cons.mpr ⟨List.not_mem_nil, List.nodup_nil⟩, rfl, rfl⟩
  have hhanded := hclosed.handed hstart.1
  rw [hstart.2.1, hstart.2.2, List.nil_append] at hhanded
  exact ⟨lowered catalog owner f s, find?_lowerFunction catalog owner f s,
    (Procedure.statements_perm (hclosed.distinct hstart.1)).trans hhanded⟩

end Statements

end Lowering

end ActorOwnership
