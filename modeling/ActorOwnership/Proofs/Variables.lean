import ActorOwnership.Proofs.Reading

/-! The variables of expressions, actions and modules. An action reads and writes no other variables
than those in it, and those of a module that is read from a syntax tree are all spelled by identifiers
of the tree. -/

namespace ActorOwnership
open Syntax Surface
set_option autoImplicit false

/-! ### Expressions -/

namespace Exp

mutual

/-- The variables in an expression, perhaps several times. -/
def vars : Exp → List String
  | .var name => [name]
  | .binary _ left right => left.vars ++ right.vars
  | .unary _ operand => operand.vars
  | .field base _ => base.vars
  | .index base key => base.vars ++ key.vars
  | .call func args receiver => func.vars ++ varsAll args ++ varsOpt receiver
  | .aggregate elements => varsAll elements
  | .ternary condition yes no => condition.vars ++ yes.vars ++ no.vars
  | .const _ | .unspecified => []

def varsAll : List Exp → List String
  | [] => []
  | e :: es => e.vars ++ varsAll es

def varsOpt : Option Exp → List String
  | none => []
  | some e => e.vars

end

theorem varsAll_eq_flatMap (es : List Exp) : varsAll es = es.flatMap vars := by
  induction es with
  | nil => simp [varsAll]
  | cons e es ih => simp [varsAll, ih]

@[simp] theorem vars_null : null.vars = [] := by simp [null, vars]

end Exp

/-! ### Actions -/

namespace Action

/-- The variable whose value an action replaces. -/
def sets? : Action → Option String
  | .declare name _ (some _) => some name
  | .assign name _ => some name
  | a => a.result?

/-- The variables in the expressions of an action. -/
def vars : Action → List String
  | .declare _ _ init => Exp.varsOpt init
  | .assign _ value => value.vars
  | .store target value => target.vars ++ value.vars
  | .assume_ condition _ _ => condition.vars
  | .return_ value => Exp.varsOpt value
  | .call _ i | .handOff _ i _ _ => i.func.vars ++ Exp.varsAll i.args ++ Exp.varsOpt i.receiver
  | .unspecified => []

/-- The variables of a path through which an action changes a value in place. -/
def bases : Action → List String
  | .store target _ => target.vars
  | .call _ i | .handOff _ i _ _ => Exp.varsOpt i.receiver
  | _ => []

end Action

namespace Scope
variable {sc : Scope} {name : String}

theorem mem_vars_of_resolve (e : Exp) (h : sc.resolve e = some (sc.symbolOf name)) :
    name ∈ e.vars := by
  cases e with
  | var root =>
    rw [Exp.vars, symbolOf_injective (Option.some.inj h)]
    exact List.mem_singleton_self name
  | field base field =>
    rw [Exp.vars]
    by_cases hbase : ∃ root, base = .var root
    · obtain ⟨root, rfl⟩ := hbase
      have heq := Option.some.inj h
      split at heq
      · exact absurd heq.symm (symbolOf_ne_fieldOf name field)
      · rw [Exp.vars, symbolOf_injective heq]
        exact List.mem_singleton_self name
    · rw [resolve_field field fun root heq => hbase ⟨root, heq⟩] at h
      exact mem_vars_of_resolve base h
  | index base key =>
    rw [resolve_index] at h
    rw [Exp.vars, List.mem_append]
    exact Or.inl (mem_vars_of_resolve base h)
  | _ => simp [resolve] at h

mutual

/-- Only variables in an expression are read. -/
theorem mem_vars_of_mem_readsIn (below : Bool) (e : Exp)
    (h : sc.symbolOf name ∈ sc.readsIn below e) : name ∈ e.vars := by
  cases e with
  | var root =>
    rw [readsIn] at h
    split at h
    · cases h
    · rw [Exp.vars, symbolOf_injective (List.mem_singleton.mp h)]
      exact List.mem_singleton_self root
  | const value => simp [readsIn] at h
  | binary op left right =>
    rw [readsIn, List.mem_append] at h
    rw [Exp.vars, List.mem_append]
    exact h.imp (mem_vars_of_mem_readsIn false left) (mem_vars_of_mem_readsIn false right)
  | unary op operand =>
    rw [readsIn] at h
    rw [Exp.vars]
    exact mem_vars_of_mem_readsIn false operand h
  | field base field =>
    rw [readsIn, List.mem_append] at h
    rcases h with h | h
    · split at h
      · cases h
      · exact mem_vars_of_resolve _ (Option.mem_toList.mp h)
    · rw [Exp.vars]
      exact mem_vars_of_mem_readsIn true base h
  | index base key =>
    rw [readsIn, List.mem_append, List.mem_append] at h
    rcases h with (h | h) | h
    · split at h
      · cases h
      · exact mem_vars_of_resolve _ (Option.mem_toList.mp h)
    · rw [Exp.vars, List.mem_append]
      exact Or.inr (mem_vars_of_mem_readsIn false key h)
    · rw [Exp.vars, List.mem_append]
      exact Or.inl (mem_vars_of_mem_readsIn true base h)
  | call func args receiver =>
    rw [readsIn, List.mem_append] at h
    rw [Exp.vars, List.append_assoc, List.mem_append, List.mem_append]
    exact Or.inr (h.imp (mem_varsAll_of_mem_readsInAll args) (mem_varsOpt_of_mem_readsInOpt receiver))
  | aggregate elements =>
    rw [readsIn] at h
    rw [Exp.vars]
    exact mem_varsAll_of_mem_readsInAll elements h
  | ternary condition yes no =>
    rw [readsIn, List.mem_append, List.mem_append] at h
    rw [Exp.vars, List.mem_append, List.mem_append]
    exact h.imp (fun h => h.imp (mem_vars_of_mem_readsIn false condition)
      (mem_vars_of_mem_readsIn false yes)) (mem_vars_of_mem_readsIn false no)
  | unspecified => simp [readsIn] at h

theorem mem_varsAll_of_mem_readsInAll (es : List Exp)
    (h : sc.symbolOf name ∈ sc.readsInAll es) : name ∈ Exp.varsAll es := by
  cases es with
  | nil => simp [readsInAll] at h
  | cons e es =>
    rw [readsInAll, List.mem_append] at h
    rw [Exp.varsAll, List.mem_append]
    exact h.imp (mem_vars_of_mem_readsIn false e) (mem_varsAll_of_mem_readsInAll es)

theorem mem_varsOpt_of_mem_readsInOpt (e : Option Exp)
    (h : sc.symbolOf name ∈ sc.readsInOpt e) : name ∈ Exp.varsOpt e := by
  cases e with
  | none => simp [readsInOpt] at h
  | some e =>
    rw [readsInOpt] at h
    rw [Exp.varsOpt]
    exact mem_vars_of_mem_readsIn false e h

end

theorem mem_vars_of_mem_addressReads {e : Exp} (h : sc.symbolOf name ∈ sc.addressReads e) :
    name ∈ e.vars := by
  unfold addressReads at h
  split at h
  · rw [Exp.vars]
    exact mem_vars_of_mem_readsIn false _ h
  · rw [Exp.vars, List.mem_append]
    exact (List.mem_append.mp h).imp (mem_vars_of_mem_readsIn false _)
      (mem_vars_of_mem_readsIn false _)
  · cases h

theorem mem_vars_of_mem_readsOf {a : Action} (h : sc.symbolOf name ∈ sc.readsOf a) :
    name ∈ a.vars := by
  have hcall : ∀ i : Invocation, sc.symbolOf name ∈ sc.readsInAll i.args ++ sc.readsInOpt i.receiver →
      name ∈ i.func.vars ++ Exp.varsAll i.args ++ Exp.varsOpt i.receiver := by
    intro i h
    rw [List.append_assoc, List.mem_append, List.mem_append]
    exact Or.inr ((List.mem_append.mp h).imp (mem_varsAll_of_mem_readsInAll _)
      (mem_varsOpt_of_mem_readsInOpt _))
  unfold readsOf at h
  rw [mem_distinct] at h
  cases a with
  | declare name type init => exact mem_varsOpt_of_mem_readsInOpt init h
  | assign name value => exact mem_vars_of_mem_readsIn false value h
  | store target value =>
    rw [Action.vars, List.mem_append]
    exact (List.mem_append.mp h).symm.imp mem_vars_of_mem_addressReads
      (mem_vars_of_mem_readsIn false value)
  | assume_ condition holds kind => exact mem_vars_of_mem_readsIn false condition h
  | return_ value => exact mem_varsOpt_of_mem_readsInOpt value h
  | call ret i => exact hcall i h
  | handOff ret i givenUp description => exact hcall i h
  | unspecified => cases h

/-- The variable of the result, and any variable that the callee adds to. -/
theorem mem_callEffects {ret : Option String} {i : Invocation} {e : Effect}
    (he : e ∈ sc.resultEffect ret i ++ sc.receiverEffect i) (hname : e.symbol = sc.symbolOf name) :
    ret = some name ∧ e.strong = true ∨ name ∈ Exp.varsOpt i.receiver := by
  rcases List.mem_append.mp he with he | he
  · left
    cases ret with
    | none => cases he
    | some x =>
      obtain rfl := List.mem_singleton.mp he
      exact ⟨congrArg some (symbolOf_injective hname), rfl⟩
  · right
    unfold receiverEffect at he
    split at he
    · rename_i spec receiver _ hreceiver
      split at he
      · cases he
      · split at he
        · rename_i target htarget
          obtain rfl := List.mem_singleton.mp he
          rw [hreceiver, Exp.varsOpt]
          exact mem_vars_of_resolve _ (htarget.trans (congrArg some hname))
        · cases he
    · cases he

/-- An effect on a variable replaces its value, or changes it in place. -/
theorem sets?_of_mem_effectsOf {a : Action} {e : Effect} (he : e ∈ sc.effectsOf a)
    (hname : e.symbol = sc.symbolOf name) :
    a.sets? = some name ∧ e.strong = true ∨ name ∈ a.bases := by
  cases a with
  | declare x type init =>
    cases init with
    | none => cases he
    | some init =>
      obtain rfl := List.mem_singleton.mp he
      exact Or.inl ⟨congrArg some (symbolOf_injective hname), rfl⟩
  | assign x value =>
    obtain rfl := List.mem_singleton.mp he
    exact Or.inl ⟨congrArg some (symbolOf_injective hname), rfl⟩
  | store target value =>
    rw [effectsOf] at he
    split at he
    · rename_i top htop
      obtain rfl := List.mem_singleton.mp he
      exact Or.inr (mem_vars_of_resolve _ (htop.trans (congrArg some hname)))
    · cases he
  | call ret i => exact mem_callEffects he hname
  | handOff ret i givenUp description => exact mem_callEffects he hname
  | _ => cases he

theorem exists_effect_of_sets? (sc : Scope) {a : Action} (h : a.sets? = some name) :
    ∃ e ∈ sc.effectsOf a, e.symbol = sc.symbolOf name := by
  cases a with
  | declare x type init =>
    cases init with
    | none => cases h
    | some init =>
      cases h
      exact ⟨_, List.mem_cons_self, rfl⟩
  | assign x value =>
    cases h
    exact ⟨_, List.mem_cons_self, rfl⟩
  | call ret i =>
    cases h
    exact ⟨_, List.mem_cons_self, rfl⟩
  | handOff ret i givenUp description =>
    cases h
    exact ⟨_, List.mem_cons_self, rfl⟩
  | _ => cases h

end Scope

/-! ### Statements -/

namespace Surface

mutual

def Operand.vars : Operand → List String
  | .value e => e.vars
  | .call _ receiver args => Argument.varsAll args ++ Exp.varsOpt receiver

def Argument.varsAll : List Argument → List String
  | [] => []
  | .mk _ v :: as => v.vars ++ Argument.varsAll as

end

mutual

theorem vars_toExp : ∀ v : Operand, v.toExp.vars = v.vars
  | .value e => by simp [Operand.toExp, Operand.vars]
  | .call name receiver args => by
    simp [Operand.toExp, Operand.vars, Exp.vars, varsAll_toExps args]

theorem varsAll_toExps : ∀ as : List Argument,
    Exp.varsAll (Argument.toExps as) = Argument.varsAll as
  | [] => by simp [Argument.toExps, Argument.varsAll, Exp.varsAll]
  | .mk _ v :: as => by
    simp [Argument.toExps, Argument.varsAll, Exp.varsAll, vars_toExp v, varsAll_toExps as]

end

theorem mem_varsAll {as : List Argument} {x : String} :
    x ∈ Argument.varsAll as ↔ ∃ a ∈ as, x ∈ a.value.vars := by
  induction as with
  | nil => simp [Argument.varsAll]
  | cons a as ih => cases a; simp [Argument.varsAll, Argument.value, ih]

def Target.vars : Target → List String
  | .name id => [id]
  | .path _ e => e.vars

def Destination.vars (d : Destination) : List String := d.targets.flatMap Target.vars

def Pair.vars (p : Pair) : List String := p.destination.vars ++ p.value.vars

def WithItem.vars (i : WithItem) : List String :=
  i.alias_.toList.flatMap Destination.vars ++ i.value.vars

mutual

/-- The variables that a statement names. -/
def Stmt.vars : Stmt → List String
  | .call _ _ receiver args => Argument.varsAll args ++ Exp.varsOpt receiver
  | .declare _ name _ init => name :: init.toList.flatMap Operand.vars
  | .assign _ d v => d.vars ++ v.vars
  | .assignEach _ pairs => pairs.flatMap Pair.vars
  | .augment _ target _ left v => target.toList.flatMap Target.vars ++ left.vars ++ v.vars
  | .return_ _ value => value.toList.flatMap Operand.vars
  | .branch clauses orElse => Clause.varsAll clauses ++ Stmt.varsAll orElse
  | .while_ _ condition body => condition.vars ++ Stmt.varsAll body
  | .for_ _ targets iterable body =>
    targets.flatMap Target.vars ++ iterable.vars ++ Stmt.varsAll body
  | .try_ body orElse handlers final =>
    Stmt.varsAll body ++ Stmt.varsAll orElse ++ Stmt.varsOfEach handlers ++ Stmt.varsAll final
  | .with_ _ items body => items.flatMap WithItem.vars ++ Stmt.varsAll body
  | .raise | .break_ | .continue_ => []
  | .define f => f.vars

def Stmt.varsAll : List Stmt → List String
  | [] => []
  | stmt :: stmts => stmt.vars ++ Stmt.varsAll stmts

def Stmt.varsOfEach : List (List Stmt) → List String
  | [] => []
  | block :: blocks => Stmt.varsAll block ++ Stmt.varsOfEach blocks

def Clause.varsAll : List Clause → List String
  | [] => []
  | .mk condition _ body :: clauses =>
    condition.vars ++ Stmt.varsAll body ++ Clause.varsAll clauses

/-- The variables that the body of a function names. -/
def Function.vars : Function → List String
  | .mk _ _ _ _ body => Stmt.varsAll body

end

theorem Stmt.varsAll_eq_flatMap (stmts : List Stmt) :
    Stmt.varsAll stmts = stmts.flatMap Stmt.vars := by
  induction stmts with
  | nil => simp [Stmt.varsAll]
  | cons stmt stmts ih => simp [Stmt.varsAll, ih]

theorem Stmt.varsOfEach_eq_flatMap (blocks : List (List Stmt)) :
    Stmt.varsOfEach blocks = blocks.flatMap Stmt.varsAll := by
  induction blocks with
  | nil => simp [Stmt.varsOfEach]
  | cons block blocks ih => simp [Stmt.varsOfEach, ih]

theorem Clause.varsAll_eq_flatMap (clauses : List Clause) :
    Clause.varsAll clauses = clauses.flatMap fun clause => Clause.varsAll [clause] := by
  induction clauses with
  | nil => simp [Clause.varsAll]
  | cons clause clauses ih => cases clause; simp [Clause.varsAll, ← ih]

theorem Function.vars_asStatic (f : Function) : f.asStatic.vars = f.vars := by
  cases f
  rfl

def TopLevel.vars : TopLevel → List String
  | .function f => f.vars
  | .class_ _ methods => methods.flatMap Function.vars

/-! ### Readings -/

/-- The identifiers at or below a node are spelled as `P` asks. -/
def Spelled (src : Source) (P : String → Prop) (t : Tree) : Prop :=
  ∀ d ∈ t.subtrees, d.kind = .identifier → P (src.text d)

variable {src : Source} {P : String → Prop} {t c : Tree}

theorem Spelled.self (h : Spelled src P t) (ht : t.kind = .identifier) : P (src.text t) :=
  h t t.self_mem_subtrees ht

theorem Spelled.below (h : Spelled src P t) (hc : c ∈ t.subtrees) : Spelled src P c :=
  fun d hd => h d (Tree.subtrees_trans hd hc)

theorem Spelled.child (h : Spelled src P t) (hc : c ∈ t.children) : Spelled src P c :=
  h.below (Tree.mem_subtrees_of_child hc c.self_mem_subtrees)

theorem Spelled.named (h : Spelled src P t) (hc : c ∈ t.namedChildren) : Spelled src P c :=
  h.child (Tree.mem_children_of_named hc)

theorem Spelled.child? {f : String} (h : Spelled src P t) (hc : t.child? f = some c) :
    Spelled src P c := h.child (Tree.mem_children_of_child? hc)

theorem exists_mem_of_child? {α : Type} {kids : List (Tree × α)} {f : String} {r : α}
    (h : Folded.child? kids f = some r) : ∃ k ∈ kids, k.2 = r := by
  obtain ⟨k, hk, rfl⟩ := Option.map_eq_some_iff.mp h
  exact ⟨k, List.mem_of_find?_eq_some hk, rfl⟩

theorem exists_mem_of_named {α : Type} {kids : List (Tree × α)} {r : α}
    (h : r ∈ Folded.named kids) : ∃ k ∈ kids, k.2 = r := by
  obtain ⟨k, hk, rfl⟩ := List.mem_map.mp h
  exact ⟨k, (List.mem_filter.mp hk).1, rfl⟩

namespace Reading

/-- All variables in a reading are spelled as `P` asks. -/
structure Over (P : String → Prop) (r : Reading) : Prop where
  exp : ∀ x ∈ r.exp.vars, P x
  operand : ∀ x ∈ r.operand.vars, P x
  references : ∀ e ∈ r.references, ∀ x ∈ e.vars, P x
  argument : ∀ a ∈ r.argument, ∀ x ∈ a.value.vars, P x
  arguments : ∀ a ∈ r.arguments, ∀ x ∈ a.value.vars, P x
  elements : ∀ e ∈ r.elements, ∀ x ∈ e.vars, P x

section
variable {kids : Kids} (hkids : ∀ k ∈ kids, k.2.Over P)
include hkids

theorem over_child? {f : String} {r : Reading} (h : Folded.child? kids f = some r) : r.Over P := by
  obtain ⟨k, hk, rfl⟩ := exists_mem_of_child? h
  exact hkids k hk

theorem over_named {r : Reading} (h : r ∈ Folded.named kids) : r.Over P := by
  obtain ⟨k, hk, rfl⟩ := exists_mem_of_named h
  exact hkids k hk

theorem vars_expOf (f : String) : ∀ x ∈ (expOf kids f).vars, P x := by
  cases h : Folded.child? kids f with
  | none => simp [expOf, h]
  | some r => simpa [expOf, h] using (over_child? hkids h).exp

theorem vars_receiver : ∀ x ∈ Exp.varsOpt (calleeOf src kids).2, P x := by
  unfold calleeOf
  split
  · simp [Exp.varsOpt]
  · rename_i f r hfind
    have hr := (hkids _ (List.mem_of_find?_eq_some hfind)).exp
    split
    · rename_i base name hexp
      simpa [hexp, Exp.vars, Exp.varsOpt] using hr
    · simp [Exp.varsOpt]

theorem vars_callOf : ∀ x ∈ (callOf src kids).vars, P x := by
  intro x hx
  rcases List.mem_append.mp hx with hx | hx
  · obtain ⟨a, ha, hx⟩ := mem_varsAll.mp hx
    cases h : Folded.child? kids "arguments" with
    | none => simp [h] at ha
    | some r => exact (over_child? hkids h).arguments a (by simpa [h] using ha) x hx
  · exact vars_receiver hkids x hx

theorem vars_referencesBelow : ∀ e ∈ referencesBelow kids, ∀ x ∈ e.vars, P x := by
  intro e he
  obtain ⟨r, hr, he⟩ := List.mem_flatMap.mp he
  exact (over_named hkids hr).references e he

omit hkids in
theorem vars_aggregate {es : List Exp} (h : ∀ e ∈ es, ∀ x ∈ e.vars, P x) :
    ∀ x ∈ (Exp.aggregate es).vars, P x := by
  intro x hx
  rw [Exp.vars, Exp.varsAll_eq_flatMap] at hx
  obtain ⟨e, he, hx⟩ := List.mem_flatMap.mp hx
  exact h e he x hx

theorem vars_getLast? :
    ∀ x ∈ (((Folded.named kids).getLast?.map Reading.exp).getD .null).vars, P x := by
  cases h : (Folded.named kids).getLast? with
  | none => simp
  | some r => exact (over_named hkids (List.mem_of_getLast? h)).exp

theorem vars_plainExp (htext : t.kind = .identifier → P (src.text t)) :
    ∀ x ∈ (plainExp src t kids).vars, P x := by
  have hexp := vars_expOf hkids
  have hnamed : ∀ r ∈ Folded.named kids, ∀ x ∈ r.exp.vars, P x :=
    fun r hr => (over_named hkids hr).exp
  have hbelow := vars_aggregate (vars_referencesBelow hkids)
  unfold plainExp
  split
  case h_1 hkind => simpa [Exp.vars] using htext hkind
  case h_18 | h_19 | h_20 =>
    split
    · rename_i r hr
      exact (over_child? hkids hr).exp
    · exact vars_getLast? hkids
  case h_21 =>
    split
    · refine vars_aggregate fun e he => ?_
      obtain ⟨r, hr, he⟩ := List.mem_flatMap.mp he
      exact (over_named hkids hr).elements e he
    · exact hbelow
  all_goals grind [Exp.vars, Exp.vars_null]

theorem vars_operandOf (htext : t.kind = .identifier → P (src.text t)) :
    ∀ x ∈ (operandOf src t kids).vars, P x := by
  unfold operandOf
  split
  · rename_i inner rest _ hnamed
    exact (over_named hkids (by simp [hnamed])).operand
  · split
    · exact vars_callOf hkids
    · exact vars_plainExp hkids htext

theorem vars_argumentOf {own : Operand} (hown : ∀ x ∈ own.vars, P x) :
    ∀ a ∈ argumentOf src t kids own, ∀ x ∈ a.value.vars, P x := by
  have hnamed : ∀ r ∈ (Folded.named kids).head?, ∀ x ∈ r.operand.vars, P x :=
    fun r hr => (over_named hkids (List.mem_of_head? hr)).operand
  unfold argumentOf
  split
  case h_3 =>
    split
    · rename_i r hr
      simpa [Argument.value] using (over_child? hkids hr).operand
    · simp
  case h_4 | h_5 => simpa [Argument.value] using hnamed
  case h_6 => simpa [Argument.value] using hown
  all_goals simp

theorem over_step (htext : t.kind = .identifier → P (src.text t)) : (step src t kids).Over P := by
  have hoperand := vars_operandOf hkids htext
  have hexp : ∀ x ∈ (operandOf src t kids).toExp.vars, P x := by rwa [vars_toExp]
  refine ⟨hexp, hoperand, ?_, vars_argumentOf hkids hoperand, ?_, ?_⟩
  · simp only [step]
    split
    · simpa using hexp
    · split
      · simp
      · exact vars_referencesBelow hkids
  · simp only [step]
    split
    · simpa [Argument.value] using hoperand
    · intro a ha
      obtain ⟨k, hk, ha⟩ := List.mem_flatMap.mp ha
      exact (hkids k hk).argument a ha
  · simp only [step]
    split
    · simpa using ⟨vars_expOf hkids "key", vars_expOf hkids "value"⟩
    · simpa using hexp

end

end Reading

theorem over_readingOf (h : Spelled src P t) : (readingOf src t).Over P := by
  induction t using Tree.induct with
  | h t ih =>
    rw [readingOf_eq]
    refine Reading.over_step ?_ h.self
    simpa [kidsOf] using fun c hc => ih c hc (h.child hc)

theorem vars_expOfTree (h : Spelled src P t) : ∀ x ∈ (expOfTree src t).vars, P x :=
  (over_readingOf h).exp

theorem vars_operandOfTree (h : Spelled src P t) : ∀ x ∈ (operandOfTree src t).vars, P x :=
  (over_readingOf h).operand

theorem vars_expOfTree? {f : String} (h : Spelled src P t) :
    ∀ x ∈ (expOfTree? src (t.child? f)).vars, P x := by
  cases hc : t.child? f with
  | none => simp [expOfTree?]
  | some c => exact vars_expOfTree (h.child? hc)

/-! ### Assignments -/

theorem vars_targetsOf (h : Spelled src P t) : ∀ x ∈ (targetsOf src t).flatMap Target.vars, P x := by
  induction t using Tree.induct with
  | h t ih =>
    have hnamed : ∀ x ∈ (t.namedChildren.map (targetsOf src)).flatten.flatMap Target.vars, P x := by
      intro x hx
      simp only [List.mem_flatMap, List.mem_flatten, List.mem_map] at hx
      obtain ⟨p, ⟨_, ⟨c, hc, rfl⟩, hp⟩, hx⟩ := hx
      exact ih c (Tree.mem_children_of_named hc) (h.named hc) x (List.mem_flatMap.mpr ⟨p, hp, hx⟩)
    rw [targetsOf, Tree.fold_eq]
    rw [← named_map] at hnamed
    split
    · rename_i hkind
      simpa [Target.vars] using h.self hkind
    · simpa [Target.vars] using vars_expOfTree h
    · simpa [Target.vars] using vars_expOfTree h
    · exact hnamed
    · exact hnamed
    · split
      · exact hnamed
      · simp

theorem vars_destinationOf (h : Spelled src P t) : ∀ x ∈ (destinationOf src t).vars, P x := by
  unfold destinationOf
  split
  · rename_i hkind
    simpa [Destination.vars, Destination.targets, Target.vars] using h.self hkind
  · exact vars_targetsOf h

theorem vars_pairsOf {left right : Tree} (hleft : Spelled src P left) (hright : Spelled src P right) :
    ∀ p ∈ pairsOf src left right, ∀ x ∈ p.vars, P x := by
  intro p hp
  obtain ⟨⟨d, v⟩, hmem, rfl⟩ := List.mem_map.mp hp
  obtain ⟨hd, hv⟩ := List.of_mem_zip hmem
  have hd := vars_destinationOf (hleft.named (List.mem_filter.mp hd).1)
  have hv := vars_operandOfTree (hright.named (List.mem_filter.mp hv).1)
  simpa [Pair.vars, or_imp, forall_and] using ⟨hd, hv⟩

theorem vars_simpleAssignment {left : Tree} (h : Spelled src P t) (hleft : Spelled src P left) :
    ∀ stmt ∈ simpleAssignment src t left, ∀ x ∈ stmt.vars, P x := by
  have hright : ∀ r ∈ t.child? "right", Spelled src P r := fun r hr => h.child? hr
  simp only [simpleAssignment]
  split
  · rename_i type _ hkind
    cases hr : t.child? "right" with
    | none => simpa [Stmt.vars] using hleft.self hkind
    | some r => simpa [Stmt.vars] using ⟨hleft.self hkind, vars_operandOfTree (hright r hr)⟩
  · split
    · simp
    · rename_i r hr
      have hr := (hright r hr).below (unwrap_mem_subtrees r)
      split
      · rw [List.forall_mem_singleton, Stmt.vars, List.forall_mem_flatMap]
        exact vars_pairsOf hleft hr
      · rw [List.forall_mem_singleton, Stmt.vars, List.forall_mem_append]
        exact ⟨vars_destinationOf hleft, vars_operandOfTree hr⟩

theorem vars_assignmentStatements (h : Spelled src P t) :
    ∀ stmt ∈ assignmentStatements src t, ∀ x ∈ stmt.vars, P x := by
  induction t using Tree.induct with
  | h t ih =>
    rw [assignmentStatements, Tree.fold_eq]
    split
    · rename_i left right inner _ hleft hfind
      obtain ⟨c, hc, heq⟩ := List.mem_map.mp (List.mem_of_find?_eq_some hfind)
      cases heq
      split
      · rw [List.forall_mem_append, List.forall_mem_singleton, Stmt.vars, List.forall_mem_append]
        exact ⟨ih right hc (h.child hc), vars_targetsOf (h.child? hleft),
          vars_expOfTree? (h.child hc)⟩
      · exact vars_simpleAssignment h (h.child? hleft)
    · rename_i left _ hleft _
      exact vars_simpleAssignment h (h.child? hleft)
    · simp

theorem vars_augmentedTarget (h : Spelled src P t) :
    ∀ p ∈ (augmentedTarget src t).toList, ∀ x ∈ p.vars, P x := by
  unfold augmentedTarget
  split
  · rename_i hkind
    simpa [Target.vars] using h.self hkind
  · simpa [Target.vars] using vars_expOfTree h
  · simpa [Target.vars] using vars_expOfTree h
  · simp

theorem vars_augmentedAssignment (h : Spelled src P t) :
    ∀ stmt ∈ augmentedAssignment src t, ∀ x ∈ stmt.vars, P x := by
  unfold augmentedAssignment
  split
  · rename_i left right hleft hright
    have hleft := h.child? hleft
    rw [List.forall_mem_singleton, Stmt.vars, List.forall_mem_append, List.forall_mem_append,
      List.forall_mem_flatMap]
    exact ⟨⟨vars_augmentedTarget hleft, vars_expOfTree hleft⟩, vars_operandOfTree (h.child? hright)⟩
  · simp

theorem vars_callStatement (h : Spelled src P t) :
    ∀ stmt ∈ callStatement src t, ∀ x ∈ stmt.vars, P x := by
  have hcall := vars_operandOfTree h
  unfold callStatement
  split
  · rename_i name receiver args heq
    rw [heq] at hcall
    rwa [List.forall_mem_singleton]
  · simp

theorem vars_expressionPart (h : Spelled src P t) :
    ∀ stmt ∈ expressionPart src t, ∀ x ∈ stmt.vars, P x := by
  have h := h.below (unwrap_mem_subtrees t)
  simp only [expressionPart]
  split
  · exact vars_callStatement h
  · exact vars_assignmentStatements h
  · exact vars_augmentedAssignment h
  · simp

theorem vars_aliasOf (h : Spelled src P t) :
    ∀ d ∈ ((aliasOf t).map (destinationOf src)).toList, ∀ x ∈ d.vars, P x := by
  intro d hd
  obtain ⟨c, hc, rfl⟩ := Option.map_eq_some_iff.mp (Option.mem_toList.mp hd)
  refine vars_destinationOf ?_
  unfold aliasOf at hc
  split at hc
  · rename_i target hlast
    have htarget := List.mem_of_mem_tail (List.mem_filter.mp (List.mem_of_getLast? hlast)).1
    exact (h.named htarget).named (List.mem_of_head? hc)
  · simp at hc

theorem vars_withItem (h : Spelled src P t) : ∀ i ∈ withItem src t, ∀ x ∈ i.vars, P x := by
  have hvalue : ∀ v, (t.child? "value").or t.namedChildren.head? = some v → Spelled src P v := by
    intro v hv
    rcases Option.or_eq_some_iff.mp hv with hv | ⟨-, hv⟩
    · exact h.child? hv
    · exact h.named (List.mem_of_head? hv)
  unfold withItem
  split
  · simp
  · rename_i v hv
    have hv := hvalue v hv
    split
    · split
      · simp
      · rename_i e he
        rw [List.forall_mem_singleton, WithItem.vars, List.forall_mem_append, List.forall_mem_flatMap]
        exact ⟨vars_aliasOf hv, vars_operandOfTree (hv.named (List.mem_of_head? he))⟩
    · simpa [WithItem.vars] using vars_operandOfTree hv

theorem vars_withItems (h : Spelled src P t) : ∀ i ∈ withItems src t, ∀ x ∈ i.vars, P x := by
  intro i hi
  simp only [withItems, List.mem_flatMap, List.mem_filter] at hi
  obtain ⟨clause, ⟨hclause, -⟩, c, ⟨hc, -⟩, hi⟩ := hi
  exact vars_withItem ((h.child hclause).named hc) i hi

/-! ### Outlines -/

namespace Outline

/-- All variables in an outline are spelled as `P` asks. -/
structure Over (P : String → Prop) (o : Outline) : Prop where
  statement : ∀ stmt ∈ o.statement, ∀ x ∈ stmt.vars, P x
  block : ∀ x ∈ Stmt.varsAll o.block, P x
  body : ∀ x ∈ Stmt.varsAll o.body, P x
  clause : ∀ x ∈ Clause.varsAll [o.clause], P x
  function : ∀ f ∈ o.function, ∀ x ∈ f.vars, P x
  member : ∀ f ∈ o.member, ∀ x ∈ f.vars, P x
  members : ∀ f ∈ o.members, ∀ x ∈ f.vars, P x
  topLevel : ∀ u ∈ o.topLevel, ∀ x ∈ u.vars, P x

theorem vars_conditionOf (h : Spelled src P t) : ∀ x ∈ (conditionOf src t).vars, P x := by
  unfold conditionOf
  cases hc : t.child? "condition" with
  | none => simp [Exp.vars]
  | some c => exact vars_expOfTree (h.child? hc)

section
variable {kids : Kids} (hkids : ∀ k ∈ kids, k.2.Over P)
include hkids

theorem over_child? {f : String} {o : Outline} (h : Folded.child? kids f = some o) : o.Over P := by
  obtain ⟨k, hk, rfl⟩ := exists_mem_of_child? h
  exact hkids k hk

theorem vars_blockOf (f : String) : ∀ x ∈ Stmt.varsAll (blockOf kids f), P x := by
  cases h : Folded.child? kids f with
  | none => simp [blockOf, h, Stmt.varsAll]
  | some o => simpa [blockOf, h] using (over_child? hkids h).block

theorem vars_bodyOf : ∀ x ∈ Stmt.varsAll (bodyOf kids), P x := by
  unfold bodyOf
  cases h : (Folded.child? kids "body").or ((kids.find? fun k => k.1.kind = .block).map Prod.snd) with
  | none => simp [Stmt.varsAll]
  | some o =>
    rcases Option.or_eq_some_iff.mp h with h | ⟨-, h⟩
    · exact (over_child? hkids h).block
    · obtain ⟨k, hk, rfl⟩ := Option.map_eq_some_iff.mp h
      exact (hkids k (List.mem_of_find?_eq_some hk)).block

theorem vars_clauseOf (h : Spelled src P t) : ∀ x ∈ Clause.varsAll [clauseOf src t kids], P x := by
  rw [clauseOf, Clause.varsAll, Clause.varsAll, List.append_nil, List.forall_mem_append]
  exact ⟨vars_conditionOf h, vars_blockOf hkids "consequence"⟩

theorem vars_functionOf : ∀ f ∈ functionOf src t kids, ∀ x ∈ f.vars, P x := by
  intro f hf
  unfold functionOf at hf
  split at hf
  · simp at hf
  · obtain ⟨name, -, rfl⟩ := Option.map_eq_some_iff.mp hf
    rw [Function.vars]
    exact vars_blockOf hkids "body"

theorem vars_definitionOf {own : Option Function} (hown : ∀ f ∈ own, ∀ x ∈ f.vars, P x) :
    ∀ f ∈ definitionOf t kids own, ∀ x ∈ f.vars, P x := by
  unfold definitionOf
  split
  · exact hown
  · split
    · rename_i d o hfind
      split
      · exact (hkids _ (List.mem_of_find?_eq_some hfind)).function
      · simp
    · simp
  · simp

omit hkids in
theorem vars_memberOf {definition : Option Function}
    (h : ∀ f ∈ definition, ∀ x ∈ f.vars, P x) :
    ∀ f ∈ memberOf src t definition, ∀ x ∈ f.vars, P x := by
  unfold memberOf
  split
  · simp
  · rename_i f
    split <;> simpa [Function.vars_asStatic] using h f rfl

theorem vars_lastElse : ∀ x ∈ Stmt.varsAll (lastElse kids), P x := by
  unfold lastElse
  cases h : (kids.filter fun k =>
      k.1.field == some "alternative" && k.1.kind = .elseClause).getLast? with
  | none => simp [Stmt.varsAll]
  | some k => exact (hkids k (List.mem_filter.mp (List.mem_of_getLast? h)).1).body

theorem vars_firstBody (kind : Kind) : ∀ x ∈ Stmt.varsAll (firstBody kids kind), P x := by
  unfold firstBody
  cases h : kids.find? fun k => k.1.kind = kind with
  | none => simp [Stmt.varsAll]
  | some k => exact (hkids k (List.mem_of_find?_eq_some h)).body

theorem vars_branchOf {own : Clause} (hown : ∀ x ∈ Clause.varsAll [own], P x) :
    ∀ x ∈ (branchOf kids own).vars, P x := by
  rw [branchOf, Stmt.vars, List.forall_mem_append, Clause.varsAll_eq_flatMap,
    List.forall_mem_flatMap, List.forall_mem_cons]
  refine ⟨⟨hown, fun clause hclause => ?_⟩, vars_lastElse hkids⟩
  obtain ⟨k, hk, rfl⟩ := List.mem_map.mp hclause
  exact (hkids k (List.mem_filter.mp hk).1).clause

theorem vars_tryOf : ∀ x ∈ (tryOf kids).vars, P x := by
  rw [tryOf, Stmt.vars, List.forall_mem_append, List.forall_mem_append, List.forall_mem_append,
    Stmt.varsOfEach_eq_flatMap, List.forall_mem_flatMap]
  refine ⟨⟨⟨vars_blockOf hkids "body", vars_firstBody hkids _⟩, fun block hblock => ?_⟩,
    vars_firstBody hkids _⟩
  obtain ⟨k, hk, rfl⟩ := List.mem_map.mp hblock
  exact (hkids k (List.mem_filter.mp hk).1).body

theorem vars_statementOf (h : Spelled src P t) {definition : Option Function}
    (hdef : ∀ f ∈ definition, ∀ x ∈ f.vars, P x) :
    ∀ stmt ∈ statementOf src t kids definition, ∀ x ∈ stmt.vars, P x := by
  have hdefine : ∀ stmt ∈ definition.toList.map Stmt.define, ∀ x ∈ stmt.vars, P x := by
    simpa [Stmt.vars] using hdef
  unfold statementOf
  split
  case h_1 | h_2 => exact hdefine
  case h_3 =>
    rw [List.forall_mem_flatMap]
    exact fun c hc => vars_expressionPart (h.child hc)
  case h_4 => exact vars_assignmentStatements h
  case h_5 => exact vars_augmentedAssignment h
  case h_6 =>
    rw [List.forall_mem_singleton, returnStatement, Stmt.vars, List.forall_mem_flatMap]
    simpa using fun c hc => vars_operandOfTree (h.named (List.mem_of_head? hc))
  case h_7 => simpa using vars_branchOf hkids (vars_clauseOf hkids h)
  case h_8 =>
    rw [List.forall_mem_singleton, Stmt.vars, List.forall_mem_append]
    exact ⟨vars_conditionOf h, vars_blockOf hkids "body"⟩
  case h_9 =>
    rw [List.forall_mem_singleton, Stmt.vars, List.forall_mem_append, List.forall_mem_append]
    refine ⟨⟨?_, vars_expOfTree? h⟩, vars_blockOf hkids "body"⟩
    cases hleft : t.child? "left" with
    | none => simp
    | some left => exact vars_targetsOf (h.child? hleft)
  case h_10 => simpa using vars_tryOf hkids
  case h_11 =>
    rw [List.forall_mem_singleton, Stmt.vars, List.forall_mem_append, List.forall_mem_flatMap]
    exact ⟨vars_withItems h, vars_blockOf hkids "body"⟩
  all_goals simp [Stmt.vars]

theorem vars_topLevelOf {own : Option Function} (hown : ∀ f ∈ own, ∀ x ∈ f.vars, P x) :
    ∀ u ∈ topLevelOf src t kids own, ∀ x ∈ u.vars, P x := by
  unfold topLevelOf
  split
  · simpa [TopLevel.vars] using hown
  · rw [List.forall_mem_singleton, TopLevel.vars, List.forall_mem_flatMap]
    cases h : Folded.child? kids "body" with
    | none => simp
    | some o => exact (over_child? hkids h).members
  · cases h : kids.find? fun k => isDefinition k.1 with
    | none => simp
    | some k => exact (hkids k (List.mem_of_find?_eq_some h)).topLevel
  · simp

theorem over_step (h : Spelled src P t) : (step src t kids).Over P := by
  have hfunction : ∀ f ∈ functionOf src t kids, ∀ x ∈ f.vars, P x := vars_functionOf hkids
  have hdefinition := vars_definitionOf (t := t) hkids hfunction
  constructor
  case statement => exact vars_statementOf hkids h hdefinition
  case block =>
    simp only [step, Stmt.varsAll_eq_flatMap, List.forall_mem_flatMap]
    exact fun k hk => (hkids k hk).statement
  case body => exact vars_bodyOf hkids
  case clause => exact vars_clauseOf hkids h
  case function => exact hfunction
  case member => exact vars_memberOf hdefinition
  case members =>
    simp only [step, List.forall_mem_flatMap]
    exact fun k hk => (hkids k hk).member
  case topLevel => exact vars_topLevelOf hkids hfunction

end

end Outline

theorem over_outlineOf (h : Spelled src P t) : (outlineOf src t).Over P := by
  induction t using Tree.induct with
  | h t ih =>
    rw [outlineOf, Tree.fold_eq]
    refine Outline.over_step ?_ h
    rw [List.forall_mem_map]
    exact fun c hc => ih c hc (h.child hc)

/-- The variables of a module are spelled by identifiers of its tree. -/
theorem vars_moduleOfTree (h : Spelled src P t) : ∀ u ∈ moduleOfTree src t, ∀ x ∈ u.vars, P x := by
  rw [moduleOfTree, List.forall_mem_flatMap]
  exact fun c hc => (over_outlineOf (h.child hc)).topLevel

end Surface

end ActorOwnership
