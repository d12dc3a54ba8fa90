import ActorOwnership.Proofs.Behaviour
import ActorOwnership.Proofs.Rest

/-! Pieces of code and the part of a finished graph that they became. What is left to do before a
piece is one of its runs, followed by what is left to do after that run; one lemma for each way in
which pieces are put together. -/

namespace ActorOwnership
set_option autoImplicit false

namespace Lowering
open Surface State Behaviour

/-! ### The finished graph -/

/-- The node `n` is in the finished graph as it is in `t`, with the edge to the exit where the
procedure is left. -/
structure Kept (P : Procedure) (t : State) (n : Int) : Prop where
  code : P.instrsAt n = t.code n
  succs : ∀ m, P.LeadsTo n m ↔ m ∈ t.succs n ∨ n ∈ t.exits ∧ m = P.exit

/-- The nodes `R` of `t` are finished, up to the current one, which may still grow. -/
def Completes (P : Procedure) (t : State) (R : Int → Prop) : Prop :=
  ∀ n, R n → n ≠ P.exit ∧ (t.current ≠ some n → Kept P t n) ∧
    (t.current = some n → t.code n <+: P.instrsAt n)

/-- The nodes that change from `s` to `t`. -/
def Region (s t : State) (n : Int) : Prop := s.current = some n ∨ s.size ≤ n ∧ n < t.size

variable {P : Procedure} {s t u : State} {n : Int} {R R' : Int → Prop}

theorem Kept.of_fixed (h : Kept P t n) (hfixed : Fixed s t n) : Kept P s n := by
  refine ⟨h.code.trans hfixed.code, ?_⟩
  intro m
  rw [h.succs, hfixed.succs, hfixed.exits]

/-- A node that is finished after a piece of code and its last edge, and that is not part of it. -/
theorem Kept.before_piece {target next : Int} (h : Kept P (t.jump target next) n)
    (hgrows : Grows s t) (htarget : t.proc.hasNode target = true) (hlt : n < s.size)
    (hcurrent : s.current ≠ some n) (hnext : n ≠ next) : Kept P s n := by
  have hfixed := hgrows.fixed n hlt hcurrent
  exact h.of_fixed (hfixed.trans (fixed_jump hgrows.good htarget hnext hfixed.current))

theorem Completes.mono (h : Completes P t R) (hR : ∀ n, R' n → R n) : Completes P t R' :=
  fun n hn => h n (hR n hn)

theorem Completes.code (h : Completes P t R) (hn : R n) : t.code n <+: P.instrsAt n := by
  by_cases hcurrent : t.current = some n
  · exact (h n hn).2.2 hcurrent
  · simp only [((h n hn).2.1 hcurrent).code, List.prefix_rfl]

/-- What is finished later on is finished as far as it got before. -/
theorem Completes.before (h : Completes P t R) (hR : ∀ n, R' n → R n)
    (hfixed : ∀ n, R' n → s.current ≠ some n → Fixed s t n)
    (hcode : ∀ n, R' n → s.current = some n → s.code n <+: t.code n) : Completes P s R' := by
  intro n hn
  refine ⟨(h n (hR n hn)).1, ?_, ?_⟩
  · intro hcurrent
    have hn' := hfixed n hn hcurrent
    exact ((h n (hR n hn)).2.1 hn'.current).of_fixed hn'
  · intro hcurrent
    exact (hcode n hn hcurrent).trans (h.code (hR n hn))

theorem Completes.before_grows (h : Completes P t R) (hgrows : Grows s t) (hR : ∀ n, R' n → R n)
    (hlt : ∀ n, R' n → n < s.size) : Completes P s R' :=
  h.before hR (fun n hn => hgrows.fixed n (hlt n hn)) fun n _ => hgrows.code n

theorem Completes.before_jump {target next : Int} (h : Completes P (s.jump target next) R)
    (hs : Good s) (htarget : s.proc.hasNode target = true) (hnext : ¬ R next) :
    Completes P s R := by
  apply h.before fun _ hn => hn
  · intro n hn hcurrent
    apply fixed_jump hs htarget _ hcurrent
    rintro rfl
    exact hnext hn
  · intro n _ _
    simp only [code_jump, List.prefix_rfl]

theorem Region.lt (hs : Good s) (hsize : s.size ≤ t.size) (h : Region s t n) : n < t.size := by
  rcases h with hc | ⟨_, hlt⟩
  · exact Int.lt_of_lt_of_le (hs.current n hc).2.1 hsize
  · exact hlt

theorem Region.mono (hsize : t.size ≤ u.size) (h : Region s t n) : Region s u n :=
  h.imp_right fun ⟨hle, hlt⟩ => ⟨hle, Int.lt_of_lt_of_le hlt hsize⟩

/-- After growth the current node is the same one or a new one. -/
theorem State.Grows.region_current (h : Grows s t) (hc : t.current = some n) : Region s t n := by
  by_cases hcurrent : s.current = some n
  · exact Or.inl hcurrent
  · refine Or.inr ⟨?_, (h.good.current n hc).2.1⟩
    by_cases hlt : n < s.size
    · exact absurd hc (h.fixed n hlt hcurrent).current
    · omega

theorem State.Grows.region_rest (h : Grows s t) (hsize : t.size ≤ u.size) (hn : Region t u n) :
    Region s u n := by
  rcases hn with hc | ⟨hle, hlt⟩
  · exact (h.region_current hc).mono hsize
  · exact Or.inr ⟨Int.le_trans h.size hle, hlt⟩

/-! ### Ahead of the current node -/

/-- What is left to do from the end of the current node, as far as it got in `s`. -/
def Ahead (P : Procedure) (s : State) (xs : List Instr) : Prop :=
  ∃ c, s.current = some c ∧ P.Rest ⟨c, (s.code c).length⟩ xs

/-- What is left to do after a run with an ending, where `K` is left after the piece of code. -/
def After (P : Procedure) (loop : Option Loop) (K : List Instr → Prop) :
    Ending → List Instr → Prop
  | .next => K
  | .broken => fun xs => ∃ l, loop = some l ∧ P.Rest ⟨l.after, 0⟩ xs
  | .continued => fun xs => ∃ l, loop = some l ∧ P.Rest ⟨l.head, 0⟩ xs
  | .left => P.Rest ⟨P.exit, 0⟩

variable {loop : Option Loop} {B C : Behaviour} {xs : List Instr} {c : Int}

theorem ahead_iff (hc : s.current = some c) : Ahead P s xs ↔ P.Rest ⟨c, (s.code c).length⟩ xs := by
  constructor
  · rintro ⟨d, hd, hrest⟩
    obtain rfl : c = d := Option.some.inj (hc.symm.trans hd)
    exact hrest
  · exact fun hrest => ⟨c, hc, hrest⟩

/-- At the start of an empty node that is current. -/
theorem ahead_start (hc : s.current = some c) (hcode : s.code c = []) :
    Ahead P s xs ↔ P.Rest ⟨c, 0⟩ xs := by
  rw [ahead_iff hc, hcode]
  rfl

theorem ahead_landed {target next : Int} (h : Untouched s next) :
    Ahead P (s.jump target next) xs ↔ P.Rest ⟨next, 0⟩ xs :=
  ahead_start rfl ((code_jump s target next next).trans h.code)

theorem ahead_congr (hcurrent : t.current = s.current) (hcode : ∀ n, t.code n = s.code n) :
    Ahead P s xs ↔ Ahead P t xs := by
  unfold Ahead
  simp only [hcurrent, hcode]

/-- From a finished current node one of its edges is taken. -/
theorem ahead_of_kept (hc : s.current = some c) (hexit : c ≠ P.exit)
    (hcode : P.instrsAt c = s.code c) :
    Ahead P s xs ↔ ∃ m, P.LeadsTo c m ∧ P.Rest ⟨m, 0⟩ xs := by
  rw [ahead_iff hc, ← hcode, Procedure.rest_end hexit]

theorem ahead_jump {target next : Int} (hs : Good s) (hc : s.current = some c)
    (htarget : s.proc.hasNode target = true) (hexit : c ≠ P.exit)
    (hkept : Kept P (s.jump target next) c) : Ahead P s xs ↔ P.Rest ⟨target, 0⟩ xs := by
  have hcode : P.instrsAt c = s.code c := hkept.code.trans (code_jump s target next c)
  have hleads : ∀ m, P.LeadsTo c m ↔ m = target := by
    intro m
    obtain ⟨_, _, _, hexits⟩ := hs.current c hc
    rw [hkept.succs, succs_jump hs htarget, if_pos hc, exits_jump]
    simp [hexits]
  rw [ahead_of_kept hc hexit hcode]
  simp only [hleads, exists_eq_left]

theorem ahead_branch {loc : Location} {condition : Exp} {kinds : BranchKind × BranchKind}
    {yes no : Int} (hs : Good s) (hc : s.current = some c) (hyes : Untouched s yes)
    (hno : Untouched s no) (hexit : c ≠ P.exit)
    (hkept : Kept P (s.branch loc condition kinds yes no) c) :
    Ahead P s xs ↔ ∃ zs, xs = assumptions loc condition kinds ++ zs ∧
      (P.Rest ⟨yes, 0⟩ zs ∨ P.Rest ⟨no, 0⟩ zs) := by
  have hcode : P.instrsAt c = s.code c ++ (assumptions loc condition kinds ++ []) := by
    rw [hkept.code, code_branch hs, if_pos hc, List.append_nil]
  have hleads : ∀ m, P.LeadsTo c m ↔ m = yes ∨ m = no := by
    intro m
    obtain ⟨_, _, hsuccs, hexits⟩ := hs.current c hc
    rw [hkept.succs, mem_succs_branch hs hyes hno, exits_branch, hsuccs]
    simp [hexits, hc]
  rw [ahead_iff hc, Procedure.rest_append hcode]
  rw [List.append_nil] at hcode
  refine exists_congr fun zs => and_congr_right fun _ => ?_
  rw [← hcode, Procedure.rest_end hexit]
  simp only [hleads, or_and_right, exists_or, exists_eq_left]

/-! ### Pieces of code -/

/-- From `s` to `t` the graph got the runs of `B`. -/
structure Realises (loop : Option Loop) (s t : State) (B : Behaviour) : Prop where
  grows : Grows s t
  /-- Where a run goes on to what comes next, that can be reached. -/
  reached : ∀ xs, B xs .next → s.current ≠ none → t.current ≠ none
  ahead : ∀ P, Completes P t (Region s t) → s.current ≠ none →
    ∀ xs, Ahead P s xs ↔ B.Followed (After P loop (Ahead P t)) xs

theorem followed_after_congr {K K' : List Instr → Prop}
    (h : ∀ ys, B ys .next → ∀ zs, K zs ↔ K' zs) :
    B.Followed (After P loop K) xs ↔ B.Followed (After P loop K') xs := by
  apply followed_congr
  intro ys e zs hB _
  cases e with
  | next => exact h ys hB zs
  | broken => exact Iff.rfl
  | continued => exact Iff.rfl
  | left => exact Iff.rfl

theorem followed_after_andThen {K : List Instr → Prop} :
    (B.andThen C).Followed (After P loop K) xs ↔
      B.Followed (After P loop (C.Followed (After P loop K))) xs := by
  rw [followed_andThen]
  apply followed_congr
  intro ys e zs _ _
  cases e <;> exact Iff.rfl

namespace Realises

theorem congr (h : Realises loop s t B) (hBC : ∀ xs e, B xs e ↔ C xs e) : Realises loop s t C := by
  obtain rfl : B = C := funext fun xs => funext fun e => propext (hBC xs e)
  exact h

theorem andThen (hs : Good s) (h : Realises loop s t B) (h' : Realises loop t u C) :
    Realises loop s u (B.andThen C) := by
  refine ⟨h.grows.trans hs h'.grows, ?_, ?_⟩
  · rintro xs (⟨_, hne⟩ | ⟨ys, zs, _, hB, hC⟩) hcurrent
    · exact absurd rfl hne
    · exact h'.reached zs hC (h.reached ys hB hcurrent)
  · intro P hP hcurrent xs
    have hfirst : Completes P t (Region s t) :=
      hP.before_grows h'.grows (fun n hn => hn.mono h'.grows.size) fun n hn => hn.lt hs h.grows.size
    have hsecond : Completes P u (Region t u) :=
      hP.mono fun n hn => h.grows.region_rest h'.grows.size hn
    rw [h.ahead P hfirst hcurrent xs, followed_after_andThen]
    apply followed_after_congr
    intro ys hB zs
    exact h'.ahead P hsecond (h.reached ys hB hcurrent) zs

/-- A piece of code whose end leads to `target`. -/
theorem jump {target next : Int} (h : Realises loop s t B)
    (htarget : t.proc.hasNode target = true) (hnext : ¬ Region s t next)
    (hP : Completes P (t.jump target next) (Region s t)) (hcurrent : s.current ≠ none) :
    Ahead P s xs ↔ B.Followed (After P loop (P.Rest ⟨target, 0⟩)) xs := by
  have hbefore : Completes P t (Region s t) := hP.before_jump h.grows.good htarget hnext
  rw [h.ahead P hbefore hcurrent xs]
  apply followed_after_congr
  intro ys hB zs
  obtain ⟨c, hc⟩ := Option.ne_none_iff_exists'.mp (h.reached ys hB hcurrent)
  have hregion := h.grows.region_current hc
  have hne : (t.jump target next).current ≠ some c := by
    intro heq
    obtain rfl : next = c := Option.some.inj heq
    exact hnext hregion
  exact ahead_jump h.grows.good hc htarget (hP c hregion).1 ((hP c hregion).2.1 hne)

/-- The same for a piece of code that starts at an empty node, as part of the growth from `s`. -/
theorem rest {target next : Int} {s' : State} (h : Realises loop s' t B) (hs : Grows s s')
    (hn : s'.current = some n) (hcode : s'.code n = []) (htarget : t.proc.hasNode target = true)
    (hnext : ¬ Region s' t next)
    (hP : Completes P (t.jump target next) (Region s (t.jump target next))) :
    P.Rest ⟨n, 0⟩ xs ↔ B.Followed (After P loop (P.Rest ⟨target, 0⟩)) xs := by
  have hsize := size_jump t target next
  have hcurrent : s'.current ≠ none := by
    rw [hn]
    nofun
  rw [← ahead_start hn hcode]
  apply h.jump htarget hnext _ hcurrent
  apply hP.mono
  intro m hm
  exact hs.region_rest (hsize ▸ h.grows.size) (hm.mono (Int.le_of_eq hsize.symm))

end Realises

theorem realises_emits (loop : Option Loop) (hs : Good s) {f : State → State} (hf : Emits f) :
    Realises loop s (f s) (just (emitted f s.temps) .next) := by
  have hcurrent : (f s).current = s.current := by
    rw [hf s]
    exact current_emitAll _ s
  refine ⟨?_, fun _ _ h => hcurrent ▸ h, ?_⟩
  · rw [hf s]
    exact (grows_emitAll _ hs).setTemps _
  · intro P hP hsome xs
    obtain ⟨c, hc⟩ := Option.ne_none_iff_exists'.mp hsome
    have hcode : (f s).code c = s.code c ++ emitted f s.temps := by
      have h : (f s).code c = (s.emitAll (emitted f s.temps)).code c := by
        rw [hf s]
        rfl
      rw [h, code_emitAll _ hc (hs.hasNode hc), if_pos rfl]
    obtain ⟨after, hafter⟩ := hP.code (Or.inl hc)
    rw [hcode, List.append_assoc] at hafter
    rw [followed_just, ahead_iff hc, Procedure.rest_append hafter.symm]
    refine exists_congr fun zs => and_congr_right fun _ => ?_
    rw [After, ahead_iff (hcurrent.trans hc), hcode]

theorem realises_leave (hs : Good s) : Realises loop s s.leave (just [] .left) := by
  refine ⟨grows_leave hs, fun _ hB => absurd hB.2 (by decide), ?_⟩
  intro P hP hsome xs
  obtain ⟨c, hc⟩ := Option.ne_none_iff_exists'.mp hsome
  obtain ⟨hexit, hkept, _⟩ := hP c (Or.inl hc)
  have hkept := hkept fun h => nomatch h
  have hleads : ∀ m, P.LeadsTo c m ↔ m = P.exit := by
    intro m
    obtain ⟨_, _, hsuccs, _⟩ := hs.current c hc
    have hsuccs' : s.leave.succs c = [] := hsuccs
    rw [hkept.succs, mem_exits_leave, hsuccs']
    simp [hc]
  rw [followed_just, ahead_of_kept hc hexit hkept.code]
  simp only [hleads, exists_eq_left, List.nil_append, exists_eq_left', After]

/-- The head of the loop and the node after it exist. -/
def Within (loop : Option Loop) (s : State) : Prop :=
  ∀ l, loop = some l → s.proc.hasNode l.head = true ∧ s.proc.hasNode l.after = true

theorem Within.grows (h : Within loop s) (hs : Good s) (hgrows : Grows s t) : Within loop t := by
  intro l hl
  obtain ⟨hhead, hafter⟩ := h l hl
  exact ⟨hgrows.hasNode hs hhead, hgrows.hasNode hs hafter⟩

/-- A path that is left without a way on: nothing leads from its last node. -/
theorem not_ahead_stop (hs : Good s) (hc : s.current = some c) (hexit : c ≠ P.exit)
    (hkept : Kept P s.stop c) : ¬ Ahead P s xs := by
  obtain ⟨_, _, hsuccs, hexits⟩ := hs.current c hc
  have hsuccs' : s.stop.succs c = [] := hsuccs
  have hexits' : c ∉ s.stop.exits := hexits
  rw [ahead_of_kept hc hexit hkept.code]
  rintro ⟨m, hm, _⟩
  rw [hkept.succs, hsuccs'] at hm
  rcases hm with hm | ⟨hm, _⟩
  · cases hm
  · exact hexits' hm

theorem realises_goTo {pick : Loop → Int} {ending : Ending} (hs : Good s) (hnext : ending ≠ .next)
    (hpick : ∀ l, loop = some l → s.proc.hasNode (pick l) = true)
    (hafter : ∀ P K xs, After P loop K ending xs ↔ ∃ l, loop = some l ∧ P.Rest ⟨pick l, 0⟩ xs) :
    Realises loop s (goTo pick loop s) (just [] ending) := by
  have hnever : ∀ xs, ¬ just [] ending xs .next := fun _ hB => hnext hB.2.symm
  cases loop with
  | none =>
    refine ⟨grows_stop hs, fun xs hB => absurd hB (hnever xs), ?_⟩
    intro P hP hsome xs
    obtain ⟨c, hc⟩ := Option.ne_none_iff_exists'.mp hsome
    obtain ⟨hexit, hkept, _⟩ := hP c (Or.inl hc)
    have hstuck : ¬ Ahead P s xs := not_ahead_stop hs hc hexit (hkept fun h => nomatch h)
    rw [followed_just]
    simp [hstuck, hafter]
  | some l =>
    refine ⟨grows_stop_jump hs (hpick l rfl), fun xs hB => absurd hB (hnever xs), ?_⟩
    intro P hP hsome xs
    obtain ⟨c, hc⟩ := Option.ne_none_iff_exists'.mp hsome
    obtain ⟨hexit, hkept, _⟩ := hP c (Or.inl hc)
    have hkept := hkept fun h => nomatch h
    have hkept' : Kept P (s.jump (pick l) (pick l)) c := ⟨hkept.code, hkept.succs⟩
    rw [followed_just, ahead_jump hs hc (hpick l rfl) hexit hkept']
    simp [hafter]

/-! ### Branches -/

/-- From `s` to `t` the graph got the runs of `B`, which meet in `join`. -/
structure Joins (loop : Option Loop) (join : Int) (s t : State) (B : Behaviour) : Prop where
  grows : Grows s t
  ahead : ∀ P, Completes P (t.jump join join) (Region s t) → s.current ≠ none →
    ∀ xs, Ahead P s xs ↔ B.Followed (After P loop (P.Rest ⟨join, 0⟩)) xs

theorem State.Untouched.not_region (h : Untouched s n) : ¬ Region s t n := by
  rintro (hc | ⟨hle, _⟩)
  · exact h.current hc
  · have hlt := h.lt
    omega

theorem Realises.joins {join : Int} (hs : Good s) (hjoin : Untouched s join)
    (h : Realises loop s t B) : Joins loop join s t B := by
  refine ⟨h.grows, ?_⟩
  intro P hP hcurrent xs
  exact h.jump (h.grows.hasNode hs (hjoin.hasNode hs)) hjoin.not_region hP hcurrent

theorem ahead_openClause {loc : Location} {condition : Exp} (hs : Good s) (hc : s.current = some c)
    (hexit : c ≠ P.exit) (hkept : Kept P (s.openClause loc condition) c) :
    Ahead P s xs ↔ ∃ zs, xs = assumptions loc condition (.ifTrue, .ifFalse) ++ zs ∧
      (P.Rest ⟨s.size, 0⟩ zs ∨ P.Rest ⟨s.size + 1, 0⟩ zs) := by
  rw [ahead_congr (current_spare s) fun _ => code_spare hs]
  exact ahead_branch (grows_spare hs).good hc (untouched_spare hs) (untouched_spare_succ hs) hexit
    hkept

/-- One more clause before the others: its block leads to the join, and the others follow where its
condition fails. -/
theorem Joins.clause {join : Int} {loc : Location} {condition : Exp}
    (hrest : Joins loop join (t.jump join (s.size + 1)) u C) (hs : Good s)
    (hjoin : Untouched s join) (hbody : Realises loop (s.openClause loc condition) t B) :
    Joins loop join s u
      ((just (assumptions loc condition (.ifTrue, .ifFalse)) .next).andThen (either B C)) := by
  have hopen := grows_openClause hs loc condition
  have hother := untouched_openClause hs loc condition
  have hjoin' : Untouched t join := hbody.grows.untouched (hopen.untouched hjoin)
  have htarget : t.proc.hasNode join = true := hjoin'.hasNode hbody.grows.good
  have hjump : Grows s (t.jump join (s.size + 1)) :=
    (hopen.trans hs hbody.grows).jump htarget (hbody.grows.untouched hother) (by omega)
  have hgrows := hjump.trans hs hrest.grows
  refine ⟨hgrows, ?_⟩
  intro P hP hcurrent xs
  obtain ⟨c, hc⟩ := Option.ne_none_iff_exists'.mp hcurrent
  obtain ⟨_, hclt, _⟩ := hs.current c hc
  have hlater : Completes P u (Region s u) :=
    hP.before_jump hgrows.good (hgrows.hasNode hs (hjoin.hasNode hs)) hjoin.not_region
  have hmid : Completes P (t.jump join (s.size + 1)) (Region s (t.jump join (s.size + 1))) :=
    hlater.before_grows hrest.grows (fun n hn => hn.mono hrest.grows.size)
      fun n hn => hn.lt hs hjump.size
  have hno : ∀ zs, P.Rest ⟨s.size + 1, 0⟩ zs ↔ C.Followed (After P loop (P.Rest ⟨join, 0⟩)) zs := by
    intro zs
    rw [← ahead_landed (hbody.grows.untouched hother)]
    exact hrest.ahead P (hP.mono fun n hn => hjump.region_rest hrest.grows.size hn) nofun zs
  have hyes : ∀ zs, P.Rest ⟨s.size, 0⟩ zs ↔ B.Followed (After P loop (P.Rest ⟨join, 0⟩)) zs := by
    intro zs
    exact hbody.rest hopen rfl (code_openClause hs loc condition) htarget hother.not_region hmid
  have hkept : Kept P (s.openClause loc condition) c := by
    have hfirst : s.size ≠ c := by omega
    have hsecond : s.size + 1 ≠ c := by omega
    refine ((hmid c (Or.inl hc)).2.1 ?_).before_piece hbody.grows htarget ?_ ?_ hsecond.symm
    · exact fun heq => hsecond (Option.some.inj heq)
    · exact Int.lt_of_lt_of_le hclt hopen.size
    · exact fun heq => hfirst (Option.some.inj heq)
  rw [followed_after_andThen, followed_just, ahead_openClause hs hc (hmid c (Or.inl hc)).1 hkept]
  refine exists_congr fun zs => and_congr_right fun _ => ?_
  rw [hyes, hno]
  exact followed_either.symm

theorem Joins.realises (hs : Good s) (h : Joins loop s.size (s.newNode .join).2 t B) :
    Realises loop s (t.jump s.size s.size) B := by
  have hjoin := h.grows.untouched (untouched_newNode .join hs)
  have hgrows := (grows_newNode .join hs).trans hs h.grows
  refine ⟨hgrows.jump (hjoin.hasNode hgrows.good) hjoin (Int.le_refl _), fun _ _ _ => nofun, ?_⟩
  intro P hP hcurrent xs
  have hnew : Ahead P s xs ↔ Ahead P (s.newNode .join).2 xs :=
    ahead_congr (current_newNode .join s) fun _ => code_newNode .join hs.toSized
  have hsize := size_jump t s.size s.size
  have hregion : Completes P (t.jump s.size s.size) (Region (s.newNode .join).2 t) := by
    apply hP.mono
    intro n hn
    exact (grows_newNode .join hs).region_rest (hsize ▸ h.grows.size)
      (hn.mono (Int.le_of_eq hsize.symm))
  rw [hnew, h.ahead P hregion hcurrent]
  apply followed_after_congr
  intro _ _ zs
  exact (ahead_landed hjoin).symm

/-! ### Loops -/

/-- What may follow an iteration is what follows a run in the loop. -/
theorem followed_iteration {l : Loop} {K : List Instr → Prop}
    (hK : ∀ zs, P.Rest ⟨l.after, 0⟩ zs ↔ K zs) :
    B.Followed (After P (some l) (P.Rest ⟨l.head, 0⟩)) xs ↔
      B.Followed (afterIteration (After P loop K) (P.Rest ⟨l.head, 0⟩)) xs := by
  apply followed_congr
  intro ys e zs _ _
  cases e with
  | next => exact Iff.rfl
  | broken =>
    refine Iff.trans ?_ (hK zs)
    simp [After]
  | continued => simp [After, afterIteration]
  | left => exact Iff.rfl

section Head
variable {loc : Location} {condition : Exp} {kinds : BranchKind × BranchKind} (hs : Good s)
include hs

theorem ahead_openBody (hc : s.current = some c) (hexit : c ≠ P.exit)
    (hkept : Kept P (s.openBody loc condition kinds) c) :
    Ahead P s xs ↔ P.Rest ⟨s.size, 0⟩ xs := by
  obtain ⟨_, hlt, _⟩ := hs.current c hc
  have hnodes : Ahead P s xs ↔ Ahead P (s.newNode .loopHead).2.spare xs :=
    ahead_congr (current_spare _) fun _ => code_headNodes hs
  have hfixed : Fixed s.openHead (s.openBody loc condition kinds) c := by
    apply fixed_branch (grows_openHead hs).good
    · omega
    · intro heq
      have hhead : s.size = c := Option.some.inj heq
      omega
  rw [hnodes]
  exact ahead_jump (grows_headNodes hs).good hc (hasNode_head hs) hexit (hkept.of_fixed hfixed)

/-- From the head of a loop the body follows, or what comes after the loop. -/
theorem rest_head (hexit : s.size ≠ P.exit)
    (hkept : Kept P (s.openBody loc condition kinds) s.size) :
    P.Rest ⟨s.size, 0⟩ xs ↔ ∃ zs, xs = assumptions loc condition kinds ++ zs ∧
      (P.Rest ⟨s.size + 1, 0⟩ zs ∨ P.Rest ⟨s.size + 2, 0⟩ zs) := by
  rw [← ahead_start rfl (code_openHead hs)]
  exact ahead_branch (grows_openHead hs).good rfl (untouched_openHead_body hs)
    (untouched_openHead_after hs) hexit hkept

end Head

theorem Realises.repeat {loc : Location} {condition : Exp} {kinds : BranchKind × BranchKind}
    (hs : Good s)
    (h : Realises (some ⟨s.size, s.size + 2⟩) (s.openBody loc condition kinds) t B) :
    Realises loop s (t.jump s.size (s.size + 2)) (Repeat (assumptions loc condition kinds) B) := by
  have hopen := grows_openBody hs loc condition kinds
  have hafter := untouched_openBody hs loc condition kinds
  have hafter' := h.grows.untouched hafter
  have hgrows := hopen.trans hs h.grows
  have hnonneg := hs.nonneg
  have hafterlt := hafter.lt
  have hafterlt' := hafter'.lt
  have htarget : t.proc.hasNode s.size = true := by
    apply (hgrows.good.nodes s.size).mpr
    omega
  have hjump : Grows s (t.jump s.size (s.size + 2)) := hgrows.jump htarget hafter' (by omega)
  have hsize := size_jump t s.size (s.size + 2)
  refine ⟨hjump, fun _ _ _ => nofun, ?_⟩
  intro P hP hcurrent xs
  obtain ⟨c, hc⟩ := Option.ne_none_iff_exists'.mp hcurrent
  obtain ⟨_, hclt, _⟩ := hs.current c hc
  -- the node before the loop and the head are finished before the body
  have hkept : ∀ n, Region s (t.jump s.size (s.size + 2)) n → n ≤ s.size →
      Kept P (s.openBody loc condition kinds) n := by
    intro n hn hle
    have hbody : s.size + 1 ≠ n := by omega
    have hnext : s.size + 2 ≠ n := by omega
    refine ((hP n hn).2.1 ?_).before_piece h.grows htarget (by omega) ?_ hnext.symm
    · exact fun heq => hnext (Option.some.inj heq)
    · exact fun heq => hbody (Option.some.inj heq)
  have hhead : Region s (t.jump s.size (s.size + 2)) s.size := Or.inr ⟨Int.le_refl _, by omega⟩
  have henter : Ahead P s xs ↔ P.Rest ⟨s.size, 0⟩ xs :=
    ahead_openBody hs hc (hP c (Or.inl hc)).1 (hkept c (Or.inl hc) (Int.le_of_lt hclt))
  have hbody : ∀ zs, P.Rest ⟨s.size + 1, 0⟩ zs ↔
      B.Followed (After P (some ⟨s.size, s.size + 2⟩) (P.Rest ⟨s.size, 0⟩)) zs := by
    intro zs
    exact h.rest hopen rfl (code_openBody hs loc condition kinds) htarget hafter.not_region hP
  have hrest : ∀ zs, P.Rest ⟨s.size + 2, 0⟩ zs ↔ Ahead P (t.jump s.size (s.size + 2)) zs :=
    fun _ => (ahead_landed hafter').symm
  rw [henter]
  apply followed_repeat_unique (List.cons_ne_nil _ _)
  intro xs
  rw [rest_head hs (hP s.size hhead).1 (hkept s.size hhead (Int.le_refl _))]
  refine exists_congr fun zs => and_congr_right fun _ => ?_
  rw [hbody, or_comm]
  exact or_congr (hrest zs) (followed_iteration hrest)

end Lowering

end ActorOwnership
