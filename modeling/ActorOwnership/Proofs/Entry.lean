import Mathlib.Data.List.Forall2
import Mathlib.Data.List.TakeWhile
import Mathlib.Data.Nat.Digits.Defs
import Mathlib.Tactic.Ring
import ActorOwnership.Catalog
import ActorOwnership.Collections

/-! Entries of the hand-off catalog as texts: which texts are entries, and which positions an entry
gives away. An entry `NAME:PART,PART` lists single positions `K` and open ranges `K+`. Of several
open ranges only the last one is kept. -/

namespace ActorOwnership
set_option autoImplicit false

/-! ### Blanks around a text -/

namespace Text

/-- The text is `core` with blanks around it. -/
def Padded (core cs : List Char) : Prop :=
  ∃ before after, cs = before ++ core ++ after ∧ (∀ c ∈ before, isBlank c = true) ∧
    ∀ c ∈ after, isBlank c = true

/-- No blank stands at either end. -/
def Solid (cs : List Char) : Prop :=
  (∀ c ∈ cs.head?, isBlank c = false) ∧ ∀ c ∈ cs.getLast?, isBlank c = false

theorem dropWhile_append_blanks {before core : List Char} (hbefore : ∀ c ∈ before, isBlank c = true)
    (hcore : ∀ c ∈ core.head?, isBlank c = false) : (before ++ core).dropWhile isBlank = core := by
  rw [List.dropWhile_append_of_pos hbefore]
  cases core with
  | nil => rfl
  | cons c cs =>
    have hc : ¬ isBlank c = true := by
      rw [hcore c rfl]
      exact Bool.false_ne_true
    rw [List.dropWhile_cons_of_neg hc]

theorem head?_dropWhile_blank {cs : List Char} {c : Char}
    (h : c ∈ (cs.dropWhile isBlank).head?) : isBlank c = false := by
  have := List.head?_dropWhile_not isBlank cs
  rw [Option.mem_def.mp h] at this
  simpa using this

theorem stripChars_of_padded {core cs : List Char} (hcore : Solid core) (hne : core ≠ [])
    (h : Padded core cs) : stripChars cs = core := by
  obtain ⟨before, after, rfl, hbefore, hafter⟩ := h
  have hhead : (core ++ after).head? = core.head? := by
    cases core with
    | nil => exact absurd rfl hne
    | cons c cs => rfl
  have hfirst : (before ++ core ++ after).dropWhile isBlank = core ++ after := by
    rw [List.append_assoc]
    apply dropWhile_append_blanks hbefore
    rw [hhead]
    exact hcore.1
  have hlast : (core ++ after).reverse.dropWhile isBlank = core.reverse := by
    rw [List.reverse_append]
    apply dropWhile_append_blanks
    · intro c hc
      exact hafter c (List.mem_reverse.mp hc)
    · rw [List.head?_reverse]
      exact hcore.2
  rw [stripChars, trimBoth, hfirst, hlast, List.reverse_reverse]

theorem padded_stripChars (cs : List Char) : Padded (stripChars cs) cs := by
  refine ⟨cs.takeWhile isBlank, ((cs.dropWhile isBlank).reverse.takeWhile isBlank).reverse,
    ?_, ?_, ?_⟩
  · rw [stripChars, trimBoth, List.append_assoc, ← List.reverse_append,
      List.takeWhile_append_dropWhile, List.reverse_reverse, List.takeWhile_append_dropWhile]
  · intro c hc
    exact List.mem_takeWhile_imp hc
  · intro c hc
    exact List.mem_takeWhile_imp (List.mem_reverse.mp hc)

theorem solid_stripChars (cs : List Char) : Solid (stripChars cs) := by
  constructor
  · intro c hc
    -- the stripped text begins where the leading blanks end
    have hprefix : stripChars cs <+: cs.dropWhile isBlank := by
      rw [stripChars, trimBoth, ← List.reverse_suffix, List.reverse_reverse]
      exact List.dropWhile_suffix isBlank
    obtain ⟨rest, hrest⟩ := hprefix
    have hhead : c ∈ (cs.dropWhile isBlank).head? := by
      rw [← hrest, List.head?_append, Option.mem_def.mp hc]
      rfl
    exact head?_dropWhile_blank hhead
  · intro c hc
    rw [stripChars, trimBoth, List.getLast?_reverse] at hc
    exact head?_dropWhile_blank hc

/-! ### Numerals -/

/-- Decimal digits of any script, with the number that they stand for. -/
def Numeral (cs : List Char) (k : Nat) : Prop :=
  cs ≠ [] ∧ ∃ ds, List.Forall₂ (fun c d => decimalValue? c = some d) cs ds ∧
    k = Nat.ofDigits 10 ds.reverse

section Digits
variable {c : Char}

theorem decimalValue?_eq_some {d : Nat} (h : decimalValue? c = some d) :
    ∃ z ∈ decimalZeros, z ≤ c.toNat ∧ c.toNat ≤ z + 9 ∧ d = c.toNat - z := by
  obtain ⟨z, hz, rfl⟩ := Option.map_eq_some_iff.mp h
  have hrange := List.find?_some hz
  simp only [Bool.and_eq_true, decide_eq_true_eq] at hrange
  exact ⟨z, List.mem_of_find?_eq_some hz, hrange.1, hrange.2, rfl⟩

/-- A digit lies in one of the runs of ten, or in one of the ranges of other digits. -/
theorem isDigit_cases (h : isDigit c = true) :
    (∃ z ∈ decimalZeros, z ≤ c.toNat ∧ c.toNat ≤ z + 9) ∨
      ∃ r ∈ otherDigitRanges, r.1 ≤ c.toNat ∧ c.toNat ≤ r.2 := by
  rcases Bool.or_eq_true_iff.mp h with h | h
  · obtain ⟨d, hd⟩ := Option.isSome_iff_exists.mp h
    obtain ⟨z, hz, hlow, hhigh, -⟩ := decimalValue?_eq_some hd
    exact Or.inl ⟨z, hz, hlow, hhigh⟩
  · obtain ⟨r, hr, hrange⟩ := List.any_eq_true.mp h
    simp only [Bool.and_eq_true, decide_eq_true_eq] at hrange
    exact Or.inr ⟨r, hr, hrange⟩

/-- Below the Latin supplement only the ten common digits are digits. -/
theorem toNat_of_isDigit (h : isDigit c = true) :
    48 ≤ c.toNat ∧ (c.toNat ≤ 57 ∨ 178 ≤ c.toNat) := by
  have hzeros : ∀ z ∈ decimalZeros, z = 48 ∨ 178 ≤ z := by decide
  have hothers : ∀ r ∈ otherDigitRanges, 178 ≤ r.1 := by decide
  rcases isDigit_cases h with ⟨z, hz, hlow, hhigh⟩ | ⟨r, hr, hlow, hhigh⟩
  · have := hzeros z hz
    omega
  · have := hothers r hr
    omega

theorem isBlank_of_isDigit (h : isDigit c = true) : isBlank c = false := by
  have hzeros : ∀ z ∈ decimalZeros, ∀ b ∈ blankRanges, z + 9 < b.1 ∨ b.2 < z := by decide +kernel
  have hothers : ∀ r ∈ otherDigitRanges, ∀ b ∈ blankRanges, r.2 < b.1 ∨ b.2 < r.1 := by
    decide +kernel
  apply Bool.eq_false_iff.mpr
  intro hblank
  obtain ⟨b, hb, hrange⟩ := List.any_eq_true.mp hblank
  simp only [Bool.and_eq_true, decide_eq_true_eq] at hrange
  rcases isDigit_cases h with ⟨z, hz, hlow, hhigh⟩ | ⟨r, hr, hlow, hhigh⟩
  · have := hzeros z hz b hb
    omega
  · have := hothers r hr b hb
    omega

theorem ne_of_isDigit (h : isDigit c = true) {d : Char} (hd : isDigit d = false) : c ≠ d := by
  rintro rfl
  rw [h] at hd
  cases hd

/-- Letters stand for larger digits, but no digit is a letter. -/
theorem digitValue?_of_isDigit (h : isDigit c = true) : digitValue? c = decimalValue? c := by
  unfold digitValue?
  cases hc : decimalValue? c with
  | some d => rfl
  | none =>
    have hrange := toNat_of_isDigit h
    have hlower : ¬ ('a' ≤ c ∧ c ≤ 'z') := by
      rintro ⟨hlow, hhigh⟩
      have hlow : 97 ≤ c.toNat := hlow
      have hhigh : c.toNat ≤ 122 := hhigh
      omega
    have hupper : ¬ ('A' ≤ c ∧ c ≤ 'Z') := by
      rintro ⟨hlow, hhigh⟩
      have hlow : 65 ≤ c.toNat := hlow
      have hhigh : c.toNat ≤ 90 := hhigh
      omega
    simp only [Bool.and_eq_true, decide_eq_true_eq, if_neg hlower, if_neg hupper]

end Digits

section Numerals
variable {cs : List Char}

theorem digitsOf?_of_digits (need : Bool) (hdigits : ∀ c ∈ cs, isDigit c = true)
    (hneed : need = true → cs ≠ []) {ds : List Nat} :
    digitsOf? 10 need cs = some ds ↔ List.Forall₂ (fun c d => decimalValue? c = some d) cs ds := by
  induction cs generalizing need ds with
  | nil =>
    cases need with
    | true => exact absurd rfl (hneed rfl)
    | false =>
      rw [digitsOf?, if_neg Bool.false_ne_true, Option.some.injEq, List.forall₂_nil_left_iff]
      exact eq_comm
  | cons c cs ih =>
    have hc : isDigit c = true := hdigits c List.mem_cons_self
    have hunderscore : ¬ (c == '_') = true := by
      rw [beq_iff_eq]
      exact ne_of_isDigit hc (by decide)
    have hrest : ∀ ds', digitsOf? 10 false cs = some ds' ↔
        List.Forall₂ (fun c d => decimalValue? c = some d) cs ds' := by
      intro ds'
      refine ih false (fun d hd => hdigits d (List.mem_cons_of_mem c hd)) ?_
      intro h
      cases h
    rw [digitsOf?, if_neg hunderscore, digitValue?_of_isDigit hc]
    cases hv : decimalValue? c with
    | none =>
      constructor
      · intro h
        cases h
      · intro h
        cases h with
        | cons hd _ =>
          rw [hv] at hd
          cases hd
    | some v =>
      obtain ⟨z, _, hlow, hhigh, hval⟩ := decimalValue?_eq_some hv
      have hlt : v < 10 := by omega
      simp only [if_pos hlt]
      rw [Option.map_eq_some_iff, List.forall₂_cons_left_iff]
      constructor
      · rintro ⟨ds', hds, rfl⟩
        exact ⟨v, ds', hv, (hrest ds').mp hds, rfl⟩
      · rintro ⟨d, ds', hd, hds, rfl⟩
        rw [hv, Option.some.injEq] at hd
        exact ⟨ds', (hrest ds').mpr hds, by rw [hd]⟩

theorem valueOf_eq_ofDigits (ds : List Nat) : valueOf 10 ds = Nat.ofDigits 10 ds.reverse := by
  rw [Nat.ofDigits_eq_foldr, List.foldr_reverse, valueOf]
  congr 1
  funext acc d
  simp only [Nat.cast_id]
  ring

theorem trimBoth_of_digits (hdigits : ∀ c ∈ cs, isDigit c = true) :
    trimBoth isNumberBlank cs = cs := by
  have hkeep : ∀ xs : List Char, (∀ c ∈ xs, isDigit c = true) →
      xs.dropWhile isNumberBlank = xs := by
    intro xs hxs
    cases xs with
    | nil => rfl
    | cons c xs =>
      apply List.dropWhile_cons_of_neg
      rw [isNumberBlank, isBlank_of_isDigit (hxs c List.mem_cons_self), Bool.false_and]
      exact Bool.false_ne_true
  rw [trimBoth, hkeep cs hdigits, hkeep _ fun c hc => hdigits c (List.mem_reverse.mp hc),
    List.reverse_reverse]

/-- A text of digits is read without sign, blanks and underscores. -/
theorem readInteger_of_digits (hdigits : ∀ c ∈ cs, isDigit c = true) :
    readInteger .decimal (String.ofList cs) = (readDecimal cs).map fun n : Nat => (n : Int) := by
  unfold readInteger
  rw [String.toList_ofList, trimBoth_of_digits hdigits]
  split
  · exact absurd (hdigits '-' List.mem_cons_self) (by decide)
  · exact absurd (hdigits '+' List.mem_cons_self) (by decide)
  · rw [readUnsigned]
    cases readDecimal cs <;> rfl

theorem Numeral.digits {k : Nat} (h : Numeral cs k) : ∀ c ∈ cs, isDigit c = true := by
  obtain ⟨-, ds, hds, -⟩ := h
  intro c hc
  have hboth : List.Forall₂ (fun c d => isDigit c = true ∧ decimalValue? c = some d) cs ds :=
    hds.imp fun c d hd => ⟨isDigit_of_decimalValue? hd, hd⟩
  exact ((List.forall₂_and_left cs ds).mp hboth).1 c hc

theorem Numeral.allDigits {k : Nat} (h : Numeral cs k) : allDigits cs = true := by
  rw [Text.allDigits, Bool.and_eq_true, List.all_eq_true]
  refine ⟨?_, h.digits⟩
  cases cs with
  | nil => exact absurd rfl h.1
  | cons c cs => rfl

theorem Numeral.readDecimal_eq {k : Nat} (h : Numeral cs k) :
    readDecimal cs =
      if cs.length ≤ maxDecimalDigits then .ok k else .error (.tooLong cs.length) := by
  obtain ⟨hne, ds, hds, rfl⟩ := h
  have hread : digitsOf? 10 true cs = some ds :=
    (digitsOf?_of_digits true (Numeral.digits ⟨hne, ds, hds, rfl⟩) fun _ => hne).mpr hds
  rw [Text.readDecimal, hread, hds.length_eq]
  simp only [valueOf_eq_ofDigits]

theorem Numeral.of_readDecimal (hne : cs ≠ []) (hdigits : ∀ c ∈ cs, isDigit c = true) {k : Nat}
    (h : readDecimal cs = .ok k) : Numeral cs k := by
  unfold Text.readDecimal at h
  split at h
  · cases h
  · rename_i ds hds
    split at h
    · cases h
      exact ⟨hne, ds, (digitsOf?_of_digits true hdigits fun _ => hne).mp hds,
        valueOf_eq_ofDigits ds⟩
    · cases h

theorem Numeral.solid {k : Nat} (h : Numeral cs k) : Solid cs := by
  constructor
  · intro c hc
    exact isBlank_of_isDigit (h.digits c (List.mem_of_head? hc))
  · intro c hc
    exact isBlank_of_isDigit (h.digits c (List.mem_of_getLast? hc))

end Numerals

end Text

/-! ### Parts -/

/-- One position, or a position and all later ones. -/
inductive EntryPart where
  | single (k : Nat)
  | onwards (k : Nat)
  deriving DecidableEq, Repr

namespace EntryPart

def Covers : EntryPart → Int → Prop
  | single k, i => i = k
  | onwards k, i => k ≤ i

/-- The text of a part, `K` or `K+` with blanks around it. -/
inductive Written : List Char → EntryPart → Prop where
  | single {core cs : List Char} {k : Nat} :
      Text.Numeral core k → Text.Padded core cs → Written cs (single k)
  | onwards {core cs : List Char} {k : Nat} :
      Text.Numeral core k → Text.Padded (core ++ ['+']) cs → Written cs (onwards k)

def single? : EntryPart → Option Int
  | single k => some k
  | onwards _ => none

def onwards? : EntryPart → Option Int
  | single _ => none
  | onwards k => some k

/-- Where the last open range begins. -/
def lastOpen (parts : List EntryPart) : Option Int := (parts.filterMap onwards?).getLast?

theorem mem_single? {parts : List EntryPart} {i : Int} :
    i ∈ parts.filterMap single? ↔ ∃ k : Nat, single k ∈ parts ∧ i = k := by
  rw [List.mem_filterMap]
  constructor
  · rintro ⟨part, hpart, h⟩
    cases part with
    | single k => exact ⟨k, hpart, (Option.some.inj h).symm⟩
    | onwards k => cases h
  · rintro ⟨k, hpart, rfl⟩
    exact ⟨single k, hpart, rfl⟩

theorem mem_onwards? {parts : List EntryPart} {i : Int} :
    i ∈ parts.filterMap onwards? ↔ ∃ k : Nat, onwards k ∈ parts ∧ i = k := by
  rw [List.mem_filterMap]
  constructor
  · rintro ⟨part, hpart, h⟩
    cases part with
    | single k => cases h
    | onwards k => exact ⟨k, hpart, (Option.some.inj h).symm⟩
  · rintro ⟨k, hpart, rfl⟩
    exact ⟨onwards k, hpart, rfl⟩

theorem lastOpen_cons (part : EntryPart) (parts : List EntryPart) :
    lastOpen (part :: parts) = (lastOpen parts).or part.onwards? := by
  unfold lastOpen
  cases part with
  | single k => rw [List.filterMap_cons_none rfl, onwards?, Option.or_none]
  | onwards k =>
    have hcons : (onwards k :: parts).filterMap onwards? =
        (k : Int) :: parts.filterMap onwards? := rfl
    rw [hcons, List.getLast?_cons]
    cases (parts.filterMap onwards?).getLast? <;> rfl

/-- The open ranges add up to the last one when that one begins first. -/
theorem covered_iff {parts : List EntryPart}
    (hleast : ∀ j, lastOpen parts = some j → ∀ k : Nat, onwards k ∈ parts → j ≤ k) {i : Int} :
    (∃ part ∈ parts, part.Covers i) ↔
      (∃ k : Nat, single k ∈ parts ∧ i = k) ∨ ∃ j, lastOpen parts = some j ∧ j ≤ i := by
  constructor
  · rintro ⟨part, hpart, hi⟩
    cases part with
    | single k => exact Or.inl ⟨k, hpart, hi⟩
    | onwards k =>
      right
      have hmem : (k : Int) ∈ parts.filterMap onwards? := mem_onwards?.mpr ⟨k, hpart, rfl⟩
      have hsome : lastOpen parts ≠ none := by
        intro hnone
        rw [List.getLast?_eq_none_iff.mp hnone] at hmem
        cases hmem
      obtain ⟨j, hj⟩ := Option.ne_none_iff_exists'.mp hsome
      exact ⟨j, hj, Int.le_trans (hleast j hj k hpart) hi⟩
  · rintro (⟨k, hpart, hi⟩ | ⟨j, hj, hi⟩)
    · exact ⟨single k, hpart, hi⟩
    · obtain ⟨k, hpart, rfl⟩ := mem_onwards?.mp (List.mem_of_getLast? hj)
      exact ⟨onwards k, hpart, hi⟩

end EntryPart

namespace HandOffSpec

/-- Takes a part into the operation. -/
def add (s : HandOffSpec) : EntryPart → HandOffSpec
  | .single k => { s with args := s.args ++ [(k : Int)] }
  | .onwards k => { s with varargsFrom := some k }

theorem name_foldl_add (parts : List EntryPart) (s : HandOffSpec) :
    (parts.foldl add s).name = s.name := by
  induction parts generalizing s with
  | nil => rfl
  | cons part parts ih =>
    rw [List.foldl_cons, ih]
    cases part <;> rfl

theorem args_foldl_add (parts : List EntryPart) (s : HandOffSpec) :
    (parts.foldl add s).args = s.args ++ parts.filterMap EntryPart.single? := by
  induction parts generalizing s with
  | nil => exact (List.append_nil _).symm
  | cons part parts ih =>
    rw [List.foldl_cons, ih]
    cases part with
    | single k =>
      rw [add, List.append_assoc]
      rfl
    | onwards k =>
      rw [List.filterMap_cons_none rfl]
      rfl

theorem varargsFrom_foldl_add (parts : List EntryPart) (s : HandOffSpec) :
    (parts.foldl add s).varargsFrom = (EntryPart.lastOpen parts).or s.varargsFrom := by
  induction parts generalizing s with
  | nil => rfl
  | cons part parts ih =>
    rw [List.foldl_cons, ih, EntryPart.lastOpen_cons, Option.or_assoc]
    cases part <;> rfl

theorem mem_foldl_insertPosition {xs seen : List Int} {i : Int} :
    i ∈ xs.foldl positions.insertPosition seen ↔ i ∈ seen ∨ i ∈ xs := by
  induction xs generalizing seen with
  | nil => simp
  | cons x xs ih =>
    have hstep : i ∈ positions.insertPosition seen x ↔ i ∈ seen ∨ i = x := mem_insertNew
    rw [List.foldl_cons, ih, hstep, List.mem_cons, or_assoc]

theorem mem_positions {s : HandOffSpec} {n : Nat} {i : Int} :
    i ∈ s.positions n ↔ (i ∈ s.args ∧ 0 ≤ i ∧ i < n) ∨
      ∃ first, s.varargsFrom = some first ∧ first ≤ i ∧ i < n := by
  have hlisted : i ∈ s.args.filter (fun i : Int => 0 ≤ i && i < (n : Int)) ↔
      i ∈ s.args ∧ 0 ≤ i ∧ i < n := by
    rw [List.mem_filter, Bool.and_eq_true, decide_eq_true_eq, decide_eq_true_eq]
  unfold positions
  cases hfirst : s.varargsFrom with
  | none =>
    simp only [hlisted]
    simp
  | some first =>
    simp only [mem_foldl_insertPosition, hlisted, mem_intRange, Option.some.injEq]
    simp

end HandOffSpec

/-! ### Reading -/

namespace Catalog
open EntryPart Text
variable {entry : String} {cs piece : List Char} {pieces : List (List Char)} {s r : HandOffSpec}

theorem numeral_of_readPosition {n : Int} (h : readPosition entry cs = .ok n) :
    ∃ k : Nat, Numeral cs k ∧ n = k := by
  unfold readPosition at h
  split at h
  · rename_i hall
    obtain ⟨hne, hdigits⟩ := Bool.and_eq_true_iff.mp hall
    have hne : cs ≠ [] := by
      rintro rfl
      cases hne
    rw [readInteger_of_digits (List.all_eq_true.mp hdigits)] at h
    cases hread : readDecimal cs with
    | error e =>
      rw [hread] at h
      cases e <;> cases h
    | ok k =>
      rw [hread] at h
      exact ⟨k, .of_readDecimal hne (List.all_eq_true.mp hdigits) hread, (Except.ok.inj h).symm⟩
  · cases h

theorem readPosition_of_numeral {k : Nat} (h : Numeral cs k) :
    readPosition entry cs =
      if cs.length ≤ maxDecimalDigits then .ok (k : Int) else .error (.tooLong cs.length) := by
  unfold readPosition
  rw [if_pos h.allDigits, readInteger_of_digits h.digits, h.readDecimal_eq]
  by_cases hshort : cs.length ≤ maxDecimalDigits
  · rw [if_pos hshort, if_pos hshort]
    rfl
  · rw [if_neg hshort, if_neg hshort]
    rfl

theorem Numeral.getLast?_ne {k : Nat} (h : Numeral cs k) : cs.getLast? ≠ some '+' := by
  intro hlast
  exact absurd (h.digits '+' (List.mem_of_getLast? hlast)) (by decide)

theorem solid_marked {k : Nat} (h : Numeral cs k) : Solid (cs ++ ['+']) := by
  constructor
  · intro c hc
    cases cs with
    | nil => exact absurd rfl h.1
    | cons d ds => exact h.solid.1 c hc
  · intro c hc
    rw [List.getLast?_concat] at hc
    obtain rfl := Option.some.inj hc
    decide

/-- A part that is written as it should be is taken in, unless it has too many digits. -/
theorem readPositions_of_written {part : EntryPart} (h : Written piece part) :
    readPositions entry (piece :: pieces) s = readPositions entry pieces (s.add part) ∨
      ∃ digits, maxDecimalDigits < digits ∧ digits ≤ piece.length ∧
        readPositions entry (piece :: pieces) s = .error (.tooLong digits) := by
  cases h with
  | @single core _ k hcore hpadded =>
    have hlen : core.length ≤ piece.length := by
      obtain ⟨before, after, rfl, -⟩ := hpadded
      simp only [List.length_append]
      omega
    rw [readPositions]
    simp only [stripChars_of_padded hcore.solid hcore.1 hpadded, if_neg (Numeral.getLast?_ne hcore),
      readPosition_of_numeral hcore]
    by_cases hshort : core.length ≤ maxDecimalDigits
    · rw [if_pos hshort]
      exact Or.inl rfl
    · rw [if_neg hshort]
      exact Or.inr ⟨core.length, by omega, hlen, rfl⟩
  | @onwards core _ k hcore hpadded =>
    have hlen : core.length ≤ piece.length := by
      obtain ⟨before, after, rfl, -⟩ := hpadded
      simp only [List.length_append]
      omega
    have hne : core ++ ['+'] ≠ [] := List.append_ne_nil_of_right_ne_nil core (List.cons_ne_nil _ _)
    rw [readPositions]
    simp only [stripChars_of_padded (solid_marked hcore) hne hpadded, List.getLast?_concat, if_true,
      List.dropLast_concat, readPosition_of_numeral hcore]
    by_cases hshort : core.length ≤ maxDecimalDigits
    · rw [if_pos hshort]
      exact Or.inl rfl
    · rw [if_neg hshort]
      exact Or.inr ⟨core.length, by omega, hlen, rfl⟩

theorem written_of_readPositions (h : readPositions entry (piece :: pieces) s = .ok r) :
    ∃ part, Written piece part ∧ readPositions entry pieces (s.add part) = .ok r := by
  rw [readPositions] at h
  split at h
  · rename_i hlast
    split at h
    · rename_i n hn
      obtain ⟨k, hk, rfl⟩ := numeral_of_readPosition hn
      refine ⟨onwards k, .onwards hk ?_, h⟩
      rw [List.dropLast_append_getLast? _ hlast]
      exact padded_stripChars piece
    · cases h
  · split at h
    · rename_i n hn
      obtain ⟨k, hk, rfl⟩ := numeral_of_readPosition hn
      exact ⟨single k, .single hk (padded_stripChars piece), h⟩
    · cases h

theorem parts_of_readPositions (h : readPositions entry pieces s = .ok r) :
    ∃ parts, List.Forall₂ Written pieces parts ∧ r = parts.foldl HandOffSpec.add s := by
  induction pieces generalizing s with
  | nil => exact ⟨[], .nil, (Except.ok.inj h).symm⟩
  | cons piece pieces ih =>
    obtain ⟨part, hpart, hrest⟩ := written_of_readPositions h
    obtain ⟨parts, hparts, hr⟩ := ih hrest
    exact ⟨part :: parts, .cons hpart hparts, hr⟩

theorem readPositions_of_parts {parts : List EntryPart} (h : List.Forall₂ Written pieces parts) :
    readPositions entry pieces s = .ok (parts.foldl HandOffSpec.add s) ∨
      ∃ digits, maxDecimalDigits < digits ∧ (∃ piece ∈ pieces, digits ≤ piece.length) ∧
        readPositions entry pieces s = .error (.tooLong digits) := by
  induction h generalizing s with
  | nil => exact Or.inl rfl
  | @cons piece part pieces parts hpart _ ih =>
    rcases @readPositions_of_written entry piece pieces s part hpart with
      h | ⟨digits, hlong, hlen, h⟩
    · rw [h]
      rcases @ih (s.add part) with h | ⟨digits, hlong, ⟨piece', hpiece', hlen⟩, h⟩
      · exact Or.inl h
      · exact Or.inr ⟨digits, hlong, ⟨piece', List.mem_cons_of_mem piece hpiece', hlen⟩, h⟩
    · exact Or.inr ⟨digits, hlong, ⟨piece, List.mem_cons_self, hlen⟩, h⟩

/-! ### Pieces -/

theorem splitChars_eq_splitOn (sep : Char) (cs : List Char) :
    splitChars sep cs = cs.splitOn sep := by
  unfold List.splitOn
  induction cs with
  | nil => rfl
  | cons c cs ih =>
    rw [splitChars, ih, List.splitOnP_cons_eq_if_modifyHead]
    obtain ⟨piece, pieces, hpieces⟩ :=
      List.exists_cons_of_ne_nil (List.splitOnP_ne_nil (fun x => x == sep) cs)
    rw [hpieces]
    simp only [beq_iff_eq]
    rfl

theorem mem_written {part : EntryPart} (h : Written piece part) {c : Char} (hc : c ∈ piece) :
    isBlank c = true ∨ isDigit c = true ∨ c = '+' := by
  have hpadded : ∀ {core : List Char}, Padded core piece →
      (∀ c ∈ core, isDigit c = true ∨ c = '+') → isBlank c = true ∨ isDigit c = true ∨ c = '+' := by
    rintro core ⟨before, after, rfl, hbefore, hafter⟩ hcore
    rcases List.mem_append.mp hc with hc | hc
    · rcases List.mem_append.mp hc with hc | hc
      · exact Or.inl (hbefore c hc)
      · exact Or.inr (hcore c hc)
    · exact Or.inl (hafter c hc)
  cases h with
  | single hcore h => exact hpadded h fun c hc => Or.inl (hcore.digits c hc)
  | onwards hcore h =>
    refine hpadded h fun c hc => ?_
    rcases List.mem_append.mp hc with hc | hc
    · exact Or.inl (hcore.digits c hc)
    · exact Or.inr (List.mem_singleton.mp hc)

theorem not_comma_mem_written {part : EntryPart} (h : Written piece part) : ',' ∉ piece := by
  intro hmem
  have hother : ¬ (isBlank ',' = true ∨ isDigit ',' = true ∨ ',' = '+') := by decide
  exact hother (mem_written h hmem)

theorem exists_digit_mem_written {part : EntryPart} (h : Written piece part) :
    ∃ c ∈ piece, isBlank c = false := by
  have hcore : ∀ {core : List Char} {k : Nat}, Numeral core k → core ⊆ piece →
      ∃ c ∈ piece, isBlank c = false := by
    intro core k hcore hsub
    obtain ⟨c, cs, rfl⟩ := List.exists_cons_of_ne_nil hcore.1
    exact ⟨c, hsub List.mem_cons_self, isBlank_of_isDigit (hcore.digits c List.mem_cons_self)⟩
  cases h with
  | single hnum h =>
    obtain ⟨before, after, rfl, -⟩ := h
    exact hcore hnum fun c hc => List.mem_append_left _ (List.mem_append_right _ hc)
  | onwards hnum h =>
    obtain ⟨before, after, rfl, -⟩ := h
    exact hcore hnum fun c hc =>
      List.mem_append_left _ (List.mem_append_right _ (List.mem_append_left _ hc))

theorem infix_intercalate (sep : Char) (h : piece ∈ pieces) :
    piece <:+: [sep].intercalate pieces := by
  induction pieces with
  | nil => cases h
  | cons first pieces ih =>
    cases pieces with
    | nil =>
      obtain rfl := List.mem_singleton.mp h
      simp
    | cons next pieces =>
      rw [List.intercalate_cons_cons]
      rcases List.mem_cons.mp h with rfl | h
      · exact (List.infix_append [] piece [sep]).trans (List.prefix_append _ _).isInfix
      · exact (ih h).trans (List.suffix_append _ _).isInfix

/-! ### Entries -/

/-- The text is a name and parts, with a colon between them and commas between the parts. -/
def IsEntry (text name : String) (parts : List EntryPart) : Prop :=
  ∃ head pieces, text.toList = head ++ ':' :: [','].intercalate pieces ∧ ':' ∉ head ∧
    name ≠ "" ∧ Solid name.toList ∧ Padded name.toList head ∧
    pieces ≠ [] ∧ List.Forall₂ Written pieces parts

/-- An operation of the user before its positions are read. -/
def unread (name : String) : HandOffSpec where
  name := name
  description := "user-defined gives-up operation"

section Entries
variable {text name : String} {parts : List EntryPart}

theorem isEntry_of_readEntry (h : readEntry text = .ok s) : ∃ parts, IsEntry text s.name parts := by
  have hsplit := @List.takeWhile_append_dropWhile _ (fun c => decide (c ≠ ':')) text.toList
  unfold readEntry at h
  split at h
  · cases h
  · rename_i colon positions hdrop
    dsimp only at h
    split at h
    · cases h
    · rename_i hne
      rw [Bool.or_eq_true, not_or] at hne
      obtain ⟨parts, hparts, rfl⟩ := parts_of_readPositions h
      have hcolon : colon = ':' := by
        have := List.head?_dropWhile_not (fun c => decide (c ≠ ':')) text.toList
        rw [hdrop] at this
        simpa using this
      subst hcolon
      refine ⟨parts, text.toList.takeWhile (fun c => decide (c ≠ ':')), splitChars ',' positions,
        ?_, ?_, ?_, ?_, ?_, ?_, hparts⟩
      · rw [splitChars_eq_splitOn, List.intercalate_splitOn, ← hdrop, hsplit]
      · intro hmem
        have := List.mem_takeWhile_imp hmem
        simp at this
      · rw [HandOffSpec.name_foldl_add]
        intro hempty
        apply hne.1
        rw [List.isEmpty_iff, ← String.ofList_eq_empty_iff]
        exact hempty
      · rw [HandOffSpec.name_foldl_add, String.toList_ofList]
        exact solid_stripChars _
      · rw [HandOffSpec.name_foldl_add, String.toList_ofList]
        exact padded_stripChars _
      · rw [splitChars_eq_splitOn]
        exact List.splitOnP_ne_nil _ _

/-- The parts are not all blank, since the first one has a digit. -/
theorem stripChars_written_ne_nil {piece : List Char} {rest : List (List Char)}
    (h : List.Forall₂ Written (piece :: rest) parts) :
    stripChars ([','].intercalate (piece :: rest)) ≠ [] := by
  intro hnil
  obtain ⟨before, after, heq, hbefore, hafter⟩ :=
    padded_stripChars ([','].intercalate (piece :: rest))
  rw [hnil, List.append_nil] at heq
  obtain ⟨part, _, hpart, -⟩ := List.forall₂_cons_left_iff.mp h
  obtain ⟨c, hc, hblank⟩ := exists_digit_mem_written hpart
  have hmem : c ∈ before ++ after :=
    heq ▸ (infix_intercalate ',' List.mem_cons_self).subset hc
  have : isBlank c = true := (List.mem_append.mp hmem).elim (hbefore c) (hafter c)
  rw [hblank] at this
  cases this

theorem splitChars_written {pieces : List (List Char)} (hne : pieces ≠ [])
    (h : List.Forall₂ Written pieces parts) :
    splitChars ',' ([','].intercalate pieces) = pieces := by
  have hboth := h.imp fun l part hl => (⟨not_comma_mem_written hl, hl⟩ :
    ',' ∉ l ∧ Written l part)
  have hcommas : ∀ l ∈ pieces, ',' ∉ l := ((List.forall₂_and_left _ _).mp hboth).1
  rw [splitChars_eq_splitOn, List.splitOn_intercalate ',' hcommas hne]

theorem readEntry_of_isEntry (h : IsEntry text name parts) :
    readEntry text = .ok (parts.foldl HandOffSpec.add (unread name)) ∨
      ∃ digits, maxDecimalDigits < digits ∧ digits ≤ text.length ∧
        readEntry text = .error (.tooLong digits) := by
  obtain ⟨head, pieces, htext, hhead, hname, hsolid, hpadded, hne, hparts⟩ := h
  obtain ⟨piece, rest, rfl⟩ := List.exists_cons_of_ne_nil hne
  have hpass : ∀ c ∈ head, decide (c ≠ ':') = true := by
    intro c hc
    rw [decide_eq_true_eq]
    rintro rfl
    exact hhead hc
  have htake : text.toList.takeWhile (fun c => decide (c ≠ ':')) = head := by
    rw [htext, List.takeWhile_append_of_pos hpass, List.takeWhile_cons_of_neg (by simp),
      List.append_nil]
  have hdrop : text.toList.dropWhile (fun c => decide (c ≠ ':')) =
      ':' :: [','].intercalate (piece :: rest) := by
    rw [htext, List.dropWhile_append_of_pos hpass, List.dropWhile_cons_of_neg (by simp)]
  have hnonempty : name.toList ≠ [] := by
    intro hnil
    exact hname (String.toList_eq_nil_iff.mp hnil)
  have hstrip : stripChars head = name.toList := stripChars_of_padded hsolid hnonempty hpadded
  have hpositions := stripChars_written_ne_nil hparts
  have hpieces := splitChars_written hne hparts
  have hread : readEntry text = readPositions text (piece :: rest) (unread name) := by
    have hempty : (name.toList.isEmpty ||
        (stripChars ([','].intercalate (piece :: rest))).isEmpty) = false := by
      rw [Bool.or_eq_false_iff, List.isEmpty_eq_false_iff, List.isEmpty_eq_false_iff]
      exact ⟨hnonempty, hpositions⟩
    unfold readEntry
    simp only [htake, hdrop, hstrip, hempty, hpieces, String.ofList_toList]
    rfl
  rw [hread]
  refine (readPositions_of_parts hparts).imp_right ?_
  rintro ⟨digits, hlong, ⟨l, hl, hlen⟩, h⟩
  have hpiece : l.length ≤ ([','].intercalate (piece :: rest)).length :=
    (infix_intercalate ',' hl).length_le
  refine ⟨digits, hlong, ?_, h⟩
  rw [← String.length_toList, htext, List.length_append, List.length_cons]
  omega

theorem mem_positions_foldl_add {n : Nat} {i : Int} :
    i ∈ (parts.foldl HandOffSpec.add (unread name)).positions n ↔
      0 ≤ i ∧ i < n ∧ ((∃ k : Nat, single k ∈ parts ∧ i = k) ∨
        ∃ j, lastOpen parts = some j ∧ j ≤ i) := by
  have hargs : (parts.foldl HandOffSpec.add (unread name)).args = parts.filterMap single? := by
    rw [HandOffSpec.args_foldl_add]
    rfl
  have hopen : (parts.foldl HandOffSpec.add (unread name)).varargsFrom = lastOpen parts := by
    rw [HandOffSpec.varargsFrom_foldl_add]
    exact Option.or_none
  rw [HandOffSpec.mem_positions, hargs, hopen, mem_single?]
  constructor
  · rintro (⟨hsingle, hlow, hhigh⟩ | ⟨j, hj, hlow, hhigh⟩)
    · exact ⟨hlow, hhigh, Or.inl hsingle⟩
    · obtain ⟨k, -, rfl⟩ := mem_onwards?.mp (List.mem_of_getLast? hj)
      exact ⟨by omega, hhigh, Or.inr ⟨k, hj, hlow⟩⟩
  · rintro ⟨hlow, hhigh, hsingle | ⟨j, hj, hji⟩⟩
    · exact Or.inl ⟨hsingle, hlow, hhigh⟩
    · exact Or.inr ⟨j, hj, hji, hhigh⟩

end Entries

/-- A text that is not an entry is refused. An entry is read, unless a number in it has more digits
than can be converted; the operation has its name, and gives away the single positions and those
from the last open range on, which is the union of all parts as long as no earlier open range begins
before the last one. -/
theorem readEntry_union (text : String) :
    ((¬ ∃ name parts, IsEntry text name parts) → ∃ e, readEntry text = .error e) ∧
    ∀ name parts, IsEntry text name parts →
      (∃ digits, maxDecimalDigits < digits ∧ digits ≤ text.length ∧
        readEntry text = .error (.tooLong digits)) ∨
      ∃ s, readEntry text = .ok s ∧ s.name = name ∧
        (∀ (n : Nat) (i : Int), i ∈ s.positions n ↔
          0 ≤ i ∧ i < n ∧ ((∃ k : Nat, single k ∈ parts ∧ i = k) ∨
            ∃ j, lastOpen parts = some j ∧ j ≤ i)) ∧
        ((∀ j, lastOpen parts = some j → ∀ k : Nat, onwards k ∈ parts → j ≤ k) →
          ∀ (n : Nat) (i : Int), i ∈ s.positions n ↔
            0 ≤ i ∧ i < n ∧ ∃ part ∈ parts, part.Covers i) := by
  constructor
  · intro hnone
    cases hread : readEntry text with
    | error e => exact ⟨e, rfl⟩
    | ok s =>
      obtain ⟨parts, hparts⟩ := isEntry_of_readEntry hread
      exact absurd ⟨s.name, parts, hparts⟩ hnone
  · intro name parts hentry
    rcases readEntry_of_isEntry hentry with hread | hlong
    · right
      refine ⟨_, hread, HandOffSpec.name_foldl_add parts _, fun n i => mem_positions_foldl_add, ?_⟩
      intro hleast n i
      rw [mem_positions_foldl_add, covered_iff hleast]
    · exact Or.inl hlong

theorem numeral_digit (c : Char) {d : Nat} (h : decimalValue? c = some d) : Numeral [c] d :=
  ⟨List.cons_ne_nil c [], [d], .cons h .nil, by simp⟩

/-- Single positions behind and before the open range, in no order. -/
def mixedParts : List EntryPart := [single 4, single 0, onwards 2]

theorem isEntry_mixed : IsEntry "post: 4,0 , 2+" "post" mixedParts := by
  refine ⟨"post".toList, [" 4".toList, "0 ".toList, " 2+".toList], by decide, by decide, by decide,
    solid_stripChars "post".toList, padded_stripChars "post".toList, by decide,
    .cons ?_ (.cons ?_ (.cons ?_ .nil))⟩
  · exact .single (numeral_digit '4' (by decide)) (padded_stripChars " 4".toList)
  · exact .single (numeral_digit '0' (by decide)) (padded_stripChars "0 ".toList)
  · exact .onwards (numeral_digit '2' (by decide)) (padded_stripChars " 2+".toList)

theorem readEntry_union_mixed :
    ∃ s, readEntry "post: 4,0 , 2+" = .ok s ∧ s.name = "post" ∧
      ∀ (n : Nat) (i : Int), i ∈ s.positions n ↔
        0 ≤ i ∧ i < n ∧ ∃ part ∈ mixedParts, part.Covers i := by
  rcases (readEntry_union "post: 4,0 , 2+").2 "post" mixedParts isEntry_mixed with
    ⟨digits, hlong, hlen, -⟩ | ⟨s, hread, hname, -, hunion⟩
  · have hshort : "post: 4,0 , 2+".length ≤ maxDecimalDigits := by decide
    omega
  · refine ⟨s, hread, hname, hunion ?_⟩
    intro j hj k hk
    obtain rfl : 2 = j := Option.some.inj hj
    obtain rfl : k = 2 := by simpa [mixedParts] using hk
    decide

/-- The second open range takes the place of the first, so that position one is kept. -/
theorem open_range_overwritten :
    IsEntry "spawn:1+,3+" "spawn" [onwards 1, onwards 3] ∧ (onwards 1).Covers 1 ∧
      ∃ s, readEntry "spawn:1+,3+" = .ok s ∧ 1 ∉ s.positions 5 := by
  refine ⟨?_, Int.le_refl 1, _, rfl, by decide⟩
  refine ⟨"spawn".toList, ["1+".toList, "3+".toList], by decide, by decide, by decide,
    solid_stripChars "spawn".toList, padded_stripChars "spawn".toList, by decide,
    .cons ?_ (.cons ?_ .nil)⟩
  · exact .onwards (numeral_digit '1' (by decide)) (padded_stripChars "1+".toList)
  · exact .onwards (numeral_digit '3' (by decide)) (padded_stripChars "3+".toList)

end Catalog

end ActorOwnership
