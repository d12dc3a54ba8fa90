import Mathlib.Data.List.Basic
import ActorOwnership.Files.Path

/-! The text of a path is read as the same path, and the order by components is a linear one. -/

namespace ActorOwnership
set_option autoImplicit false

/-! ### Pieces between separators -/

namespace Catalog
variable {sep : Char} {cs : List Char}

theorem splitChars_ne_nil (sep : Char) (cs : List Char) : splitChars sep cs ≠ [] := by
  cases cs with
  | nil => exact List.cons_ne_nil _ _
  | cons c cs =>
    rw [splitChars]
    split
    · exact List.cons_ne_nil _ _
    · split
      · exact List.cons_ne_nil _ _
      · exact List.cons_ne_nil _ _

theorem splitChars_sep (sep : Char) (cs : List Char) :
    splitChars sep (sep :: cs) = [] :: splitChars sep cs := by
  rw [splitChars]
  split
  · rename_i h
    exact absurd h (splitChars_ne_nil sep cs)
  · rename_i h
    rw [if_pos rfl, h]

theorem splitChars_other {c : Char} (hc : c ≠ sep) {piece : List Char} {pieces : List (List Char)}
    (h : splitChars sep cs = piece :: pieces) :
    splitChars sep (c :: cs) = (c :: piece) :: pieces := by
  rw [splitChars, h]
  exact if_neg hc

theorem splitChars_piece {piece : List Char} (h : sep ∉ piece) :
    splitChars sep piece = [piece] := by
  induction piece with
  | nil => rfl
  | cons c piece ih =>
    have hc : c ≠ sep := fun hc => h (hc ▸ List.mem_cons_self)
    exact splitChars_other hc (ih fun hmem => h (List.mem_cons_of_mem c hmem))

theorem splitChars_append {piece : List Char} (h : sep ∉ piece) (cs : List Char) :
    splitChars sep (piece ++ sep :: cs) = piece :: splitChars sep cs := by
  induction piece with
  | nil => exact splitChars_sep sep cs
  | cons c piece ih =>
    have hc : c ≠ sep := fun hc => h (hc ▸ List.mem_cons_self)
    exact splitChars_other hc (ih fun hmem => h (List.mem_cons_of_mem c hmem))

theorem splitChars_intercalate {pieces : List (List Char)} (hne : pieces ≠ [])
    (h : ∀ piece ∈ pieces, sep ∉ piece) : splitChars sep ([sep].intercalate pieces) = pieces := by
  induction pieces with
  | nil => exact absurd rfl hne
  | cons piece pieces ih =>
    have hpiece := h piece List.mem_cons_self
    cases pieces with
    | nil =>
      rw [List.intercalate_singleton]
      exact splitChars_piece hpiece
    | cons next pieces =>
      rw [List.intercalate_cons_cons, List.append_assoc, List.singleton_append,
        splitChars_append hpiece,
        ih (List.cons_ne_nil _ _) fun q hq => h q (List.mem_cons_of_mem piece hq)]

theorem notMem_of_mem_splitChars {piece : List Char} (h : piece ∈ splitChars sep cs) :
    sep ∉ piece := by
  induction cs generalizing piece with
  | nil =>
    rw [List.mem_singleton.mp h]
    exact List.not_mem_nil
  | cons c cs ih =>
    obtain ⟨first, rest, hsplit⟩ := List.exists_cons_of_ne_nil (splitChars_ne_nil sep cs)
    rw [hsplit] at ih
    by_cases hc : c = sep
    · rw [hc, splitChars_sep, hsplit] at h
      rcases List.mem_cons.mp h with rfl | h
      · exact List.not_mem_nil
      · exact ih h
    · rw [splitChars_other hc hsplit] at h
      rcases List.mem_cons.mp h with rfl | h
      · intro hmem
        rcases List.mem_cons.mp hmem with rfl | hmem
        · exact hc rfl
        · exact ih List.mem_cons_self hmem
      · exact ih (List.mem_cons_of_mem first h)

end Catalog

namespace Path
open Catalog

/-! ### Reading what is written -/

/-- What may stand between slashes. -/
def IsComponent (s : String) : Prop := s ≠ "" ∧ s ≠ "." ∧ '/' ∉ s.toList

instance (s : String) : Decidable (IsComponent s) :=
  inferInstanceAs (Decidable (s ≠ "" ∧ s ≠ "." ∧ '/' ∉ s.toList))

/-- A path as it is read: with none, one or two slashes at its start. -/
structure Proper (p : Path) : Prop where
  anchor : p.anchor = "" ∨ p.anchor = "/" ∨ p.anchor = "//"
  parts : ∀ s ∈ p.parts, IsComponent s

theorem proper_ofText (s : String) : (ofText s).Proper := by
  constructor
  · change anchorOf s.toList = "" ∨ anchorOf s.toList = "/" ∨ anchorOf s.toList = "//"
    unfold anchorOf
    split
    · exact Or.inl rfl
    · exact Or.inr (Or.inr rfl)
    · exact Or.inr (Or.inl rfl)
  · intro part hpart
    obtain ⟨hpiece, hkept⟩ := List.mem_filter.mp hpart
    obtain ⟨piece, hsplit, rfl⟩ := List.mem_map.mp hpiece
    simp only [ne_eq, decide_not, Bool.and_eq_true, Bool.not_eq_true', decide_eq_false_iff_not]
      at hkept
    refine ⟨hkept.1, hkept.2, ?_⟩
    rw [String.toList_ofList]
    exact notMem_of_mem_splitChars hsplit

theorem partsOf_intercalate {parts : List String} (h : ∀ s ∈ parts, IsComponent s) :
    partsOf (['/'].intercalate (parts.map String.toList)) = parts := by
  by_cases hnil : parts = []
  · subst hnil
    rfl
  · have hne : parts.map String.toList ≠ [] := fun he => hnil (List.map_eq_nil_iff.mp he)
    have hslash : ∀ piece ∈ parts.map String.toList, '/' ∉ piece := by
      intro piece hpiece
      obtain ⟨s, hs, rfl⟩ := List.mem_map.mp hpiece
      exact (h s hs).2.2
    have hback : (parts.map String.toList).map String.ofList = parts := by simp
    rw [partsOf, splitChars_intercalate hne hslash, hback]
    apply List.filter_eq_self.mpr
    intro s hs
    simp [(h s hs).1, (h s hs).2.1]

theorem partsOf_slash (cs : List Char) : partsOf ('/' :: cs) = partsOf cs := by
  rw [partsOf, splitChars_sep]
  rfl

/-- A text of components does not start with a slash. -/
theorem takeWhile_slash_intercalate {parts : List String} (h : ∀ s ∈ parts, IsComponent s) :
    (['/'].intercalate (parts.map String.toList)).takeWhile (· == '/') = [] := by
  cases parts with
  | nil => rfl
  | cons s rest =>
    obtain ⟨hne, _, hslash⟩ := h s List.mem_cons_self
    have hne : s.toList ≠ [] := fun hnil => hne (String.toList_inj.mp hnil)
    obtain ⟨c, cs, hs⟩ := List.exists_cons_of_ne_nil hne
    have hc : ¬ (c == '/') = true := by
      intro hc
      exact hslash (hs ▸ eq_of_beq hc ▸ List.mem_cons_self)
    cases rest with
    | nil =>
      rw [List.map_cons, List.map_nil, List.intercalate_singleton, hs]
      exact List.takeWhile_cons_of_neg hc
    | cons r rest =>
      rw [List.map_cons, List.map_cons, List.intercalate_cons_cons, hs]
      exact List.takeWhile_cons_of_neg hc

theorem toList_body (p : Path) : (p.anchor ++ String.intercalate "/" p.parts).toList =
    p.anchor.toList ++ ['/'].intercalate (p.parts.map String.toList) := by
  rw [String.toList_append, String.toList_intercalate]
  rfl

theorem ofText_render {p : Path} (hp : p.Proper) : ofText p.render = p := by
  obtain ⟨anchor, parts⟩ := p
  obtain ⟨hanchor, hparts⟩ := hp
  have htake := takeWhile_slash_intercalate hparts
  have hpartsOf := partsOf_intercalate hparts
  have hbody := toList_body ⟨anchor, parts⟩
  simp only at hanchor hparts htake hpartsOf hbody
  unfold render
  dsimp only
  split
  · rename_i hempty
    -- a path without a text is written as a dot
    rw [hempty] at hbody
    obtain ⟨hanchor', hparts'⟩ := List.append_eq_nil_iff.mp hbody.symm
    rw [hparts'] at hpartsOf
    obtain rfl : anchor = "" := String.toList_inj.mp hanchor'
    subst hpartsOf
    rfl
  · unfold ofText
    rw [hbody]
    -- the slashes of the anchor are all that the text starts with
    rcases hanchor with rfl | rfl | rfl
    · change mk (anchorOf (['/'].intercalate _)) (partsOf (['/'].intercalate _)) = _
      rw [hpartsOf, anchorOf, htake]
      rfl
    · change mk (anchorOf ('/' :: ['/'].intercalate _)) (partsOf ('/' :: ['/'].intercalate _)) = _
      rw [partsOf_slash, hpartsOf, anchorOf, List.takeWhile_cons_of_pos rfl, htake]
      rfl
    · change mk (anchorOf ('/' :: '/' :: ['/'].intercalate _))
        (partsOf ('/' :: '/' :: ['/'].intercalate _)) = _
      rw [partsOf_slash, partsOf_slash, hpartsOf, anchorOf, List.takeWhile_cons_of_pos rfl,
        List.takeWhile_cons_of_pos rfl, htake]
      rfl

/-! ### Longer paths -/

/-- The path that goes on with more components. -/
def below (p : Path) (names : List String) : Path := { p with parts := p.parts ++ names }

@[simp] theorem below_nil (p : Path) : p.below [] = p := by
  simp [below]

@[simp] theorem below_below (p : Path) (xs ys : List String) :
    (p.below xs).below ys = p.below (xs ++ ys) := by
  simp [below]

theorem child_eq (p : Path) (name : String) : p.child name = p.below [name] := rfl

theorem child_below (p : Path) (name : String) (names : List String) :
    (p.child name).below names = p.below (name :: names) :=
  below_below p [name] names

theorem below_inj {p : Path} {xs ys : List String} : p.below xs = p.below ys ↔ xs = ys := by
  simp [below]

/-! ### The order -/

theorem le_trans {p q r : Path} (hpq : p.le q = true) (hqr : q.le r = true) : p.le r = true := by
  rw [le, Bool.not_eq_true', List.lex_eq_false_iff_ge] at *
  exact List.le_trans hpq hqr

theorem le_total (p q : Path) : (p.le q || q.le p) = true := by
  rw [Bool.or_eq_true, le, le, Bool.not_eq_true', Bool.not_eq_true', List.lex_eq_false_iff_ge,
    List.lex_eq_false_iff_ge]
  exact List.le_total p.parts q.parts

end Path

end ActorOwnership
