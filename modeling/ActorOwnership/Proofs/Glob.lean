import Mathlib.Data.List.Nodup
import ActorOwnership.Files.Glob
import ActorOwnership.Proofs.FilePath
import ActorOwnership.Proofs.Growth

/-! A pattern selects in a directory every file whose path from there on fits the components of the
pattern, and selects it once. -/

namespace ActorOwnership
set_option autoImplicit false

/-! ### Names -/

namespace PatternItem

/-- A text fits a pattern: a star stands for any text, every other element for one character. -/
inductive Fits : List PatternItem → List Char → Prop where
  | nil : Fits [] []
  | text {items : List PatternItem} {cs : List Char} (xs : List Char) :
      Fits items cs → Fits (.anyText :: items) (xs ++ cs)
  | one {item : PatternItem} {items : List PatternItem} {c : Char} {cs : List Char} :
      item ≠ .anyText → item.accepts c = true → Fits items cs → Fits (item :: items) (c :: cs)

theorem somewhere_iff {rest : List Char → Bool} {cs : List Char} :
    somewhere rest cs = true ↔ ∃ xs ys, cs = xs ++ ys ∧ rest ys = true := by
  induction cs with
  | nil =>
    constructor
    · exact fun h => ⟨[], [], rfl, h⟩
    · rintro ⟨xs, ys, heq, h⟩
      obtain ⟨rfl, rfl⟩ := List.append_eq_nil_iff.mp heq.symm
      exact h
  | cons c cs ih =>
    rw [somewhere, Bool.or_eq_true, ih]
    constructor
    · rintro (h | ⟨xs, ys, rfl, h⟩)
      · exact ⟨[], c :: cs, rfl, h⟩
      · exact ⟨c :: xs, ys, rfl, h⟩
    · rintro ⟨xs, ys, heq, h⟩
      cases xs with
      | nil =>
        left
        rwa [heq]
      | cons x xs =>
        right
        exact ⟨xs, ys, (List.cons.inj heq).2, h⟩

theorem matchAll_cons {item : PatternItem} (h : item ≠ .anyText) (items : List PatternItem)
    (c : Char) (cs : List Char) :
    matchAll (item :: items) (c :: cs) = (item.accepts c && matchAll items cs) := by
  cases item with
  | anyText => exact absurd rfl h
  | anyChar => rfl
  | char d => rfl
  | choice negated ranges => rfl

theorem not_matchAll_nil {item : PatternItem} (h : item ≠ .anyText) (items : List PatternItem) :
    matchAll (item :: items) [] = false := by
  cases item with
  | anyText => exact absurd rfl h
  | anyChar => rfl
  | char d => rfl
  | choice negated ranges => rfl

theorem matchAll_iff {items : List PatternItem} {cs : List Char} :
    matchAll items cs = true ↔ Fits items cs := by
  induction items generalizing cs with
  | nil =>
    rw [matchAll, List.isEmpty_iff]
    constructor
    · rintro rfl
      exact .nil
    · intro h
      cases h
      rfl
  | cons item items ih =>
    by_cases hitem : item = .anyText
    · subst hitem
      rw [matchAll, somewhere_iff]
      constructor
      · rintro ⟨xs, ys, rfl, h⟩
        exact .text xs (ih.mp h)
      · intro h
        cases h with
        | text xs h => exact ⟨xs, _, rfl, ih.mpr h⟩
        | one hne => exact absurd rfl hne
    · constructor
      · intro h
        cases cs with
        | nil => rw [not_matchAll_nil hitem] at h; cases h
        | cons c cs =>
          rw [matchAll_cons hitem, Bool.and_eq_true] at h
          exact .one hitem h.1 (ih.mp h.2)
      · intro h
        cases h with
        | text => exact absurd rfl hitem
        | one _ haccepts h => rw [matchAll_cons hitem, haccepts, ih.mpr h]; rfl

end PatternItem

/-! ### Places in a tree -/

namespace FileTree

/-- Entries have names of their own, and these are names. -/
inductive WellFormed : FileTree → Prop where
  | file (octets : List UInt8) : WellFormed (.file octets)
  | directory {es : List (String × FileTree)} : (es.map Prod.fst).Nodup →
      (∀ e ∈ es, Path.IsComponent e.1 ∧ e.1 ≠ "..") → (∀ e ∈ es, WellFormed e.2) →
        WellFormed (.directory es)

theorem WellFormed.nodup_entries {t : FileTree} (h : t.WellFormed) :
    (t.entries.map Prod.fst).Nodup := by
  cases h with
  | file => exact List.nodup_nil
  | directory hnodup => exact hnodup

theorem WellFormed.lookup_iff {es : List (String × FileTree)} (h : WellFormed (.directory es))
    {name : String} {t : FileTree} : es.lookup name = some t ↔ (name, t) ∈ es := by
  constructor
  · intro hl
    obtain ⟨l₁, l₂, rfl, _⟩ := List.lookup_eq_some_iff.mp hl
    simp
  · intro hmem
    apply lookup_eq_some hmem
    intro x hx hname
    exact congrArg Prod.snd (List.inj_on_of_nodup_map h.nodup_entries hx hmem hname)

theorem WellFormed.entry {es : List (String × FileTree)} (h : WellFormed (.directory es))
    {e : String × FileTree} (he : e ∈ es) :
    Path.IsComponent e.1 ∧ e.1 ≠ ".." ∧ e.2.WellFormed := by
  cases h with
  | directory _ hnames hbelow => exact ⟨(hnames e he).1, (hnames e he).2, hbelow e he⟩

/-- A tree, and the directories above it that two dots lead back to. -/
structure Cursor where
  tree : FileTree
  above : List FileTree

namespace Cursor
variable {x y : Cursor} {part : String} {parts : List String}

def step (x : Cursor) (part : String) : Option Cursor :=
  match x.tree with
  | .file _ => none
  | .directory es =>
    if part = ".." then
      match x.above with
      | [] => none
      | up :: above => some ⟨up, above⟩
    else (es.lookup part).map fun e => ⟨e, x.tree :: x.above⟩

def go (x : Cursor) (parts : List String) : Option Cursor := parts.foldlM step x

theorem go_append (x : Cursor) (ps qs : List String) :
    x.go (ps ++ qs) = (x.go ps).bind fun y => y.go qs :=
  List.foldlM_append

theorem go_cons (x : Cursor) (part : String) (parts : List String) :
    x.go (part :: parts) = (x.step part).bind fun y => y.go parts :=
  List.foldlM_cons

theorem isDirectory_of_step (h : x.step part = some y) : x.tree.isDirectory = true := by
  unfold step at h
  split at h
  · cases h
  · rename_i hx
    rw [hx]
    rfl

theorem isDirectory_of_go (h : x.go parts = some y) (hne : parts ≠ []) :
    x.tree.isDirectory = true := by
  cases parts with
  | nil => exact absurd rfl hne
  | cons part parts =>
    rw [go_cons] at h
    obtain ⟨z, hz, _⟩ := Option.bind_eq_some_iff.mp h
    exact isDirectory_of_step hz

theorem step_name {es : List (String × FileTree)} {above : List FileTree} (hpart : part ≠ "..") :
    step ⟨.directory es, above⟩ part =
      (es.lookup part).map fun e => ⟨e, .directory es :: above⟩ := by
  simp only [step, if_neg hpart]

/-- The tree is well formed, and so are the directories above it. -/
def WellFormed (x : Cursor) : Prop := x.tree.WellFormed ∧ ∀ t ∈ x.above, t.WellFormed

theorem WellFormed.step (hx : x.WellFormed) (h : x.step part = some y) :
    Path.IsComponent part ∧ y.WellFormed := by
  obtain ⟨t, above⟩ := x
  obtain ⟨ht, habove⟩ := hx
  cases t with
  | file octets => cases h
  | directory es =>
    by_cases hpart : part = ".."
    · subst hpart
      cases above with
      | nil => cases h
      | cons up above =>
        cases h
        refine ⟨⟨by decide, by decide, by decide⟩, habove up List.mem_cons_self, ?_⟩
        exact fun t ht => habove t (List.mem_cons_of_mem up ht)
    · rw [step_name hpart] at h
      obtain ⟨e, he, rfl⟩ := Option.map_eq_some_iff.mp h
      obtain ⟨hname, _, hwf⟩ := ht.entry (ht.lookup_iff.mp he)
      refine ⟨hname, hwf, ?_⟩
      intro t' ht'
      rcases List.mem_cons.mp ht' with rfl | ht'
      · exact ht
      · exact habove t' ht'

theorem WellFormed.go (hx : x.WellFormed) (h : x.go parts = some y) :
    (∀ part ∈ parts, Path.IsComponent part) ∧ y.WellFormed := by
  induction parts generalizing x with
  | nil =>
    cases h
    exact ⟨by simp, hx⟩
  | cons part parts ih =>
    rw [go_cons] at h
    obtain ⟨z, hz, h⟩ := Option.bind_eq_some_iff.mp h
    obtain ⟨hpart, hzwf⟩ := hx.step hz
    obtain ⟨hparts, hy⟩ := ih hzwf h
    exact ⟨List.forall_mem_cons.mpr ⟨hpart, hparts⟩, hy⟩

end Cursor

theorem follow_eq_tree_iff {t e : FileTree} {above : List FileTree} {parts : List String} :
    follow t above parts = .tree e ↔ ∃ x, Cursor.go ⟨t, above⟩ parts = some x ∧ x.tree = e := by
  induction parts generalizing t above with
  | nil => simp [follow, Cursor.go]
  | cons part parts ih =>
    rw [Cursor.go_cons]
    cases t with
    | file octets => simp [follow, Cursor.step]
    | directory es =>
      by_cases hpart : part = ".."
      · subst hpart
        cases above with
        | nil => simp [follow, Cursor.step]
        | cons up above => simp [follow, Cursor.step, ih]
      · rw [Cursor.step_name hpart]
        cases hl : es.lookup part with
        | none => simp [follow, hpart, hl]
        | some t => simp [follow, hpart, hl, ih]

end FileTree

namespace Files
open FileTree (Cursor)

def WellFormed (fs : Files) : Prop := fs.here.WellFormed ∧ fs.top.WellFormed

def cursor? (fs : Files) (p : Path) : Option Cursor :=
  Cursor.go ⟨if p.anchor = "" then fs.here else fs.top, []⟩ p.parts

variable {fs : Files} {p q : Path}

theorem find?_eq (fs : Files) (p : Path) : fs.find? p = (fs.cursor? p).map Cursor.tree := by
  apply Option.ext
  intro e
  rw [Option.map_eq_some_iff, cursor?, ← FileTree.follow_eq_tree_iff, find?, find]
  generalize FileTree.follow _ [] p.parts = found
  cases found <;> simp

theorem cursor?_below (fs : Files) (p : Path) (names : List String) :
    fs.cursor? (p.below names) = (fs.cursor? p).bind fun x => x.go names :=
  Cursor.go_append _ p.parts names

theorem hasDirectory_iff :
    fs.hasDirectory p = true ↔ ∃ es above, fs.cursor? p = some ⟨.directory es, above⟩ := by
  rw [hasDirectory, find?_eq]
  cases fs.cursor? p with
  | none => simp
  | some x =>
    obtain ⟨t, above⟩ := x
    cases t with
    | file octets => simp [FileTree.isDirectory]
    | directory es => simp [FileTree.isDirectory]

theorem hasDirectory_of_cursor? {x : Cursor} (h : fs.cursor? p = some x)
    (hdir : x.tree.isDirectory = true) : fs.hasDirectory p = true := by
  rw [hasDirectory, find?_eq, h]
  exact hdir

theorem hasFile_iff :
    fs.hasFile p = true ↔ ∃ octets above, fs.cursor? p = some ⟨.file octets, above⟩ := by
  rw [hasFile, find?_eq]
  cases fs.cursor? p with
  | none => simp
  | some x =>
    obtain ⟨t, above⟩ := x
    cases t with
    | file octets => simp [FileTree.isFile, FileTree.isDirectory]
    | directory es => simp [FileTree.isFile, FileTree.isDirectory]

theorem not_hasFile_of_hasDirectory (h : fs.hasDirectory p = true) : fs.hasFile p ≠ true := by
  intro hfile
  obtain ⟨es, above, hdir⟩ := hasDirectory_iff.mp h
  obtain ⟨octets, above', hfile⟩ := hasFile_iff.mp hfile
  rw [hdir] at hfile
  cases hfile

theorem WellFormed.cursor? (hfs : fs.WellFormed) {x : Cursor} (h : fs.cursor? p = some x) :
    (∀ part ∈ p.parts, Path.IsComponent part) ∧ x.WellFormed := by
  refine Cursor.WellFormed.go ⟨?_, by simp⟩ h
  dsimp only
  split
  · exact hfs.1
  · exact hfs.2

theorem exists_cursor?_of_below {names : List String} (h : fs.hasFile (p.below names) = true) :
    ∃ x y, fs.cursor? p = some x ∧ x.go names = some y := by
  obtain ⟨octets, above, h⟩ := hasFile_iff.mp h
  rw [cursor?_below] at h
  obtain ⟨x, hx, hgo⟩ := Option.bind_eq_some_iff.mp h
  exact ⟨x, _, hx, hgo⟩

theorem hasDirectory_of_below {xs ys : List String} (h : fs.hasFile (p.below (xs ++ ys)) = true)
    (hne : ys ≠ []) : fs.hasDirectory (p.below xs) = true := by
  rw [← Path.below_below] at h
  obtain ⟨x, y, hx, hgo⟩ := exists_cursor?_of_below h
  exact hasDirectory_of_cursor? hx (Cursor.isDirectory_of_go hgo hne)

theorem isSome_cursor?_of_below {names : List String} (h : fs.hasFile (p.below names) = true) :
    (fs.cursor? p).isSome = true := by
  obtain ⟨x, y, hx, _⟩ := exists_cursor?_of_below h
  simp [hx]

section Entries
variable {es : List (String × FileTree)} {above : List FileTree}
  (hwf : FileTree.WellFormed (.directory es)) (hp : fs.cursor? p = some ⟨.directory es, above⟩)

include hwf hp

theorem cursor?_child {e : String × FileTree} (he : e ∈ es) :
    fs.cursor? (p.child e.1) = some ⟨e.2, .directory es :: above⟩ := by
  rw [Path.child_eq, cursor?_below, hp, Option.bind_some, Cursor.go_cons,
    Cursor.step_name (hwf.entry he).2.1, hwf.lookup_iff.mpr he]
  rfl

theorem exists_entry {s : String} (hs : s ≠ "..") {names : List String}
    (h : fs.hasFile ((p.child s).below names) = true) : ∃ t, (s, t) ∈ es := by
  obtain ⟨x, y, hx, _⟩ := exists_cursor?_of_below h
  rw [Path.child_eq, cursor?_below, hp, Option.bind_some, Cursor.go_cons,
    Cursor.step_name hs] at hx
  obtain ⟨z, hz, _⟩ := Option.bind_eq_some_iff.mp hx
  obtain ⟨t, ht, _⟩ := Option.map_eq_some_iff.mp hz
  exact ⟨t, hwf.lookup_iff.mp ht⟩

end Entries

end Files

/-! ### Selection -/

namespace Glob
open FileTree (Cursor)

/-- Names fit components. Two stars stand for directories below, so something must follow them; two
dots are no name that a pattern stands for. -/
inductive Fits : List GlobPart → List String → Prop where
  | nil : Fits [] []
  | name {parts : List GlobPart} {names : List String} (s : String) :
      Fits parts names → Fits (.name s :: parts) (s :: names)
  | wild {items : List PatternItem} {parts : List GlobPart} {s : String} {names : List String} :
      PatternItem.Fits items s.toList → s ≠ ".." → Fits parts names →
        Fits (.wild items :: parts) (s :: names)
  | anyDepth {parts : List GlobPart} {names : List String} (directories : List String) :
      ".." ∉ directories → parts ≠ [] → Fits parts names →
        Fits (.anyDepth :: parts) (directories ++ names)

theorem Fits.ne_nil {parts : List GlobPart} {names : List String} (h : Fits parts names)
    (hne : parts ≠ []) : names ≠ [] := by
  induction h with
  | nil => exact absurd rfl hne
  | name => exact List.cons_ne_nil _ _
  | wild => exact List.cons_ne_nil _ _
  | anyDepth _ _ hparts _ ih => exact List.append_ne_nil_of_right_ne_nil _ (ih hparts)

theorem mem_directoriesAmong {es : List (String × FileTree)} {names : List String} :
    names ∈ directoriesAmong es ↔ ∃ e ∈ es, ∃ ns ∈ directories e.2, names = e.1 :: ns := by
  induction es with
  | nil => simp [directoriesAmong]
  | cons e es ih =>
    obtain ⟨name, t⟩ := e
    rw [directoriesAmong, List.mem_append, ih, List.mem_map]
    simp [eq_comm]

theorem mem_directories_iff {t : FileTree} (ht : t.WellFormed) (above : List FileTree)
    {names : List String} :
    names ∈ directories t ↔ ".." ∉ names ∧
      ∃ es above', Cursor.go ⟨t, above⟩ names = some ⟨.directory es, above'⟩ := by
  induction names generalizing t above with
  | nil =>
    cases t with
    | file octets => simp [directories, Cursor.go]
    | directory es => simp [directories, Cursor.go]
  | cons name names ih =>
    rw [Cursor.go_cons]
    cases t with
    | file octets => simp [directories, Cursor.step]
    | directory es =>
      rw [directories, List.mem_cons, mem_directoriesAmong]
      constructor
      · rintro (h | ⟨e, he, ns, hns, heq⟩)
        · cases h
        · obtain ⟨rfl, rfl⟩ := List.cons.inj heq
          obtain ⟨_, hup, hwf⟩ := ht.entry he
          obtain ⟨hups, es', above', hgo⟩ := (ih hwf (.directory es :: above)).mp hns
          refine ⟨by simp [hups, Ne.symm hup], es', above', ?_⟩
          rw [Cursor.step_name hup, ht.lookup_iff.mpr he]
          exact hgo
      · rintro ⟨hups, es', above', hgo⟩
        right
        have hup : name ≠ ".." := fun h => hups (h ▸ List.mem_cons_self)
        rw [Cursor.step_name hup] at hgo
        obtain ⟨y, hy, hgo⟩ := Option.bind_eq_some_iff.mp hgo
        obtain ⟨e, he, rfl⟩ := Option.map_eq_some_iff.mp hy
        have he := ht.lookup_iff.mp he
        refine ⟨(name, e), he, names, ?_, rfl⟩
        exact (ih (ht.entry he).2.2 _).mpr
          ⟨fun h => hups (List.mem_cons_of_mem name h), es', above', hgo⟩

section
variable {fs : Files} {strict : Bool} {parts : List GlobPart} {p q : Path}

/-- Selection may go on at a path: it leads to a directory, or nothing more is asked of it. -/
def Admits (fs : Files) (strict : Bool) (parts : List GlobPart) (p : Path) : Prop :=
  fs.hasDirectory p = true ∨ parts = [] ∧ strict = false

theorem admits_of_fits {names : List String} (hq : fs.hasFile (p.below names) = true)
    (h : Fits parts names) (hstrict : strict = false) : Admits fs strict parts p := by
  by_cases hparts : parts = []
  · exact Or.inr ⟨hparts, hstrict⟩
  · left
    have hdir := Files.hasDirectory_of_below ((List.nil_append names).symm ▸ hq) (h.ne_nil hparts)
    rwa [Path.below_nil] at hdir

theorem mem_select_name {s : String} : q ∈ select fs strict (.name s :: parts) p ↔
    (fs.cursor? (p.child s)).isSome = true ∧ Admits fs strict parts (p.child s) ∧
      q ∈ select fs strict parts (p.child s) := by
  have hsome : fs.hasDirectory (p.child s) = true → (fs.cursor? (p.child s)).isSome = true := by
    intro h
    obtain ⟨es, above, h⟩ := Files.hasDirectory_iff.mp h
    simp [h]
  simp only [select, Admits, Files.find?_eq, Option.isSome_map]
  by_cases hlast : parts = [] ∧ strict = false
  · simp [hlast.1, hlast.2]
  · have hmore : (parts.isEmpty && !strict) = false := by simpa using hlast
    simp only [hmore, Bool.false_eq_true, if_false, hlast, or_false]
    by_cases hdir : fs.hasDirectory (p.child s) = true
    · simp [hdir, hsome hdir]
    · simp [hdir]

theorem mem_select_wild {items : List PatternItem} {es : List (String × FileTree)}
    {above : List FileTree} (hp : fs.cursor? p = some ⟨.directory es, above⟩) :
    q ∈ select fs strict (.wild items :: parts) p ↔ ∃ e ∈ es, PatternItem.Fits items e.1.toList ∧
      (parts = [] ∧ strict = false ∨ e.2.isDirectory = true) ∧
        q ∈ select fs strict parts (p.child e.1) := by
  simp [select, Files.find?_eq, hp, FileTree.entries, PatternItem.matchAll_iff, and_assoc]

theorem mem_select_anyDepth {t : FileTree} {above : List FileTree}
    (hp : fs.cursor? p = some ⟨t, above⟩) : q ∈ select fs strict (.anyDepth :: parts) p ↔
      ∃ ds ∈ directories t, q ∈ select fs strict parts (p.below ds) := by
  simp [select, Files.find?_eq, hp, Path.below]

theorem exists_below_of_mem_select (h : q ∈ select fs strict parts p) :
    ∃ names, q = p.below names := by
  induction parts generalizing p with
  | nil =>
    rw [select, List.mem_singleton] at h
    exact ⟨[], by rw [h, Path.below_nil]⟩
  | cons part parts ih =>
    cases part with
    | name s =>
      obtain ⟨_, _, h⟩ := mem_select_name.mp h
      obtain ⟨names, rfl⟩ := ih h
      exact ⟨s :: names, Path.child_below p s names⟩
    | wild items =>
      obtain ⟨e, _, h⟩ := List.mem_flatMap.mp h
      obtain ⟨names, rfl⟩ := ih h
      exact ⟨e.1 :: names, Path.child_below p e.1 names⟩
    | anyDepth =>
      obtain ⟨ds, _, h⟩ := List.mem_flatMap.mp (mem_distinct.mp h)
      obtain ⟨names, rfl⟩ := ih h
      exact ⟨ds ++ names, Path.below_below p ds names⟩

theorem mem_select_iff (hfs : fs.WellFormed) (hp : Admits fs strict parts p)
    (hq : fs.hasFile q = true) : q ∈ select fs strict parts p ↔
      strict = false ∧ ∃ names, q = p.below names ∧ Fits parts names := by
  induction parts generalizing p with
  | nil =>
    rw [select, List.mem_singleton]
    constructor
    · rintro rfl
      rcases hp with hdir | ⟨_, hstrict⟩
      · exact absurd hq (Files.not_hasFile_of_hasDirectory hdir)
      · exact ⟨hstrict, [], (Path.below_nil q).symm, .nil⟩
    · rintro ⟨_, names, rfl, hfits⟩
      cases hfits
      exact Path.below_nil p
  | cons part parts ih =>
    obtain hdir | ⟨hnil, _⟩ := hp
    case inr => cases hnil
    obtain ⟨es, above, hcursor⟩ := Files.hasDirectory_iff.mp hdir
    have hwf := (hfs.cursor? hcursor).2.1
    cases part with
    | name s =>
      rw [mem_select_name]
      constructor
      · rintro ⟨_, hadmits, h⟩
        obtain ⟨hstrict, names, rfl, hfits⟩ := (ih hadmits).mp h
        exact ⟨hstrict, s :: names, by simp [Path.child_eq], .name s hfits⟩
      · rintro ⟨hstrict, _, rfl, hfits⟩
        cases hfits with
        | @name _ names _ hfits =>
          have heq := (Path.child_below p s names).symm
          have hadmits := admits_of_fits (heq ▸ hq) hfits hstrict
          exact ⟨Files.isSome_cursor?_of_below (heq ▸ hq), hadmits,
            (ih hadmits).mpr ⟨hstrict, names, heq, hfits⟩⟩
    | wild items =>
      rw [mem_select_wild hcursor]
      constructor
      · rintro ⟨e, he, hitems, hlast, h⟩
        have hchild := Files.cursor?_child hwf hcursor he
        have hadmits : Admits fs strict parts (p.child e.1) := by
          rcases hlast with hlast | hdir
          · exact Or.inr hlast
          · exact Or.inl (Files.hasDirectory_of_cursor? hchild hdir)
        obtain ⟨hstrict, names, rfl, hfits⟩ := (ih hadmits).mp h
        exact ⟨hstrict, e.1 :: names, Path.child_below p e.1 names,
          .wild hitems (hwf.entry he).2.1 hfits⟩
      · rintro ⟨hstrict, _, rfl, hfits⟩
        cases hfits with
        | @wild _ _ s names hitems hup hfits =>
          have heq := (Path.child_below p s names).symm
          have hadmits := admits_of_fits (heq ▸ hq) hfits hstrict
          -- a path to a file goes through an entry at every name
          obtain ⟨t, he⟩ := Files.exists_entry hwf hcursor hup (heq ▸ hq)
          refine ⟨(s, t), he, hitems, ?_, (ih hadmits).mpr ⟨hstrict, names, heq, hfits⟩⟩
          rcases hadmits with hdir | hlast
          · right
            obtain ⟨es', above', hdir⟩ := Files.hasDirectory_iff.mp hdir
            rw [Files.cursor?_child hwf hcursor he] at hdir
            cases hdir
            rfl
          · exact Or.inl hlast
    | anyDepth =>
      rw [mem_select_anyDepth hcursor]
      constructor
      · rintro ⟨ds, hds, h⟩
        obtain ⟨hups, es', above', hgo⟩ := (mem_directories_iff hwf above).mp hds
        have hdir : fs.hasDirectory (p.below ds) = true := by
          rw [Files.hasDirectory_iff, Files.cursor?_below, hcursor]
          exact ⟨es', above', hgo⟩
        obtain ⟨hstrict, names, rfl, hfits⟩ := (ih (Or.inl hdir)).mp h
        refine ⟨hstrict, ds ++ names, Path.below_below p ds names, .anyDepth ds hups ?_ hfits⟩
        -- with nothing after the stars only directories are selected
        rintro rfl
        cases hfits
        rw [Path.below_nil] at hq
        exact Files.not_hasFile_of_hasDirectory hdir hq
      · rintro ⟨hstrict, _, rfl, hfits⟩
        cases hfits with
        | @anyDepth _ names ds hups hne hfits =>
          have hdir := Files.hasDirectory_of_below hq (hfits.ne_nil hne)
          have heq := (Path.below_below p ds names).symm
          refine ⟨ds, ?_, (ih (Or.inl hdir)).mpr ⟨hstrict, names, heq, hfits⟩⟩
          obtain ⟨es', above', hdir⟩ := Files.hasDirectory_iff.mp hdir
          rw [Files.cursor?_below, hcursor] at hdir
          exact (mem_directories_iff hwf above).mpr ⟨hups, es', above', hdir⟩

theorem nodup_select (hfs : fs.WellFormed) (strict : Bool) (parts : List GlobPart) (p : Path) :
    (select fs strict parts p).Nodup := by
  induction parts generalizing p with
  | nil => exact List.nodup_singleton p
  | cons part parts ih =>
    cases part with
    | name s =>
      simp only [select]
      split_ifs
      · exact ih _
      · exact List.nodup_nil
      · exact ih _
      · exact List.nodup_nil
    | wild items =>
      simp only [select]
      have hnames : ((((fs.find? p).map FileTree.entries).getD []).map Prod.fst).Nodup := by
        rw [Files.find?_eq]
        cases hx : fs.cursor? p with
        | none => exact List.nodup_nil
        | some x => exact (hfs.cursor? hx).2.1.nodup_entries
      refine List.nodup_flatMap.mpr ⟨fun e _ => ih _, ?_⟩
      apply List.Pairwise.filter
      refine (List.pairwise_map.mp hnames).imp ?_
      -- what is selected below two entries differs in the names of the entries
      intro e e' hne q hq hq'
      obtain ⟨xs, rfl⟩ := exists_below_of_mem_select hq
      obtain ⟨ys, heq⟩ := exists_below_of_mem_select hq'
      rw [Path.child_below, Path.child_below, Path.below_inj] at heq
      exact hne (List.cons.inj heq).1
    | anyDepth => exact nodup_distinct _

/-- A file at the path fits the pattern, seen from a directory. -/
def Matches (g : Glob) (dir q : Path) : Prop :=
  g.directoriesOnly = false ∧ ∃ names, q = dir.below names ∧ Fits g.parts names

theorem mem_paths_iff (hfs : fs.WellFormed) {g : Glob} (hg : g.parts ≠ [])
    (hq : fs.hasFile q = true) : q ∈ g.paths fs p ↔ g.Matches p q := by
  unfold paths
  split
  · rename_i hdir
    exact mem_select_iff hfs (Or.inl hdir) hq
  · rename_i hdir
    constructor
    · intro h
      cases h
    · rintro ⟨hstrict, names, rfl, hfits⟩
      rcases admits_of_fits hq hfits hstrict with h | h
      · exact absurd h hdir
      · exact absurd h.1 hg

theorem nodup_paths (hfs : fs.WellFormed) (g : Glob) (p : Path) : (g.paths fs p).Nodup := by
  unfold paths
  split
  · exact nodup_select hfs _ _ p
  · exact List.nodup_nil

theorem proper_of_mem_paths (hfs : fs.WellFormed) {g : Glob} (hp : p.Proper)
    (h : q ∈ g.paths fs p) (hq : fs.hasFile q = true) : q.Proper := by
  obtain ⟨octets, above, hcursor⟩ := Files.hasFile_iff.mp hq
  refine ⟨?_, (hfs.cursor? hcursor).1⟩
  unfold paths at h
  split at h
  · obtain ⟨names, rfl⟩ := exists_below_of_mem_select h
    exact hp.anchor
  · cases h

end

theorem parts_ne_nil {s : String} {g : Glob} (h : ofText s = .ok g) : g.parts ≠ [] := by
  unfold ofText at h
  dsimp only at h
  split_ifs at h with hempty hanchor hparts
  cases hp : (Path.ofText s).parts with
  | nil => exact absurd (by rw [hp]; rfl) hparts
  | cons part parts =>
    rw [hp, List.mapM_cons] at h
    cases hpart : partOf part with
    | error e => simp [hpart, Except.map, bind, Except.bind] at h
    | ok first =>
      cases hrest : parts.mapM partOf with
      | error e => simp [hpart, hrest, Except.map, bind, Except.bind] at h
      | ok rest =>
        simp only [hpart, hrest, Except.map, bind, Except.bind, pure, Except.pure,
          Except.ok.injEq] at h
        subst h
        exact List.cons_ne_nil first rest

end Glob

end ActorOwnership
