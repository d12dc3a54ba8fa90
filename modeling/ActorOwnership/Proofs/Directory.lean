import Mathlib.Data.List.Forall2
import ActorOwnership.Proofs.Glob
import ActorOwnership.Scan.Directory

/-! A scan of a directory gives one result for each file that matches, in the order of the paths,
and each as if its file were the only one. It gives no result at all if one of these files cannot be
decoded. -/

namespace ActorOwnership
set_option autoImplicit false

namespace Files
variable {fs fs' : Files} {p : Path}

/-- The fault in the file at a path that keeps it from being decoded. -/
def fault? (fs : Files) (p : Path) : Option Text.Utf8.Fault :=
  match fs.find? p with
  | some (.file octets) =>
    match Text.Utf8.decode octets with
    | .ok _ => none
    | .error f => some f
  | _ => none

theorem find_of_find? {t : FileTree} (h : fs.find? p = some t) : fs.find p = .tree t := by
  unfold find? at h
  split at h
  · rename_i e he
    rw [he, Option.some.inj h]
  · cases h

theorem exists_find?_of_hasFile (h : fs.hasFile p = true) :
    ∃ octets, fs.find? p = some (.file octets) := by
  obtain ⟨octets, above, h⟩ := hasFile_iff.mp h
  exact ⟨octets, by rw [find?_eq, h]; rfl⟩

theorem readText_of_fault {f : Text.Utf8.Fault} (hp : fs.hasFile p = true)
    (h : fs.fault? p = some f) : fs.readText p = .error (.undecodable f) := by
  obtain ⟨octets, hfind⟩ := exists_find?_of_hasFile hp
  cases hdecode : Text.Utf8.decode octets with
  | ok text => simp only [fault?, hfind, hdecode, reduceCtorEq] at h
  | error f' =>
    simp only [fault?, hfind, hdecode, Option.some.injEq] at h
    simp only [readText, find_of_find? hfind, hdecode, h]

theorem exists_readText (hp : fs.hasFile p = true) (h : fs.fault? p = none) :
    ∃ text, fs.readText p = .ok text := by
  obtain ⟨octets, hfind⟩ := exists_find?_of_hasFile hp
  cases hdecode : Text.Utf8.decode octets with
  | ok text => simp [readText, find_of_find? hfind, hdecode]
  | error f => simp only [fault?, hfind, hdecode, reduceCtorEq] at h

theorem readText_congr (hp : fs.hasFile p = true) (h : fs'.find? p = fs.find? p) :
    fs'.readText p = fs.readText p := by
  obtain ⟨octets, hfind⟩ := exists_find?_of_hasFile hp
  rw [readText, readText, find_of_find? hfind, find_of_find? (h.trans hfind)]

end Files

/-! ### What a module leaves behind -/

namespace Lowering
variable {s t : State}

/-- The states agree in what the lowering of a module reads of them. -/
structure State.Agrees (s t : State) : Prop where
  temps : s.temps = t.temps
  program : s.program = t.program

theorem agrees_lowerFunction (catalog : Catalog) (owner : Option String) (f : Surface.Function)
    (h : s.Agrees t) :
    (lowerFunction catalog owner f s).Agrees (lowerFunction catalog owner f t) := by
  obtain ⟨name, params, loc, isStatic, body⟩ := f
  -- the graph of a function is begun anew
  have hopen : openFunction name owner params loc isStatic s =
      openFunction name owner params loc isStatic t := by
    simp only [openFunction, h.temps, h.program]
  rw [lowerFunction, lowerFunction, hopen]
  exact ⟨rfl, rfl⟩

theorem agrees_lowerTopLevel (catalog : Catalog) (x : Surface.TopLevel) (h : s.Agrees t) :
    (lowerTopLevel catalog s x).Agrees (lowerTopLevel catalog t x) := by
  cases x with
  | function f => exact agrees_lowerFunction catalog none f h
  | class_ name methods =>
    apply List.foldl_rel h
    intro f _ s t h
    exact agrees_lowerFunction catalog (some name) f h

/-- Whatever was lowered before, the program of a module is the same. -/
theorem program_lowerAfter (catalog : Catalog) (library : Library) (file : String)
    (m : Surface.Module) (left : State) :
    (lowerAfter catalog library file m left).program = lowerModule catalog library file m := by
  have hagrees : (lowerAfter catalog library file m left).Agrees
      (lowerAfter catalog library file m .fresh) := by
    have hstart : (left.renew library file).Agrees (State.fresh.renew library file) := ⟨rfl, rfl⟩
    apply List.foldl_rel hstart
    intro x _ s t h
    exact agrees_lowerTopLevel catalog x h
  exact hagrees.program

end Lowering

/-! ### Scans of files -/

/-- The analysis came to nothing, or the sweep of some point did. -/
inductive Analysis.Failed (a : Analysis) : Prop where
  | whole {e : SweepError} : a.outcomes = .error e → Failed a
  | point {os : List Outcome} {o : Outcome} {e : SweepError} :
      a.outcomes = .ok os → o ∈ os → o.result = .error e → Failed a

namespace Outcome
variable {o : Outcome}

theorem error?_of_error {e : SweepError} (h : o.result = .error e) :
    o.error? = some ("Analysis error at " ++ o.point.render ++ ": " ++ e.message) := by
  simp only [error?, h]

theorem exists_error {message : String} (h : o.error? = some message) :
    ∃ e, o.result = .error e := by
  cases hresult : o.result with
  | ok vs => simp only [error?, hresult, reduceCtorEq] at h
  | error e => exact ⟨e, rfl⟩

end Outcome

namespace Scanner
variable (s : Scanner) {fs : Files} {p : Path}

theorem scanAfter_fst (left : Lowering.State) (file text : String) :
    (s.scanAfter left file text).1 = s.scan file text :=
  (congrArg (s.report file text) (Lowering.program_lowerAfter _ _ _ _ left)).trans rfl

theorem scan_eq (file text : String) : s.scan file text =
    s.report file text (Program.ofSource s.parse s.catalog .standard file text) := rfl

theorem errors_ne_nil_iff (file text : String) : (s.scan file text).result.errors ≠ [] ↔
    (Analysis.ofProgram (Program.ofSource s.parse s.catalog .standard file text)
      s.passName).Failed := by
  rw [scan_eq]
  unfold report
  dsimp only
  generalize Analysis.ofProgram (Program.ofSource s.parse s.catalog .standard file text)
    s.passName = a
  cases hos : a.outcomes with
  | error e => exact ⟨fun _ => .whole hos, fun _ => List.cons_ne_nil _ _⟩
  | ok os =>
    constructor
    · intro h
      obtain ⟨message, hmem⟩ := List.exists_mem_of_ne_nil _ h
      obtain ⟨o, ho, hmessage⟩ := List.mem_filterMap.mp hmem
      obtain ⟨e, he⟩ := Outcome.exists_error hmessage
      exact .point hos ho he
    · intro h
      cases h with
      | whole h => rw [hos] at h; cases h
      | point h ho he =>
        rw [hos] at h
        cases h
        exact List.ne_nil_of_mem (List.mem_filterMap.mpr ⟨_, ho, Outcome.error?_of_error he⟩)

theorem scanFileAfter_render (hp : p.Proper) (hfile : fs.hasFile p = true)
    (left : Lowering.State) :
    s.scanFileAfter left fs p.render = (fs.readText p).map (s.scanAfter left p.render) := by
  obtain ⟨octets, hfind⟩ := Files.exists_find?_of_hasFile hfile
  simp only [scanFileAfter, Path.ofText_render hp, hfind]

theorem scanFile_render (hp : p.Proper) (hfile : fs.hasFile p = true) {text : String}
    (htext : fs.readText p = .ok text) : s.scanFile fs p.render = .ok (s.scan p.render text) := by
  rw [scanFile, s.scanFileAfter_render hp hfile, htext]
  rfl

/-- What the file at a path gives, whatever other files there are. -/
structure ScansAlone (fs : Files) (p : Path) (scan : Scan) : Prop where
  alone : ∀ other : Files, other.find? p = fs.find? p → s.scanFile other p.render = .ok scan
  errors : scan.result.errors ≠ [] ↔ ∃ text, fs.readText p = .ok text ∧
    (Analysis.ofProgram (Program.ofSource s.parse s.catalog .standard p.render text)
      s.passName).Failed

theorem scansAlone (hp : p.Proper) (hfile : fs.hasFile p = true) {text : String}
    (htext : fs.readText p = .ok text) : s.ScansAlone fs p (s.scan p.render text) := by
  constructor
  · intro other hsame
    have hother : other.hasFile p = true := by rw [Files.hasFile, hsame]; exact hfile
    exact s.scanFile_render hp hother ((Files.readText_congr hfile hsame).trans htext)
  · rw [errors_ne_nil_iff]
    constructor
    · exact fun h => ⟨text, htext, h⟩
    · rintro ⟨text', htext', h⟩
      rw [htext] at htext'
      cases htext'
      exact h

section List
variable {ps : List Path} (hps : ∀ p ∈ ps, p.Proper ∧ fs.hasFile p = true)

include hps

theorem scanFiles_fault {f : Text.Utf8.Fault} (h : ps.findSome? fs.fault? = some f)
    (left : Lowering.State) : s.scanFiles fs ps left = .error (.undecodable f) := by
  induction ps generalizing left with
  | nil => cases h
  | cons p ps ih =>
    obtain ⟨⟨hp, hfile⟩, hps⟩ := List.forall_mem_cons.mp hps
    rw [scanFiles, s.scanFileAfter_render hp hfile]
    rw [List.findSome?_cons] at h
    cases hfault : fs.fault? p with
    | some f' =>
      rw [hfault] at h
      cases h
      rw [Files.readText_of_fault hfile hfault]
      rfl
    | none =>
      -- the scan of this file is made, and lost with the fault of a later one
      rw [hfault] at h
      obtain ⟨text, htext⟩ := Files.exists_readText hfile hfault
      rw [htext]
      simp only [Except.map, bind, Except.bind, ih hps h]

theorem scanFiles_ok (h : ∀ p ∈ ps, fs.fault? p = none) (left : Lowering.State) :
    ∃ scans, s.scanFiles fs ps left = .ok scans ∧ List.Forall₂ (s.ScansAlone fs) ps scans := by
  induction ps generalizing left with
  | nil => exact ⟨[], rfl, .nil⟩
  | cons p ps ih =>
    obtain ⟨⟨hp, hfile⟩, hps⟩ := List.forall_mem_cons.mp hps
    obtain ⟨hfault, h⟩ := List.forall_mem_cons.mp h
    obtain ⟨text, htext⟩ := Files.exists_readText hfile hfault
    obtain ⟨scans, hscans, hall⟩ := ih hps h (s.scanAfter left p.render text).2
    refine ⟨s.scan p.render text :: scans, ?_, .cons (s.scansAlone hp hfile htext) hall⟩
    rw [scanFiles, s.scanFileAfter_render hp hfile, htext, ← s.scanAfter_fst left]
    simp only [Except.map, bind, Except.bind, hscans, pure, Except.pure]

end List

/-- The files that match, in the order in which they are scanned. -/
def matching (files : Files) (g : Glob) (path : String) : List Path :=
  ((g.paths files (Path.ofText path)).mergeSort Path.le).filter files.hasFile

section Matching
variable {files : Files} {g : Glob} {path pattern : String}

theorem scanDirectory_eq (hg : Glob.ofText pattern = .ok g) : s.scanDirectory files path pattern =
    (s.scanFiles files (matching files g path) .fresh).mapError .file := by
  rw [scanDirectory, hg]
  rfl

theorem pairwise_matching : (matching files g path).Pairwise fun p q => p.le q = true := by
  apply List.Pairwise.filter
  apply List.pairwise_mergeSort
  · exact fun _ _ _ hpq hqr => Path.le_trans hpq hqr
  · exact Path.le_total

variable (hfiles : files.WellFormed)

include hfiles

theorem nodup_matching : (matching files g path).Nodup := by
  apply List.Nodup.filter
  exact (List.mergeSort_perm _ _).nodup_iff.mpr (Glob.nodup_paths hfiles g _)

theorem mem_matching (hg : g.parts ≠ []) {q : Path} : q ∈ matching files g path ↔
    files.hasFile q = true ∧ g.Matches (Path.ofText path) q := by
  rw [matching, List.mem_filter, and_comm, (List.mergeSort_perm _ _).mem_iff]
  exact and_congr_right fun hq => Glob.mem_paths_iff hfiles hg hq

theorem proper_of_mem_matching {q : Path} (hq : q ∈ matching files g path) :
    q.Proper ∧ files.hasFile q = true := by
  obtain ⟨hmem, hfile⟩ := List.mem_filter.mp hq
  refine ⟨?_, hfile⟩
  exact Glob.proper_of_mem_paths hfiles (Path.proper_ofText path)
    ((List.mergeSort_perm _ _).mem_iff.mp hmem) hfile

end Matching

/-- The files that match are put in order and scanned one by one. With no fault in any of them, each
has its own result, the one that it has alone; otherwise the first fault is all that is left. -/
theorem scanDirectory_each_match {files : Files} (hfiles : files.WellFormed)
    (path pattern : String) {g : Glob} (hg : Glob.ofText pattern = .ok g) :
    ∃ ps : List Path, ps.Nodup ∧ ps.Pairwise (fun p q => p.le q = true) ∧
      (∀ q, q ∈ ps ↔ files.hasFile q = true ∧ g.Matches (Path.ofText path) q) ∧
      ((∀ q ∈ ps, files.fault? q = none) → ∃ scans, s.scanDirectory files path pattern = .ok scans ∧
        List.Forall₂ (s.ScansAlone files) ps scans) ∧
      ∀ f, ps.findSome? files.fault? = some f →
        s.scanDirectory files path pattern = .error (.file (.undecodable f)) := by
  have hps : ∀ q ∈ matching files g path, q.Proper ∧ files.hasFile q = true :=
    fun q => proper_of_mem_matching hfiles
  refine ⟨matching files g path, nodup_matching hfiles, pairwise_matching,
    fun q => mem_matching hfiles (Glob.parts_ne_nil hg), ?_, ?_⟩
  · intro hnone
    rw [s.scanDirectory_eq hg]
    obtain ⟨scans, hscans, hall⟩ := s.scanFiles_ok hps hnone .fresh
    exact ⟨scans, by rw [hscans]; rfl, hall⟩
  · intro f hf
    rw [s.scanDirectory_eq hg]
    rw [s.scanFiles_fault hps hf]
    rfl

/-- A scanner to which every text is an empty module. -/
def unread : Scanner where
  parse := fun _ => .node .module {} {} true none []
  catalog := .extended []

/-- A directory with a file of text, and a file with an octet that starts no character. -/
def halfRead : Files where
  here := .directory [("d", .directory [("a.py", .file [0x78, 0x0a]), ("b.py", .file [0xff])])]

theorem wellFormed_halfRead : halfRead.WellFormed := by
  have hinner : FileTree.WellFormed
      (.directory [("a.py", .file [0x78, 0x0a]), ("b.py", .file [0xff])]) := by
    refine .directory (by decide) (by decide) ?_
    simp only [List.forall_mem_cons]
    exact ⟨.file _, .file _, by simp⟩
  refine ⟨.directory (by decide) (by decide) ?_, .directory .nil (by simp) (by simp)⟩
  simpa using hinner

def sources : Glob := ⟨[.anyDepth, .wild [.anyText, .char '.', .char 'p', .char 'y']], false⟩

theorem ofText_sources : Glob.ofText "**/*.py" = .ok sources := by
  rfl

/-- The path to the directory goes down, up and down again. -/
theorem scanDirectory_each_match_halfRead : halfRead.WellFormed ∧
    ∃ f, unread.scanDirectory halfRead "d/../d" "**/*.py" =
      .error (.file (.undecodable f)) := by
  refine ⟨wellFormed_halfRead, ?_⟩
  obtain ⟨ps, _, _, hmem, _, hfault⟩ := unread.scanDirectory_each_match wellFormed_halfRead
    "d/../d" "**/*.py" ofText_sources
  have hb : (⟨"", ["d", "..", "d", "b.py"]⟩ : Path) ∈ ps := by
    refine (hmem _).mpr ⟨by decide, rfl, ["b.py"], rfl, ?_⟩
    refine .anyDepth [] (by simp) (by simp) (.wild ?_ (by decide) .nil)
    exact PatternItem.matchAll_iff.mp (by decide)
  have hsome : (ps.findSome? halfRead.fault?).isSome = true :=
    List.findSome?_isSome_iff.mpr ⟨_, hb, by decide⟩
  obtain ⟨f, hf⟩ := Option.isSome_iff_exists.mp hsome
  exact ⟨f, hfault f hf⟩

/-- The other file is in sight, and has no result either. -/
theorem scanDirectory_undecodable :
    unread.scanDirectory halfRead "d" "**/*.py" =
      .error (.file (.undecodable ⟨0, 0xff, 1, .invalidStart⟩)) := by
  have hpaths : sources.paths halfRead (Path.ofText "d") =
      [⟨"", ["d", "a.py"]⟩, ⟨"", ["d", "b.py"]⟩] := by decide
  have hfault : (matching halfRead sources "d").findSome? halfRead.fault? =
      some ⟨0, 0xff, 1, .invalidStart⟩ := by
    -- the paths are in order as they are selected
    rw [matching, hpaths, List.mergeSort_of_pairwise (by decide)]
    decide
  rw [scanDirectory_eq _ ofText_sources,
    unread.scanFiles_fault (fun q => proper_of_mem_matching wellFormed_halfRead) hfault]
  rfl

end Scanner

end ActorOwnership
