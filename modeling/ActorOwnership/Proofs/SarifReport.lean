import ActorOwnership.Proofs.Growth
import ActorOwnership.Report.Sarif

/-! SARIF reports are complete and consistent. A report is read back from its document. Its results
are the findings of all files in order, and its rules are those that the results name, each declared
once. Both ways of building a run, by findings and by files, keep this. -/

namespace ActorOwnership
set_option autoImplicit false

/-! ### Reading a document -/

namespace Document

/-- Follows keys into nested objects. -/
def path? : List String → Document → Option Document
  | [], d => some d
  | key :: keys, object entries => (entries.lookup key).bind (path? keys)
  | _ :: _, _ => none

def textAt? (keys : List String) (d : Document) : Option String :=
  match d.path? keys with
  | some (text s) => some s
  | _ => none

def intAt? (keys : List String) (d : Document) : Option Int :=
  match d.path? keys with
  | some (int n) => some n
  | _ => none

def itemsAt? (keys : List String) (d : Document) : Option (List Document) :=
  match d.path? keys with
  | some (list items) => some items
  | _ => none

/-- The item of a list that has no other. -/
def onlyAt? (keys : List String) (d : Document) : Option Document :=
  match d.itemsAt? keys with
  | some [d] => some d
  | _ => none

theorem mapM_map {α : Type} {read : Document → Option α} {write : α → Document}
    (h : ∀ x, read (write x) = some x) (xs : List α) : (xs.map write).mapM read = some xs := by
  induction xs with
  | nil => rfl
  | cons x xs ih => simp [h, ih]

end Document

namespace Sarif

def Rule.read (d : Document) : Option Rule := do
  return { id := ← d.textAt? ["id"], level := ← d.textAt? ["defaultConfiguration", "level"] }

theorem Rule.read_document (r : Rule) : read r.document = some r := rfl

def Entry.read (d : Document) : Option Entry := do
  let location ← d.onlyAt? ["locations"]
  return {
    ruleId := ← d.textAt? ["ruleId"]
    level := ← d.textAt? ["level"]
    message := ← d.textAt? ["message", "text"]
    uri := ← location.textAt? ["physicalLocation", "artifactLocation", "uri"]
    startLine := ← location.intAt? ["physicalLocation", "region", "startLine"]
    startColumn := ← location.intAt? ["physicalLocation", "region", "startColumn"] }

theorem Entry.read_document (e : Entry) : read e.document = some e := rfl

namespace Run
variable {run other : Run}

/-- Reads the only run of a document. -/
def read (d : Document) : Option Run := do
  let run ← d.onlyAt? ["runs"]
  return {
    rules := ← (← run.itemsAt? ["tool", "driver", "rules"]).mapM Rule.read
    results := ← (← run.itemsAt? ["results"]).mapM Entry.read }

theorem read_document (run : Run) : read run.document = some run := by
  have hread : read run.document = do
      let rules ← (run.rules.map Rule.document).mapM Rule.read
      let results ← (run.results.map Entry.document).mapM Entry.read
      return ⟨rules, results⟩ := rfl
  rw [hread, Document.mapM_map Rule.read_document, Document.mapM_map Entry.read_document]
  rfl

/-! ### Rules -/

/-- Each rule is declared once, with the level of a result that names it, and each result names a
rule. -/
structure Consistent (run : Run) : Prop where
  once : (run.rules.map Rule.id).Nodup
  used : ∀ rule ∈ run.rules, ∃ e ∈ run.results, e.ruleId = rule.id ∧ e.level = rule.level
  declared : ∀ e ∈ run.results, e.ruleId ∈ run.rules.map Rule.id

theorem any_id {rules : List Rule} {id : String} :
    rules.any (·.id == id) = true ↔ id ∈ rules.map Rule.id := by
  simp

theorem consistent_empty : Consistent {} where
  once := List.nodup_nil
  used := List.forall_mem_nil _
  declared := List.forall_mem_nil _

theorem map_id_add (file : String) (run : Run) (f : Finding) :
    (run.add file f).rules.map Rule.id = insertNew (run.rules.map Rule.id) f.ruleId := by
  unfold add insertNew
  simp only [any_id, List.contains_iff_mem]
  split
  · rfl
  · rw [List.map_append]
    rfl

theorem Consistent.add (h : run.Consistent) (file : String) (f : Finding) :
    (run.add file f).Consistent where
  once := by
    rw [map_id_add]
    exact nodup_insertNew h.once _
  used := by
    intro rule hrule
    have hcases : rule ∈ run.rules ∨ rule = .ofFinding f := by
      unfold Run.add at hrule
      split at hrule
      · exact Or.inl hrule
      · simpa using hrule
    rcases hcases with hrule | rfl
    · obtain ⟨e, he, heq⟩ := h.used rule hrule
      exact ⟨e, List.mem_append_left _ he, heq⟩
    · exact ⟨.ofFinding file f, List.mem_append_right _ List.mem_cons_self, rfl, rfl⟩
  declared := by
    intro e he
    rw [map_id_add, mem_insertNew]
    rcases List.mem_append.mp he with he | he
    · exact Or.inl (h.declared e he)
    · exact Or.inr (congrArg Entry.ruleId (List.mem_singleton.mp he))

theorem map_id_putRule (rules : List Rule) (rule : Rule) :
    (putRule rules rule).map Rule.id = insertNew (rules.map Rule.id) rule.id := by
  unfold putRule insertNew
  simp only [any_id, List.contains_iff_mem]
  split
  · rw [List.map_map]
    apply List.map_congr_left
    intro r _
    simp only [Function.comp_apply]
    split
    · rename_i heq
      exact (beq_iff_eq.mp heq).symm
    · rfl
  · rw [List.map_append]
    rfl

theorem mem_putRule {rules : List Rule} {rule x : Rule} (h : x ∈ putRule rules rule) :
    x ∈ rules ∨ x = rule := by
  unfold putRule at h
  split at h
  · obtain ⟨r, hr, rfl⟩ := List.mem_map.mp h
    split
    · exact Or.inr rfl
    · exact Or.inl hr
  · simpa using h

theorem map_id_foldl_putRule (rules more : List Rule) :
    (more.foldl putRule rules).map Rule.id = union (rules.map Rule.id) (more.map Rule.id) := by
  induction more generalizing rules with
  | nil => rfl
  | cons rule more ih =>
    rw [List.foldl_cons, ih, map_id_putRule]
    rfl

theorem mem_foldl_putRule {rules more : List Rule} {x : Rule} (h : x ∈ more.foldl putRule rules) :
    x ∈ rules ∨ x ∈ more := by
  induction more generalizing rules with
  | nil => exact Or.inl h
  | cons rule more ih =>
    rcases ih h with hx | hx
    · rcases mem_putRule hx with hx | rfl
      · exact Or.inl hx
      · exact Or.inr List.mem_cons_self
    · exact Or.inr (List.mem_cons_of_mem _ hx)

theorem Consistent.join (h : run.Consistent) (h' : other.Consistent) :
    (run.join other).Consistent where
  once := by
    rw [Run.join, map_id_foldl_putRule]
    exact nodup_union h.once _
  used := by
    intro rule hrule
    rcases mem_foldl_putRule hrule with hrule | hrule
    · obtain ⟨e, he, heq⟩ := h.used rule hrule
      exact ⟨e, List.mem_append_left _ he, heq⟩
    · obtain ⟨e, he, heq⟩ := h'.used rule hrule
      exact ⟨e, List.mem_append_right _ he, heq⟩
  declared := by
    intro e he
    rw [Run.join, map_id_foldl_putRule, mem_union]
    rcases List.mem_append.mp he with he | he
    · exact Or.inl (h.declared e he)
    · exact Or.inr (h'.declared e he)

/-! ### Whole runs -/

theorem foldl_add (file : String) (fs : List Finding) (run : Run) :
    (fs.foldl (add file) run).results = run.results ++ fs.map (Entry.ofFinding file) ∧
      (run.Consistent → (fs.foldl (add file) run).Consistent) := by
  induction fs generalizing run with
  | nil => exact ⟨(List.append_nil _).symm, id⟩
  | cons f fs ih =>
    obtain ⟨hresults, hconsistent⟩ := ih (run.add file f)
    refine ⟨?_, fun h => hconsistent (h.add file f)⟩
    rw [List.foldl_cons, hresults]
    simp [add]

theorem ofFile_results (r : ScanResult) :
    (ofFile r).results = r.findings.map (Entry.ofFinding r.filename) :=
  (foldl_add r.filename r.findings {}).1

theorem ofFile_consistent (r : ScanResult) : (ofFile r).Consistent :=
  (foldl_add r.filename r.findings {}).2 consistent_empty

theorem foldl_join (runs : List Run) (run : Run) :
    (runs.foldl join run).results = run.results ++ runs.flatMap Run.results ∧
      (run.Consistent → (∀ r ∈ runs, r.Consistent) → (runs.foldl join run).Consistent) := by
  induction runs generalizing run with
  | nil => exact ⟨(List.append_nil _).symm, fun h _ => h⟩
  | cons r runs ih =>
    obtain ⟨hresults, hconsistent⟩ := ih (run.join r)
    refine ⟨?_, ?_⟩
    · rw [List.foldl_cons, hresults]
      simp [join]
    · intro h hruns
      obtain ⟨hr, hruns⟩ := List.forall_mem_cons.mp hruns
      exact hconsistent (h.join hr) hruns

theorem foldl_putRule_of_nodup {rules more : List Rule}
    (h : ((rules ++ more).map Rule.id).Nodup) : more.foldl putRule rules = rules ++ more := by
  induction more generalizing rules with
  | nil => exact (List.append_nil _).symm
  | cons rule more ih =>
    have hfresh : putRule rules rule = rules ++ [rule] := by
      apply if_neg
      rw [any_id]
      rw [List.map_append, List.nodup_append] at h
      intro hmem
      exact h.2.2 _ hmem _ List.mem_cons_self rfl
    rw [List.append_cons] at h
    rw [List.foldl_cons, hfresh, ih h, ← List.append_cons]

/-- Putting all rules of one run into an empty list changes nothing, as none has the name of an
earlier one. -/
theorem merge_singleton (h : run.Consistent) : merge [run] = run := by
  obtain ⟨rules, results⟩ := run
  have hrules : rules.foldl putRule [] = rules := foldl_putRule_of_nodup h.once
  simp [merge, join, hrules]

theorem ofResults_eq_merge (results : List ScanResult) :
    ofResults results = merge (results.map ofFile) := by
  cases results with
  | nil => rfl
  | cons r rest =>
    cases rest with
    | nil => exact (merge_singleton (ofFile_consistent r)).symm
    | cons _ _ => rfl

end Run

end Sarif

open Sarif in
/-- The document of any number of files reads back as a run. Its results are the findings in the
order of the files, each in its own file and with columns that count from one. Each rule is declared
once, by some result, and each result has its rule. One file gives what merging would give. -/
theorem Report.sarifDocument_complete (results : List ScanResult) :
    ∃ run, Run.read (sarifDocument results) = some run ∧
      run.results = (results.flatMap fun r => r.findings.map fun f =>
        { ruleId := f.ruleId, level := level f.severity, message := f.description
          uri := r.filename, startLine := f.line, startColumn := f.column + 1 }) ∧
      run.Consistent ∧
      sarifDocument results = (Run.merge (results.map Run.ofFile)).document := by
  refine ⟨Run.merge (results.map Run.ofFile), ?_, ?_, ?_, ?_⟩
  · rw [sarifDocument, Run.ofResults_eq_merge]
    exact Run.read_document _
  · rw [Run.merge, (Run.foldl_join _ _).1, List.nil_append, List.flatMap_map]
    exact List.flatMap_congr fun r _ => Run.ofFile_results r
  · apply (Run.foldl_join _ _).2 Run.consistent_empty
    intro run hrun
    obtain ⟨r, _, rfl⟩ := List.mem_map.mp hrun
    exact Run.ofFile_consistent r
  · rw [sarifDocument, Run.ofResults_eq_merge]

end ActorOwnership
