import Mathlib.Algebra.BigOperators.Group.List.Basic
import BracketLint.Linter
import BracketLint.Proofs.Analysis.Locations
import BracketLint.Proofs.Report

/-!
Runs over several files. A run that skips what it cannot read reports on each file by itself, and all
violations of a file carry its path from the root on. Violations of two files are never tied, so the
sorted report depends neither on the order of the files nor on how they are divided into runs.
-/

namespace BracketLint

/-- Where at most one entry of a list gives something, the order of the list does not matter. -/
theorem flatMap_eq_of_perm {α β : Type} {f : α → List β} {l l' : List α} (hperm : l.Perm l')
    (hl : l.Pairwise fun a b => f a = [] ∨ f b = []) : l.flatMap f = l'.flatMap f := by
  induction hperm with
  | nil => rfl
  | cons a _ ih =>
    rw [List.flatMap_cons, List.flatMap_cons, ih (List.pairwise_cons.mp hl).2]
  | swap a b rest =>
    rw [List.flatMap_cons, List.flatMap_cons, List.flatMap_cons, List.flatMap_cons]
    rcases (List.pairwise_cons.mp hl).1 a List.mem_cons_self with hb | ha
    · rw [hb, List.nil_append, List.nil_append]
    · rw [ha, List.nil_append, List.nil_append]
  | trans hfirst _ ih ih' =>
    have hsymm {a b : α} (h : f a = [] ∨ f b = []) : f b = [] ∨ f a = [] := h.symm
    rw [ih hl, ih' ((hfirst.pairwise_iff hsymm).mp hl)]

/-- Every violation of a rule lies in the file that was checked. -/
theorem Rule.file_of_mem_check {rule : Rule} {file : FileContext} {analysis : Analysis}
    {v : Violation} (hv : v ∈ rule.check file analysis) : v.location.file = file.relative := by
  have hmem := mem_violations_of_mem_check hv
  have hstage {ds : List Diagnostic} (h : v ∈ ds.map (ofDiagnostic rule file)) :
      v.location.file = file.relative := by
    obtain ⟨d, -, rfl⟩ := List.mem_map.mp h
    rfl
  have hgroup {report? : Nat → Option Violation} {ids : List Nat}
      (h : v ∈ ids.filterMap report?)
      (hfile : ∀ id w, report? id = some w → w.location.file = file.relative) :
      v.location.file = file.relative := by
    obtain ⟨id, -, hid⟩ := List.mem_filterMap.mp h
    exact hfile id v hid
  cases rule with
  | bracketStructure => exact hstage hmem
  | strangeContext => exact hstage hmem
  | sourceHygiene => exact hstage hmem
  | routineLength maxLines allow severity =>
    apply hgroup hmem
    intro id w hid
    obtain ⟨group, -, hid⟩ := Option.bind_eq_some_iff.mp hid
    split at hid
    · cases hid
    · split at hid
      · cases hid
      · cases hid
        rfl
  | nestingDepth maxDepth allow severity =>
    apply hgroup hmem
    intro id w hid
    obtain ⟨group, -, hid⟩ := Option.bind_eq_some_iff.mp hid
    split at hid
    · cases hid
    · obtain ⟨depth, -, hid⟩ := Option.bind_eq_some_iff.mp hid
      split at hid
      · cases hid
      · cases hid
        rfl

namespace Linter

/-- The path of a file from the root on, as reports show it. -/
def relative (linter : Linter) (path : Path) : Path := (path.relativeTo? linter.root).getD path

theorem location_of_settle {rule : Rule} {lines : Lines} {v w : Violation}
    (h : settle rule lines v = some w) : w.location = v.location := by
  unfold settle at h
  split at h
  · cases h
    rfl
  · split at h
    · cases h
      rfl
    · cases h

theorem location_withSeverity (config : Config) (rule : Rule) (v : Violation) :
    (withSeverity config rule v).location = v.location := by
  unfold withSeverity
  split
  · split <;> rfl
  · rfl

/-- Every report about a file, those about missing reasons included, carries its path. -/
theorem file_of_mem_findings {linter : Linter} {path : Path} {content : Bytes} {v : Violation}
    (hv : v ∈ linter.findings path content) : v.location.file = linter.relative path := by
  obtain ⟨rule, -, hv⟩ := List.mem_flatMap.mp hv
  unfold findingsOf at hv
  split at hv
  · obtain ⟨w, hw, rfl⟩ := List.mem_map.mp hv
    obtain ⟨u, hu, hsettle⟩ := List.mem_filterMap.mp hw
    rw [location_withSeverity, location_of_settle hsettle, Rule.file_of_mem_check hu]
    rfl
  · cases hv

/-- The report on one file in a run that skips what it cannot read. -/
def lenientReport (linter : Linter) (read : Path → Except ReadFailure Bytes) (path : Path) :
    Report :=
  match read path with
  | .ok content => { violations := linter.findings path content, filesChecked := 1 }
  | .error _ => { filesSkipped := 1 }

/-- The reports on some files, one after another. -/
def joinedReport (linter : Linter) (read : Path → Except ReadFailure Bytes) (paths : List Path) :
    Report :=
  (paths.map (linter.lenientReport read)).foldl Report.append {}

section Lenient

variable {linter : Linter} {read : Path → Except ReadFailure Bytes}

theorem filesChecked_add_filesSkipped_lenientReport (path : Path) :
    (linter.lenientReport read path).filesChecked +
      (linter.lenientReport read path).filesSkipped = 1 := by
  unfold lenientReport
  split <;> rfl

theorem file_of_mem_lenientReport {path : Path} {v : Violation}
    (hv : v ∈ (linter.lenientReport read path).violations) :
    v.location.file = linter.relative path := by
  unfold lenientReport at hv
  split at hv
  · exact file_of_mem_findings hv
  · cases hv

theorem joinedReport_eq (paths : List Path) : linter.joinedReport read paths =
    { violations := paths.flatMap fun path => (linter.lenientReport read path).violations
      filesChecked := (paths.map fun path => (linter.lenientReport read path).filesChecked).sum
      filesSkipped := (paths.map fun path => (linter.lenientReport read path).filesSkipped).sum } := by
  rw [joinedReport, Report.foldl_append]
  simp only [List.flatMap_map, List.map_map, Function.comp_def, List.nil_append, Nat.zero_add]

theorem joinedReport_append (front behind : List Path) : linter.joinedReport read (front ++ behind) =
    (linter.joinedReport read front).append (linter.joinedReport read behind) := by
  simp only [joinedReport_eq, Report.append, List.flatMap_append, List.map_append, List.sum_append]

/-- Every file is either checked or skipped. -/
theorem filesChecked_add_filesSkipped_joinedReport (paths : List Path) :
    (linter.joinedReport read paths).filesChecked +
      (linter.joinedReport read paths).filesSkipped = paths.length := by
  rw [joinedReport_eq, ← List.sum_map_add]
  simp only [filesChecked_add_filesSkipped_lenientReport, List.map_const', List.sum_replicate_nat,
    Nat.mul_one]

/-- A run that skips what it cannot read always gives a report. -/
theorem reportOnAll_eq (hlenient : linter.failOnReadError = false) (paths : List Path) :
    linter.reportOnAll read paths = .ok (linter.joinedReport read paths).sort := by
  have hone : linter.reportOn read = fun path => .ok (linter.lenientReport read path) := by
    funext path
    unfold reportOn lenientReport
    cases read path with
    | ok content => rfl
    | error failure => rw [hlenient]; rfl
  have hall : paths.mapM (linter.reportOn read) =
      (.ok (paths.map (linter.lenientReport read)) : Except LintFailure _) := by
    rw [hone]
    exact List.mapM_pure
  rw [reportOnAll, hall]
  rfl

/-- The sorted report on files that lie apart does not depend on their order. -/
theorem sort_joinedReport_eq_of_perm {paths paths' : List Path} (hperm : paths.Perm paths')
    (hdistinct : paths.Pairwise fun p q =>
      (linter.relative p).components ≠ (linter.relative q).components) :
    (linter.joinedReport read paths).sort = (linter.joinedReport read paths').sort := by
  rw [joinedReport_eq, joinedReport_eq]
  apply Report.sort_eq_of_filter_tied_eq
  · intro v
    rw [List.filter_flatMap, List.filter_flatMap]
    apply flatMap_eq_of_perm hperm
    -- Violations tied with `v` lie in its file, which is only one of the files.
    refine hdistinct.imp ?_
    intro p q hne
    by_contra hboth
    rw [not_or] at hboth
    obtain ⟨w, hw⟩ := List.exists_mem_of_ne_nil _ hboth.1
    obtain ⟨u, hu⟩ := List.exists_mem_of_ne_nil _ hboth.2
    obtain ⟨hw, hvw⟩ := List.mem_filter.mp hw
    obtain ⟨hu, hvu⟩ := List.mem_filter.mp hu
    apply hne
    calc (linter.relative p).components
        = w.location.file.components := by rw [file_of_mem_lenientReport hw]
      _ = v.location.file.components := (Report.components_eq_of_tied hvw).symm
      _ = u.location.file.components := Report.components_eq_of_tied hvu
      _ = (linter.relative q).components := by rw [file_of_mem_lenientReport hu]
  · exact (hperm.map _).sum_eq
  · exact (hperm.map _).sum_eq

/-- A lenient run over files that lie apart accounts for each of them, in any order, and two runs over
the files divided in any way, put together and sorted again, give its report. -/
theorem reportOnAll_of_perm (hlenient : linter.failOnReadError = false) {paths : List Path}
    (hdistinct : paths.Pairwise fun p q =>
      (linter.relative p).components ≠ (linter.relative q).components) :
    ∃ report, linter.reportOnAll read paths = .ok report ∧
      report.filesChecked + report.filesSkipped = paths.length ∧
      (∀ paths', paths'.Perm paths → linter.reportOnAll read paths' = .ok report) ∧
      ∀ front behind, (front ++ behind).Perm paths →
        ∃ first second, linter.reportOnAll read front = .ok first ∧
          linter.reportOnAll read behind = .ok second ∧ (first.append second).sort = report := by
  refine ⟨(linter.joinedReport read paths).sort, reportOnAll_eq hlenient paths,
    filesChecked_add_filesSkipped_joinedReport paths, ?_, ?_⟩
  · intro paths' hperm
    rw [reportOnAll_eq hlenient, sort_joinedReport_eq_of_perm hperm.symm hdistinct]
  · intro front behind hperm
    refine ⟨_, _, reportOnAll_eq hlenient front, reportOnAll_eq hlenient behind, ?_⟩
    rw [Report.sort_append_sort, ← joinedReport_append,
      sort_joinedReport_eq_of_perm hperm.symm hdistinct]

end Lenient

/-- Two rules that find one tab each, and a file that is gone. -/
theorem reportOnAll_of_perm_gone :
    let linter : Linter := { root := ⟨"/p"⟩, rules := [.sourceHygiene false, .sourceHygiene true]
                             excludes := [], config := {} }
    let read : Path → Except ReadFailure Bytes := fun path =>
      if path.text == "/p/gone.cpp" then .error .missing else .ok [9]
    let paths : List Path := [⟨"/p/b.cpp"⟩, ⟨"/p/gone.cpp"⟩, ⟨"/p/a.cpp"⟩]
    linter.failOnReadError = false ∧
      (paths.Pairwise fun p q => (linter.relative p).components ≠ (linter.relative q).components) ∧
      ∃ report, linter.reportOnAll read paths = .ok report ∧
        report.filesChecked + report.filesSkipped = 3 ∧
        linter.reportOnAll read [⟨"/p/a.cpp"⟩, ⟨"/p/b.cpp"⟩, ⟨"/p/gone.cpp"⟩] = .ok report := by
  intro linter read paths
  have hdistinct : paths.Pairwise fun p q =>
      (linter.relative p).components ≠ (linter.relative q).components := by decide +kernel
  obtain ⟨report, hreport, hcount, hperm, -⟩ :=
    @reportOnAll_of_perm linter read rfl paths hdistinct
  exact ⟨rfl, hdistinct, report, hreport, hcount, hperm _ (by decide +kernel)⟩

end Linter
end BracketLint
