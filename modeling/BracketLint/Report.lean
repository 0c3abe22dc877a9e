import BracketLint.Violation

/-!
The result of checking some files.
-/

namespace BracketLint

/-- The violations found in some files, with the numbers of files that were checked and of files that
could not be read. -/
structure Report where
  violations : List Violation := []
  filesChecked : Nat := 0
  filesSkipped : Nat := 0
  deriving DecidableEq, Repr

namespace Report

/-- The violations of a severity. -/
def ofSeverity (report : Report) (severity : Severity) : List Violation :=
  report.violations.filter (·.severity == severity)

/-- The violations of a rule. -/
def ofRule (report : Report) (rule : String) : List Violation :=
  report.violations.filter (·.rule == rule)

/-- The number of violations of a severity. -/
def count (report : Report) (severity : Severity) : Nat :=
  report.violations.countP (·.severity == severity)

/-- Whether some violation is at least as serious as a threshold. -/
def reaches (report : Report) (threshold : Severity) : Bool :=
  report.violations.any fun v => threshold ≤ v.severity

/-- A report followed by another one. -/
def append (report other : Report) : Report where
  violations := report.violations ++ other.violations
  filesChecked := report.filesChecked + other.filesChecked
  filesSkipped := report.filesSkipped + other.filesSkipped

/-- The order of violations in a report: by file, line and column. -/
def comesBefore (v w : Violation) : Bool :=
  let order := (v.location.file.compare w.location.file).then
    ((compare v.location.line w.location.line).then (compare v.location.column w.location.column))
  order != .gt

/-- The violations in order; those at one place stay as they were found. -/
def sort (report : Report) : Report :=
  { report with violations := report.violations.mergeSort comesBefore }

end Report
end BracketLint
