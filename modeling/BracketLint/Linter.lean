import BracketLint.AllowDirective
import BracketLint.Glob
import BracketLint.Ignore.Walk
import BracketLint.Preset
import BracketLint.Report

/-!
Linters: rules together with a configuration, for the files below a root. A linter finds the source
files, checks each of them with its rules, and takes allow directives and configured severities into
account.
-/

namespace BracketLint

/-- A linter for the files below a root. -/
structure Linter where
  root : Path
  rules : List Rule
  excludes : List Glob
  config : Config
  failOnReadError : Bool := false

/-- Why a run gives no report. -/
inductive LintFailure
  | walk
  | read (path : Path) (failure : ReadFailure)
  deriving DecidableEq, Repr

/-- The message about a failure. -/
def LintFailure.message : LintFailure → String
  | walk => "Failed to walk source tree"
  | read path failure => "Failed to read " ++ path.text ++ ": " ++ failure.message

namespace Linter

/-- The globs that leave files out when no others are given. -/
def standardExcludes : List String := ["**/build/**", "**/third_party/**"]

/-- The globs that leave files out: those that are asked for and those of the configuration, or the
standard ones if there are none. -/
def excludeTexts (asked : List String) (config : Config) : List String :=
  let all := asked ++ config.analyzer.exclude
  if all.isEmpty then standardExcludes else all

/-- The linter for a root, which the configuration gives if nothing else does. A relative root lies
below the working directory. -/
def ofConfig (config : Config) (rules : List Rule) (here : Path) (root : Option Path)
    (excludes : List String) (failOnReadError : Bool) : Except Glob.Fault Linter :=
  ((excludeTexts excludes config).mapM Glob.parse).map fun globs =>
    { root := here.join (root.getD config.analyzer.root)
      rules, excludes := globs, config, failOnReadError }

/-- Whether the configuration names the extension of a file. -/
def isSource (linter : Linter) (path : Path) : Bool :=
  path.extension?.any linter.config.analyzer.extensions.contains

/-- Whether a glob leaves a file out, by its whole path or by the one from the root on. -/
def isExcluded (linter : Linter) (path : Path) : Bool :=
  -- A file outside of the root has its whole path only.
  let relative := (path.relativeTo? linter.root).getD path
  linter.excludes.any fun glob => glob.matchesPath path || glob.matchesPath relative

/-- The name under which directives without a required reason are reported. -/
def withoutReason : String := "allow-without-reason"

/-- The report that takes the place of a violation when a directive allows it without the reason that
the rule requires. -/
def missingReason (rule : Rule) (v : Violation) : Violation where
  code := rule.code
  rule := withoutReason
  severity := .warning
  location := v.location
  message := "Allow directive for '" ++ rule.name ++ "' is missing required reason"
  suggestion := some "Add reason=\"...\" to explain why this exception is necessary"

/-- What becomes of a violation of a rule under the directives of its file. -/
def settle (rule : Rule) (lines : Lines) (v : Violation) : Option Violation :=
  match lines.allowance v.location.line rule.name with
  | .denied => some v
  | .allowed reason =>
    -- The directive holds, but its missing reason is reported.
    if rule.requiresReason && reason.isNone then some (missingReason rule v) else none

/-- A violation with the severity that the configuration gives to the rule. Reports about missing
reasons keep theirs. -/
def withSeverity (config : Config) (rule : Rule) (v : Violation) : Violation :=
  match config.ruleSeverity? rule.name with
  | some severity => if v.rule == rule.name then { v with severity } else v
  | none => v

/-- What one rule reports about a file. -/
def findingsOf (linter : Linter) (file : FileContext) (analysis : Analysis) (rule : Rule) :
    List Violation :=
  if linter.config.isRuleEnabled rule.name then
    ((rule.check file analysis).filterMap (settle rule analysis.lines)).map
      (withSeverity linter.config rule)
  else []

/-- What all rules report about a file with some content. -/
def findings (linter : Linter) (path : Path) (content : Bytes) : List Violation :=
  let text := content.repaired
  let file := FileContext.ofFile path linter.root text
  let analysis := Analysis.ofSource text file.kind linter.config.scrub
  linter.rules.flatMap (linter.findingsOf file analysis)

/-- The report on one file; a file that cannot be read is skipped, or ends the run. -/
def reportOn (linter : Linter) (read : Path → Except ReadFailure Bytes) (path : Path) :
    Except LintFailure Report :=
  match read path with
  | .ok content => .ok { violations := linter.findings path content, filesChecked := 1 }
  | .error failure =>
    if linter.failOnReadError then .error (.read path failure) else .ok { filesSkipped := 1 }

/-- The report on some files, with its violations in order. -/
def reportOnAll (linter : Linter) (read : Path → Except ReadFailure Bytes) (paths : List Path) :
    Except LintFailure Report :=
  (paths.mapM (linter.reportOn read)).map fun reports => (reports.foldl Report.append {}).sort

/-- The source files below the root, in the order of their paths. -/
def sources? (linter : Linter) (user : Ignore.File) (files : FileSystem) : Option (List Path) :=
  (Ignore.walk? linter.config.analyzer.respectGitignore user files linter.root).map fun paths =>
    (paths.filter fun path => linter.isSource path && !linter.isExcluded path).mergeSort
      fun p q => p.compare q != .gt

/-- The report on the source files below the root. -/
def report (linter : Linter) (user : Ignore.File) (files : FileSystem) :
    Except LintFailure Report :=
  match linter.sources? user files with
  | none => .error .walk
  | some paths => linter.reportOnAll files.read paths

end Linter
end BracketLint
