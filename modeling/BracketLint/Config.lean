import BracketLint.Lines
import BracketLint.Toml.Document

/-!
Configurations: which rules run, with which settings, on which files, and what makes a run fail.
-/

namespace BracketLint

/-- The section of a configuration for one rule. Keys other than `enabled` and `severity` are kept
for the rule itself. -/
structure RuleConfig where
  enabled : Option Bool := none
  severity : Option Severity := none
  options : List (String × Toml) := []
  deriving Repr

namespace RuleConfig

/-- A Boolean option, or a default where it is missing or something else. -/
def bool (config : RuleConfig) (key : String) (default : Bool) : Bool :=
  ((config.options.lookup key).bind Toml.boolean?).getD default

/-- An integer option, or a default where it is missing or something else. -/
def int (config : RuleConfig) (key : String) (default : Int) : Int :=
  ((config.options.lookup key).bind Toml.integer?).getD default

/-- The strings in an array option; none where it is missing or something else. -/
def strings (config : RuleConfig) (key : String) : List String :=
  (((config.options.lookup key).bind Toml.array?).getD []).filterMap Toml.string?

/-- A positive integer option, or a default where it is missing or something else. -/
def positive (config : RuleConfig) (key : String) (default : Nat) : Nat :=
  let value := config.int key 0
  if 0 < value then value.toNat else default

end RuleConfig

/-- Which files are checked. -/
structure FileSelection where
  root : Path := ⟨"."⟩
  exclude : List String := []
  extensions : List String := ["h", "hh", "hpp", "hxx", "inl", "c", "cc", "cpp", "cxx"]
  respectGitignore : Bool := true
  deriving Repr

/-- A configuration. -/
structure Config where
  preset : Option String := none
  failOn : Option Severity := none
  analyzer : FileSelection := {}
  scrub : ScrubOptions := {}
  rules : List (String × RuleConfig) := []
  deriving Repr

namespace Config

/-- The section for a rule. -/
def rule? (config : Config) (name : String) : Option RuleConfig := config.rules.lookup name

/-- Whether a rule runs: it does unless its section says otherwise. -/
def isRuleEnabled (config : Config) (name : String) : Bool :=
  ((config.rule? name).bind (·.enabled)).getD true

/-- The severity that a configuration gives to a rule's violations. -/
def ruleSeverity? (config : Config) (name : String) : Option Severity :=
  (config.rule? name).bind (·.severity)

/-- The severity from which on violations make a run fail. -/
def failThreshold (config : Config) : Severity := config.failOn.getD .error

/-- A value that may be missing; one of the wrong shape is refused. -/
def optional? {α : Type} (read : Toml → Option α) (value : Option Toml) : Option (Option α) :=
  match value with
  | none => some none
  | some value => (read value).map some

/-- The severity in a string, or in a table whose only key names it with an empty collection. -/
def severity? : Toml → Option Severity
  | .string name => Severity.ofName? name
  | .table [(name, .table [])] => Severity.ofName? name
  | .table [(name, .array [])] => Severity.ofName? name
  | _ => none

/-- The fields of a record in the given order, from a table with these keys or from an array. -/
def fields? (names : List String) : Toml → Option (List (Option Toml))
  | .array items =>
    some ((items.take names.length).map some ++ List.replicate (names.length - items.length) none)
  | value => value.entries?.map fun entries => names.map fun name => entries.lookup name

/-- A count that is not negative. -/
def count? (value : Toml) : Option Nat :=
  value.integer?.bind fun n => if 0 ≤ n then some n.toNat else none

/-- The selection of files in a section. -/
def fileSelection? (value : Toml) : Option FileSelection :=
  match fields? ["root", "exclude", "extensions", "respect_gitignore"] value with
  | some [root, exclude, extensions, respect] => do
    let standard : FileSelection := {}
    return {
      root := ((← optional? Toml.string? root).map Path.mk).getD standard.root
      exclude := (← optional? Toml.strings? exclude).getD standard.exclude
      extensions := (← optional? Toml.strings? extensions).getD standard.extensions
      respectGitignore := (← optional? Toml.boolean? respect).getD standard.respectGitignore }
  | _ => none

/-- The options for scrubbing in a section. -/
def scrubOptions? (value : Toml) : Option ScrubOptions :=
  match fields? ["max_line_length", "assert_markers"] value with
  | some [maxLineLength, markers] => do
    let standard : ScrubOptions := {}
    return {
      maxLineLength := (← optional? count? maxLineLength).getD standard.maxLineLength
      assertMarkers := (← optional? Toml.strings? markers).getD standard.assertMarkers }
  | _ => none

/-- The settings of a rule in a section. -/
def ruleConfig? (value : Toml) : Option RuleConfig := do
  let entries ← value.entries?
  return {
    enabled := ← optional? Toml.boolean? (entries.lookup "enabled")
    severity := ← optional? severity? (entries.lookup "severity")
    -- All other keys belong to the rule itself.
    options := ← Toml.entriesWithDateTimes?
      (entries.filter fun entry => entry.1 != "enabled" && entry.1 != "severity") }

/-- The sections of all rules. -/
def ruleConfigs? (value : Toml) : Option (List (String × RuleConfig)) := do
  (← value.entries?).mapM fun entry => (ruleConfig? entry.2).map fun config => (entry.1, config)

/-- The configuration in a TOML text. Unknown keys are ignored; values of the wrong shape are
refused. -/
def parse? (text : String) : Option Config := do
  let entries ← Toml.document? text
  return {
    preset := ← optional? Toml.string? (entries.lookup "preset")
    failOn := ← optional? severity? (entries.lookup "fail_on")
    analyzer := (← optional? fileSelection? (entries.lookup "analyzer")).getD {}
    scrub := (← optional? scrubOptions? (entries.lookup "scrub")).getD {}
    rules := (← optional? ruleConfigs? (entries.lookup "rules")).getD [] }

end Config
end BracketLint
