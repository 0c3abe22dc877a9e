import BracketLint.Config
import BracketLint.Rule

/-!
Sets of rules, and the rules that a configuration selects.
-/

namespace BracketLint

/-- Sets of rules with names. -/
inductive Preset
  | recommended
  | strict
  | minimal
  deriving DecidableEq, Repr

namespace Preset

/-- The set that a word names. -/
def ofName? : String → Option Preset
  | "recommended" => some recommended
  | "strict" => some strict
  | "minimal" => some minimal
  | _ => none

/-- The rules of a set. -/
def rules : Preset → List Rule
  | recommended =>
    [.bracketStructure, .strangeContext false [], .sourceHygiene false,
      .routineLength 150 true .warning]
  | strict =>
    [.bracketStructure, .strangeContext false [], .sourceHygiene false,
      .routineLength 80 false .warning, .nestingDepth 4 false .warning]
  | minimal => [.bracketStructure]

end Preset

namespace Rule

/-- The rule with its usual settings that has a name or a code. -/
def ofName? (name : String) : Option Rule :=
  all.find? fun rule => rule.name == name || rule.code == name

/-- A rule with the settings from its section. -/
def configured (rule : Rule) (config : RuleConfig) : Rule :=
  match rule with
  | bracketStructure => bracketStructure
  | strangeContext .. =>
    strangeContext (config.bool "allow_in_tests" false) (config.strings "ignore_macros")
  | sourceHygiene _ => sourceHygiene (config.bool "allow_in_tests" false)
  | routineLength .. =>
    routineLength (config.positive "max_lines" 150) (config.bool "allow_in_tests" true) .warning
  | nestingDepth .. =>
    nestingDepth (config.positive "max_depth" 5) (config.bool "allow_in_tests" false) .warning

end Rule

namespace Config

/-- The rule with a name or a code, with the settings from the section for its name. -/
def ruleNamed? (config : Config) (name : String) : Option Rule :=
  (Rule.ofName? name).map fun rule => rule.configured ((config.rule? rule.name).getD {})

/-- The set of rules that a configuration starts from. -/
def presetOf (config : Config) : Preset :=
  (config.preset.bind Preset.ofName?).getD .recommended

/-- The rules of the set, those with a section of their own with the settings from it. -/
def presetRules (config : Config) : List Rule :=
  config.presetOf.rules.map fun rule =>
    if (config.rule? rule.name).isSome then (config.ruleNamed? rule.name).getD rule else rule

/-- The names of further sections that enable a rule, in order. -/
def extraNames (config : Config) : List String :=
  let names := (config.rules.filter fun entry => entry.2.enabled == some true).map (·.1)
  (names.filter fun name => !config.presetRules.any (·.name == name)).mergeSort fun a b => a ≤ b

/-- The rules that a configuration selects: those of its set and those that further sections
enable. -/
def selectedRules (config : Config) : List Rule :=
  config.presetRules ++ config.extraNames.filterMap config.ruleNamed?

end Config
end BracketLint
