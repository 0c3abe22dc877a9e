import BracketLint.Proofs.Preset
import BracketLint.Proofs.Rule.Limits

/-!
What the section of a rule does to it. A rule with a section takes all of its settings from there, and
those that are missing are the usual ones, not those of the set that the rule is from.
-/

namespace BracketLint

namespace Rule

/-- Only the options of a section are settings of the rule. -/
theorem configured_congr (rule : Rule) {settings settings' : RuleConfig}
    (h : settings.options = settings'.options) :
    rule.configured settings = rule.configured settings' := by
  obtain ⟨enabled, severity, options⟩ := settings
  obtain ⟨enabled', severity', options'⟩ := settings'
  obtain rfl : options = options' := h
  cases rule <;> rfl

theorem configured_mem_all (rule : Rule) : rule.configured {} ∈ all :=
  (ofName?_eq_some_iff.mp (ofName?_name rule)).1

theorem configured_eq_self_iff {rule : Rule} : rule.configured {} = rule ↔ rule ∈ all := by
  constructor
  · intro h
    rw [← h]
    exact configured_mem_all rule
  · have hall : ∀ rule ∈ all, rule.configured {} = rule := by decide
    exact hall rule

end Rule

namespace Config

variable {config : Config}

/-- A selected rule with a section has the settings of that section. -/
theorem configured_of_mem_selectedRules {selected : Rule}
    (hselected : selected ∈ config.selectedRules) {settings : RuleConfig}
    (hsettings : config.rule? selected.name = some settings) :
    selected.configured settings = selected := by
  rw [selectedRules, List.mem_append, presetRules_eq, List.mem_map, List.mem_filterMap] at hselected
  rcases hselected with ⟨rule, -, rfl⟩ | ⟨name, -, hname⟩
  · cases hsection : config.rule? rule.name with
    | none =>
      rw [hsection, Option.map_none, Option.getD_none, hsection] at hsettings
      cases hsettings
    | some own =>
      rw [hsection, Option.map_some, Option.getD_some, Rule.name_configured, hsection] at hsettings
      obtain rfl := Option.some.inj hsettings
      rw [Option.map_some, Option.getD_some, Rule.configured_configured]
  · rw [ruleNamed?, Option.map_eq_some_iff] at hname
    obtain ⟨rule, -, rfl⟩ := hname
    rw [Rule.name_configured] at hsettings
    rw [hsettings, Option.getD_some, Rule.configured_configured]

theorem exists_mem_selectedRules {rule : Rule} (hrule : rule ∈ config.presetOf.rules) :
    ∃ selected ∈ config.selectedRules, selected.name = rule.name := by
  have hname : rule.name ∈ config.presetRules.map Rule.name := by
    rw [map_name_presetRules]
    exact List.mem_map_of_mem hrule
  obtain ⟨selected, hselected, heq⟩ := List.mem_map.mp hname
  exact ⟨selected, List.mem_append_left _ hselected, heq⟩

/-- A section without options makes a rule one with the usual settings. -/
theorem eq_configured_of_mem_selectedRules {rule selected : Rule}
    (hselected : selected ∈ config.selectedRules) (hname : selected.name = rule.name)
    {settings : RuleConfig} (hsettings : config.rule? rule.name = some settings)
    (hoptions : settings.options = []) : selected = rule.configured {} := by
  rw [← hname] at hsettings
  calc selected
    _ = selected.configured settings :=
        (configured_of_mem_selectedRules hselected hsettings).symm
    _ = rule.configured settings := Rule.configured_eq_of_name_eq hname settings
    _ = rule.configured {} := Rule.configured_congr rule hoptions

end Config

/-- Whether two rules report the same on all files, with some options for scrubbing. -/
def Rule.Alike (options : ScrubOptions) (rule rule' : Rule) : Prop :=
  ∀ path root : Path, ∀ content : Bytes,
    let text := content.repaired
    let file := FileContext.ofFile path root text
    let analysis := Analysis.ofSource text file.kind options
    rule.check file analysis = rule'.check file analysis

/-- The usual settings make a difference to a rule of a set if it has other ones. -/
theorem Preset.alike_configured_iff (preset : Preset) (options : ScrubOptions) {rule : Rule}
    (hrule : rule ∈ preset.rules) : Rule.Alike options (rule.configured {}) rule ↔ rule ∈ Rule.all := by
  constructor
  · intro halike
    by_contra hall
    have hlimits : ∀ preset : Preset, ∀ rule ∈ preset.rules, rule ∉ Rule.all →
        rule = .routineLength 80 false .warning ∨ rule = .nestingDepth 4 false .warning := by
      intro preset
      cases preset <;> decide
    -- Both rules with limits notice the change on one file.
    have hkind : (FileContext.ofFile ⟨"/a.cpp"⟩ ⟨"/"⟩ deepText.repaired).kind = .implementation := by
      decide +kernel
    have hrepaired : deepText.repaired = deepText := by decide +kernel
    have hdeep := halike ⟨"/a.cpp"⟩ ⟨"/"⟩ deepText
    rw [hrepaired] at hdeep hkind
    rcases hlimits preset rule hrule hall with rfl | rfl
    · have hquiet := (check_routineLength_deepText 150 true .warning hkind options).mpr (by decide)
      have hloud := check_routineLength_deepText 80 false .warning hkind options
      rw [← hdeep] at hloud
      exact absurd (hloud.mp hquiet) (by decide)
    · have hquiet := (check_nestingDepth_deepText 5 false .warning hkind options).mpr (by decide)
      have hloud := check_nestingDepth_deepText 4 false .warning hkind options
      rw [← hdeep] at hloud
      exact absurd (hloud.mp hquiet) (by decide)
  · intro hall path root content
    rw [Rule.configured_eq_self_iff.mpr hall]

namespace Config

/-- A section without options for a rule of the set leaves what the rule reports as it is only if the
rule has the usual settings. The tighter limits of the strict set are lost. -/
theorem alike_iff_mem_all (config : Config) {rule : Rule} {settings : RuleConfig}
    (hrule : rule ∈ config.presetOf.rules) (hsettings : config.rule? rule.name = some settings)
    (hoptions : settings.options = []) :
    (∃ selected ∈ config.selectedRules, selected.name = rule.name) ∧
      ∀ selected ∈ config.selectedRules, selected.name = rule.name →
        selected ∈ Rule.all ∧ (Rule.Alike config.scrub selected rule ↔ rule ∈ Rule.all) := by
  refine ⟨exists_mem_selectedRules hrule, ?_⟩
  intro selected hselected hname
  rw [eq_configured_of_mem_selectedRules hselected hname hsettings hoptions]
  exact ⟨rule.configured_mem_all, config.presetOf.alike_configured_iff config.scrub hrule⟩

theorem alike_iff_mem_all_hygiene :
    let config : Config :=
      { preset := some "strict", rules := [("source-hygiene", { severity := some .info })] }
    let rule : Rule := .sourceHygiene false
    rule ∈ config.presetOf.rules ∧
      config.rule? rule.name = some { severity := some .info } ∧
      (∃ selected ∈ config.selectedRules, selected.name = rule.name) ∧
      ∀ selected ∈ config.selectedRules, selected.name = rule.name →
        Rule.Alike config.scrub selected rule := by
  intro config rule
  have hrule : rule ∈ config.presetOf.rules := by decide
  obtain ⟨hexists, hall⟩ := alike_iff_mem_all config hrule rfl rfl
  refine ⟨hrule, rfl, hexists, ?_⟩
  intro selected hselected hname
  exact (hall selected hselected hname).2.mpr (by decide)

/-- Another severity for the rule about nesting takes the limit of the strict set away. -/
theorem not_alike_of_severity :
    let config : Config :=
      { preset := some "strict", rules := [("nesting-depth", { severity := some .info })] }
    let rule : Rule := .nestingDepth 4 false .warning
    rule ∈ config.presetOf.rules ∧
      config.rule? rule.name = some { severity := some .info } ∧
      ∃ selected ∈ config.selectedRules, selected.name = rule.name ∧
        ¬Rule.Alike config.scrub selected rule := by
  intro config rule
  have hrule : rule ∈ config.presetOf.rules := by decide
  have hselected : rule.configured {} ∈ config.selectedRules := by decide
  refine ⟨hrule, rfl, _, hselected, rfl, ?_⟩
  rw [config.presetOf.alike_configured_iff config.scrub hrule]
  decide

end Config
end BracketLint
