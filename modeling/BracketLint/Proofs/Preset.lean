import Mathlib.Data.List.Nodup
import Mathlib.Data.List.Pairwise
import BracketLint.Preset

/-!
Which rules a configuration selects. A rule answers to its name and to its code, but only its name is
looked for among the rules of the set, so a section for a code that enables its rule brings the rule
a second time.
-/

namespace BracketLint

namespace Rule

@[simp]
theorem name_configured (rule : Rule) (settings : RuleConfig) :
    (rule.configured settings).name = rule.name := by
  cases rule <;> rfl

/-- The settings of a section replace all settings of a rule. -/
@[simp]
theorem configured_configured (rule : Rule) (settings settings' : RuleConfig) :
    (rule.configured settings).configured settings' = rule.configured settings' := by
  cases rule <;> rfl

theorem ofName?_name (rule : Rule) : ofName? rule.name = some (rule.configured {}) := by
  cases rule <;> rfl

theorem configured_eq_of_name_eq {rule rule' : Rule} (h : rule.name = rule'.name)
    (settings : RuleConfig) : rule.configured settings = rule'.configured settings := by
  have hstandard := ofName?_name rule
  rw [h, ofName?_name, Option.some.injEq] at hstandard
  calc rule.configured settings
    _ = (rule.configured {}).configured settings := (configured_configured rule {} settings).symm
    _ = (rule'.configured {}).configured settings := by rw [hstandard]
    _ = rule'.configured settings := configured_configured rule' {} settings

/-- A rule of the list of all rules is found under its name and under its code. -/
theorem ofName?_eq_some_iff {name : String} {rule : Rule} :
    ofName? name = some rule ↔ rule ∈ all ∧ (name = rule.name ∨ name = rule.code) := by
  constructor
  · intro h
    have hfound := List.find?_some h
    rw [Bool.or_eq_true, beq_iff_eq, beq_iff_eq] at hfound
    exact ⟨List.mem_of_find?_eq_some h, hfound.imp Eq.symm Eq.symm⟩
  · have hall : ∀ rule ∈ all, ofName? rule.name = some rule ∧ ofName? rule.code = some rule := by
      decide
    rintro ⟨hrule, rfl | rfl⟩
    · exact (hall rule hrule).1
    · exact (hall rule hrule).2

/-- The name of the rule that a name or a code stands for. -/
def nameOf? (name : String) : Option String := (ofName? name).map Rule.name

theorem nameOf?_name (rule : Rule) : nameOf? rule.name = some rule.name := by
  rw [nameOf?, ofName?_name, Option.map_some, name_configured]

theorem nameOf?_eq_some_iff {name ruleName : String} : nameOf? name = some ruleName ↔
    ∃ rule ∈ all, rule.name = ruleName ∧ (name = rule.name ∨ name = rule.code) := by
  rw [nameOf?, Option.map_eq_some_iff]
  simp only [ofName?_eq_some_iff]
  constructor
  · rintro ⟨rule, ⟨hrule, hname⟩, h⟩
    exact ⟨rule, hrule, h, hname⟩
  · rintro ⟨rule, hrule, h, hname⟩
    exact ⟨rule, ⟨hrule, hname⟩, h⟩

end Rule

theorem nodup_filterMap_iff {α β : Type} {f : α → Option β} {l : List α} (hl : l.Nodup) :
    (l.filterMap f).Nodup ↔ ∀ a ∈ l, ∀ a' ∈ l, ∀ b, f a = some b → f a' = some b → a = a' := by
  rw [List.Nodup, List.pairwise_filterMap]
  constructor
  · intro h a ha a' ha' b hb hb'
    by_contra hne
    have hsymm : Std.Symm fun a a' => ∀ b, f a = some b → ∀ b', f a' = some b' → b ≠ b' :=
      ⟨fun a a' hdiff b hb b' hb' heq => hdiff b' hb' b hb heq.symm⟩
    exact h.forall ha ha' hne b hb b hb' rfl
  · intro h
    refine List.Pairwise.imp_of_mem ?_ hl
    rintro a a' ha ha' hne b hb b' hb' rfl
    exact hne (h a ha a' ha' b hb hb')

namespace Config

/-- Whether some section for a name enables a rule. -/
def enables (config : Config) (name : String) : Bool :=
  config.rules.any fun entry => entry.1 == name && entry.2.enabled == some true

/-- The names of the rules in the set that a configuration starts from. -/
def presetNames (config : Config) : List String := config.presetOf.rules.map Rule.name

theorem ruleNamed?_name (config : Config) (rule : Rule) : config.ruleNamed? rule.name =
    some (rule.configured ((config.rule? rule.name).getD {})) := by
  rw [ruleNamed?, Rule.ofName?_name, Option.map_some, Rule.name_configured,
    Rule.configured_configured]

theorem map_name_ruleNamed? (config : Config) (name : String) :
    (config.ruleNamed? name).map Rule.name = Rule.nameOf? name := by
  rw [ruleNamed?, Option.map_map, Rule.nameOf?]
  exact Option.map_congr fun rule _ => Rule.name_configured rule _

/-- The rules of the set take the settings from their sections, if they have some. -/
theorem presetRules_eq (config : Config) : config.presetRules = config.presetOf.rules.map
    fun rule => ((config.rule? rule.name).map rule.configured).getD rule := by
  rw [presetRules]
  apply List.map_congr_left
  intro rule _
  rw [ruleNamed?_name]
  cases config.rule? rule.name <;> rfl

theorem map_name_presetRules (config : Config) :
    config.presetRules.map Rule.name = config.presetNames := by
  rw [presetRules_eq, List.map_map, presetNames]
  apply List.map_congr_left
  intro rule _
  rw [Function.comp_apply]
  cases config.rule? rule.name with
  | none => rfl
  | some settings => exact Rule.name_configured rule settings

theorem mem_extraNames_iff {config : Config} {name : String} :
    name ∈ config.extraNames ↔ config.enables name = true ∧ name ∉ config.presetNames := by
  have hpreset : (!config.presetRules.any (·.name == name)) = true ↔ name ∉ config.presetNames := by
    rw [← map_name_presetRules, Bool.not_eq_true', List.any_eq_false, List.mem_map]
    simp
  have henables : name ∈ (config.rules.filter fun entry => entry.2.enabled == some true).map (·.1) ↔
      config.enables name = true := by
    simp [enables, List.any_eq_true, and_comm]
  rw [extraNames, List.mem_mergeSort, List.mem_filter, hpreset, henables]

theorem nodup_extraNames {config : Config} (hkeys : (config.rules.map (·.1)).Nodup) :
    config.extraNames.Nodup := by
  rw [extraNames, (List.mergeSort_perm _ _).nodup_iff]
  have hsections : (config.rules.filter fun entry => entry.2.enabled == some true).Sublist
      config.rules := List.filter_sublist
  exact (hkeys.sublist (hsections.map _)).filter _

theorem nodup_presetNames (config : Config) : config.presetNames.Nodup := by
  rw [presetNames]
  cases config.presetOf <;> decide

/-- The names and codes under which rules are selected. -/
def selectedKeys (config : Config) : List String := config.presetNames ++ config.extraNames

theorem mem_selectedKeys_iff {config : Config} {name : String} :
    name ∈ config.selectedKeys ↔ name ∈ config.presetNames ∨ config.enables name = true := by
  rw [selectedKeys, List.mem_append, mem_extraNames_iff]
  tauto

theorem nodup_selectedKeys {config : Config} (hkeys : (config.rules.map (·.1)).Nodup) :
    config.selectedKeys.Nodup := by
  rw [selectedKeys, List.nodup_append]
  refine ⟨config.nodup_presetNames, nodup_extraNames hkeys, ?_⟩
  rintro name hname _ hextra rfl
  exact (mem_extraNames_iff.mp hextra).2 hname

theorem map_name_selectedRules (config : Config) :
    config.selectedRules.map Rule.name = config.selectedKeys.filterMap Rule.nameOf? := by
  have hpreset : config.presetNames.filterMap Rule.nameOf? = config.presetNames := by
    rw [presetNames, List.filterMap_map, ← List.filterMap_eq_map]
    exact List.filterMap_congr fun rule _ => Rule.nameOf?_name rule
  have hextra : (config.extraNames.filterMap config.ruleNamed?).map Rule.name =
      config.extraNames.filterMap Rule.nameOf? := by
    rw [List.map_filterMap]
    exact List.filterMap_congr fun name _ => config.map_name_ruleNamed? name
  rw [selectedRules, List.map_append, map_name_presetRules, hextra, selectedKeys,
    List.filterMap_append, hpreset]

theorem code_notMem_presetNames (config : Config) :
    ∀ rule ∈ Rule.all, rule.code ∉ config.presetNames := by
  rw [presetNames]
  cases config.presetOf <;> decide

/-- The selected rules have different names if no section enables a rule under its code that is
selected under its name as well. -/
theorem nodup_names_selectedRules_iff (config : Config)
    (hkeys : (config.rules.map (·.1)).Nodup) :
    (config.selectedRules.map Rule.name).Nodup ↔
      ∀ rule ∈ Rule.all, config.enables rule.code = true →
        rule.name ∉ config.presetOf.rules.map Rule.name ∧ config.enables rule.name = false := by
  have hnames : ∀ rule ∈ Rule.all, ∀ rule' ∈ Rule.all, rule.name = rule'.name → rule = rule' := by
    decide
  have hcode : ∀ rule ∈ Rule.all, rule.name ≠ rule.code := by decide
  rw [map_name_selectedRules, nodup_filterMap_iff (nodup_selectedKeys hkeys)]
  constructor
  · intro h rule hrule henables
    have hcodeKey := mem_selectedKeys_iff.mpr (.inr henables)
    have hbyName : Rule.nameOf? rule.name = some rule.name := Rule.nameOf?_name rule
    have hbyCode : Rule.nameOf? rule.code = some rule.name :=
      Rule.nameOf?_eq_some_iff.mpr ⟨rule, hrule, rfl, .inr rfl⟩
    have hnameKey : rule.name ∉ config.selectedKeys := fun hname =>
      hcode rule hrule (h _ hname _ hcodeKey _ hbyName hbyCode)
    rw [mem_selectedKeys_iff, not_or, Bool.not_eq_true] at hnameKey
    exact hnameKey
  · intro h
    -- Only the name and the code of one rule stand for the same rule.
    have hpair : ∀ rule ∈ Rule.all, rule.name ∈ config.selectedKeys →
        rule.code ∉ config.selectedKeys := by
      intro rule hrule hname hcodeKey
      have henables := (mem_selectedKeys_iff.mp hcodeKey).resolve_left
        (config.code_notMem_presetNames rule hrule)
      obtain ⟨hpreset, hdisabled⟩ := h rule hrule henables
      rcases mem_selectedKeys_iff.mp hname with hmem | hmem
      · exact hpreset hmem
      · rw [hdisabled] at hmem
        cases hmem
    intro key hkey key' hkey' name hname hname'
    obtain ⟨rule, hrule, rfl, hspelling⟩ := Rule.nameOf?_eq_some_iff.mp hname
    obtain ⟨rule', hrule', heq, hspelling'⟩ := Rule.nameOf?_eq_some_iff.mp hname'
    obtain rfl := hnames rule' hrule' rule hrule heq
    rcases hspelling with rfl | rfl <;> rcases hspelling' with rfl | rfl
    · rfl
    · exact absurd hkey' (hpair _ hrule hkey)
    · exact absurd hkey (hpair _ hrule hkey')
    · rfl

theorem nodup_names_selectedRules_minimal :
    let config : Config :=
      { preset := some "minimal", rules := [("CX005", { enabled := some true })] }
    (config.rules.map (·.1)).Nodup ∧ (config.selectedRules.map Rule.name).Nodup :=
  ⟨by decide, (nodup_names_selectedRules_iff _ (by decide)).mpr (by decide)⟩

/-- The strict set holds the rule with the code CX005 already. -/
theorem names_selectedRules_not_nodup :
    ∃ config, parse? "preset = \"strict\"\n[rules.CX005]\nenabled = true\n" = some config ∧
      (config.rules.map (·.1)).Nodup ∧ ¬(config.selectedRules.map Rule.name).Nodup := by
  have hparse : (parse? "preset = \"strict\"\n[rules.CX005]\nenabled = true\n").any
      (fun config => decide ((config.rules.map (·.1)).Nodup ∧
        ¬(config.selectedRules.map Rule.name).Nodup)) = true := by
    decide +kernel
  generalize parse? _ = parsed at hparse ⊢
  cases parsed with
  | none => cases hparse
  | some config => exact ⟨config, rfl, of_decide_eq_true hparse⟩

end Config
end BracketLint
