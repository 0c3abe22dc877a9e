import BracketLint.Linter
import BracketLint.Proofs.Analysis.AllowComment
import BracketLint.Proofs.Analysis.ReportedPlaces

/-!
What directives and configured severities make of the violations of a file. Of two directives for a
violation the one on the line above counts, whether it gives a reason or not. A report about a missing
reason is a warning whatever severity the configuration gives to the rule, so a directive can only
make a run worse where a rule that requires reasons is configured to be milder than that.
-/

namespace BracketLint

namespace Lines

/-- The directives that name a rule, on the line above a line and on the line itself. -/
def applicable (lines : Lines) (rule : String) (index : Nat) : List AllowDirective :=
  [index - 1, index].filterMap (lines.directiveFor? rule)

theorem applicable_eq (lines : Lines) (rule : String) (index : Nat) :
    lines.applicable rule index =
      (lines.directiveFor? rule (index - 1)).toList ++ (lines.directiveFor? rule index).toList := by
  rw [applicable, List.filterMap_cons, List.filterMap_cons, List.filterMap_nil]
  cases lines.directiveFor? rule (index - 1) <;> cases lines.directiveFor? rule index <;> rfl

/-- The first directive for a violation counts. -/
theorem allowance_eq_head? (lines : Lines) (rule : String) (index : Nat) :
    lines.allowance index rule = match (lines.applicable rule index).head? with
      | some directive => .allowed directive.reason
      | none => .denied := by
  rw [allowance_eq, applicable_eq]
  cases lines.directiveFor? rule (index - 1) <;> cases lines.directiveFor? rule index <;> rfl

theorem allowance_of_forall_none {lines : Lines} (h : ∀ index, lines.allowDirective? index = none)
    (rule : String) (index : Nat) : lines.allowance index rule = .denied := by
  rw [allowance_eq, directiveFor?, directiveFor?, h, h]
  rfl

end Lines

/-- What the matching of brackets reports is an error. -/
theorem Issue.severity_of_stage_build {issue : Issue} (h : issue.stage = .build) :
    issue.severity = .error := by
  cases issue <;> first | rfl | cases h

namespace Rule

variable {rule : Rule} {file : FileContext} {analysis : Analysis} {v : Violation}

/-- A rule reports under its name, and one that requires reasons reports errors only. -/
theorem rule_and_severity_of_mem_check (hv : v ∈ rule.check file analysis) :
    v.rule = rule.name ∧ (rule.requiresReason = true → v.severity = .error) := by
  have hmem := mem_violations_of_mem_check hv
  rw [requiresReason, beq_iff_eq]
  cases rule with
  | bracketStructure =>
    obtain ⟨d, hd, rfl⟩ := List.mem_map.mp hmem
    have hstage : d.issue.stage = .build := beq_iff_eq.mp (List.mem_filter.mp hd).2
    exact ⟨rfl, fun _ => Issue.severity_of_stage_build hstage⟩
  | strangeContext _ _ | sourceHygiene _ =>
    obtain ⟨d, -, rfl⟩ := List.mem_map.mp hmem
    refine ⟨rfl, fun h => ?_⟩
    cases h
  | routineLength maxLines _ severity =>
    obtain ⟨id, -, hid⟩ := List.mem_filterMap.mp hmem
    obtain ⟨group, -, -, -, hname, hseverity⟩ := exists_group_of_longRoutine? hid
    exact ⟨hname, hseverity.trans⟩
  | nestingDepth maxDepth _ severity =>
    obtain ⟨id, -, hid⟩ := List.mem_filterMap.mp hmem
    obtain ⟨group, -, -, -, hname, hseverity⟩ := exists_group_of_deepBlock? hid
    exact ⟨hname, hseverity.trans⟩

/-- Reports about missing reasons go under a name of their own. -/
theorem name_ne_withoutReason (rule : Rule) : rule.name ≠ Linter.withoutReason := by
  cases rule <;> simp [name, Linter.withoutReason]

end Rule

namespace Linter

/-- What a run shows of a violation: directives are read first, and then the configured severity. -/
def outcome (linter : Linter) (lines : Lines) (rule : Rule) (v : Violation) : Option Violation :=
  (settle rule lines v).map (withSeverity linter.config rule)

theorem findingsOf_eq_filterMap_outcome (linter : Linter) (file : FileContext) (analysis : Analysis)
    (rule : Rule) : linter.findingsOf file analysis rule =
      if linter.config.isRuleEnabled rule.name then
        (rule.check file analysis).filterMap (linter.outcome analysis.lines rule)
      else [] := by
  rw [findingsOf, List.map_filterMap]
  rfl

theorem settle_eq (rule : Rule) (lines : Lines) (v : Violation) : settle rule lines v =
    match (lines.applicable rule.name v.location.line).head? with
    | none => some v
    | some directive =>
      if rule.requiresReason && directive.reason.isNone then some (missingReason rule v) else none := by
  rw [settle, Lines.allowance_eq_head?]
  cases (lines.applicable rule.name v.location.line).head? <;> rfl

/-- A configured severity takes the place of the one that a rule gives. -/
theorem severity_withSeverity (config : Config) {rule : Rule} {v : Violation}
    (hv : v.rule = rule.name) : (withSeverity config rule v).severity =
      (config.ruleSeverity? rule.name).getD v.severity := by
  rw [withSeverity]
  cases config.ruleSeverity? rule.name with
  | none => rfl
  | some severity =>
    dsimp only
    rw [if_pos (beq_iff_eq.mpr hv)]
    rfl

/-- A report about a missing reason keeps its severity. -/
theorem withSeverity_missingReason (config : Config) (rule : Rule) (v : Violation) :
    withSeverity config rule (missingReason rule v) = missingReason rule v := by
  rw [withSeverity]
  cases config.ruleSeverity? rule.name with
  | none => rfl
  | some severity =>
    have hname : ((missingReason rule v).rule == rule.name) = false :=
      beq_eq_false_iff_ne.mpr rule.name_ne_withoutReason.symm
    dsimp only
    rw [hname]
    rfl

/-- Without directives a violation is shown with the configured severity. -/
theorem outcome_of_forall_none (linter : Linter) {lines : Lines}
    (h : ∀ index, lines.allowDirective? index = none) (rule : Rule) (v : Violation) :
    linter.outcome lines rule v = some (withSeverity linter.config rule v) := by
  rw [outcome, settle, Lines.allowance_of_forall_none h]
  rfl

/-- A warning is graver than an error whose severity is configured only if that is mild. -/
theorem not_warning_le_iff {configured : Option Severity} :
    ¬Severity.warning ≤ configured.getD .error ↔ configured = some .info := by
  cases configured with
  | none => decide
  | some severity => cases severity <;> decide

/-- Where a reason is missing, the warning about that is shown. -/
theorem outcome_of_missing (linter : Linter) {lines : Lines} {rule : Rule} {v : Violation}
    (hrequires : rule.requiresReason = true)
    (hallowed : lines.allowance v.location.line rule.name = .allowed none) :
    linter.outcome lines rule v = some (missingReason rule v) := by
  rw [outcome, settle, hallowed]
  dsimp only
  rw [hrequires]
  exact congrArg some (withSeverity_missingReason linter.config rule v)

/-- What a run shows of a violation is graver than the violation itself would be without directives
exactly if a reason is required and missing, and the rule is configured to be milder than the warning
about that. -/
theorem findings_le_iff (linter : Linter) (path : Path) (content : Bytes) :
    let text := content.repaired
    let file := FileContext.ofFile path linter.root text
    let analysis := Analysis.ofSource text file.kind linter.config.scrub
    (linter.findings path content = linter.rules.flatMap fun rule =>
      if linter.config.isRuleEnabled rule.name then
        (rule.check file analysis).filterMap (linter.outcome analysis.lines rule)
      else []) ∧
    ∀ rule : Rule, ∀ v ∈ rule.check file analysis, ∃ plain : Violation,
      (∀ lines : Lines, (∀ index, lines.allowDirective? index = none) →
        linter.outcome lines rule v = some plain) ∧
      ((∀ shown, linter.outcome analysis.lines rule v = some shown →
          shown.severity ≤ plain.severity) ↔
        ¬(rule.requiresReason = true ∧ linter.config.ruleSeverity? rule.name = some .info ∧
          analysis.lines.allowance v.location.line rule.name = .allowed none)) := by
  intro text file analysis
  refine ⟨?_, fun rule v hv => ?_⟩
  · exact congrArg linter.rules.flatMap
      (funext fun rule => linter.findingsOf_eq_filterMap_outcome file analysis rule)
  refine ⟨withSeverity linter.config rule v,
    fun lines hnone => linter.outcome_of_forall_none hnone rule v, ?_⟩
  obtain ⟨hname, herror⟩ := Rule.rule_and_severity_of_mem_check hv
  rw [severity_withSeverity linter.config hname]
  by_cases hmissing : rule.requiresReason = true ∧
      analysis.lines.allowance v.location.line rule.name = .allowed none
  · -- The warning about the missing reason stands in for an error.
    obtain ⟨hrequires, hallowed⟩ := hmissing
    rw [linter.outcome_of_missing hrequires hallowed, herror hrequires,
      ← not_warning_le_iff]
    simp [hrequires, hallowed, missingReason]
  · refine iff_of_true (fun shown hshown => ?_) fun h => hmissing ⟨h.1, h.2.2⟩
    -- No other report takes the place of the violation.
    have hsame : shown = withSeverity linter.config rule v := by
      rw [outcome, settle] at hshown
      cases hallowance : analysis.lines.allowance v.location.line rule.name with
      | denied =>
        rw [hallowance] at hshown
        exact (Option.some.inj hshown).symm
      | allowed reason =>
        rw [hallowance] at hshown
        dsimp only at hshown
        split at hshown
        · next h =>
          rw [Bool.and_eq_true, Option.isNone_iff_eq_none] at h
          exact absurd ⟨h.1, by rw [hallowance, h.2]⟩ hmissing
        · cases hshown
    rw [hsame, severity_withSeverity linter.config hname]
    exact Nat.le_refl _

/-- A linter for the matching of brackets with a configured severity. -/
def bracketLinter (severity : Severity) : Linter where
  root := ⟨"/"⟩
  rules := [.bracketStructure]
  excludes := []
  config := { rules := [("bracket-structure", { severity := some severity })] }

/-- A bracket that is never closed, on a line with a directive. -/
def allowedBracket : Bytes := Bytes.ofString "( // cxxlint: allow(bracket-structure)"

/-- The report on that bracket. -/
def allowedBracketReport : Violation where
  code := "CX001"
  rule := "bracket-structure"
  severity := .error
  location := ⟨⟨"m.cpp"⟩, 1, 1, 0, 1⟩
  message := "'(' is not closed before end of file"

theorem mem_check_allowedBracket :
    let file := FileContext.ofFile ⟨"/m.cpp"⟩ ⟨"/"⟩ allowedBracket.repaired
    allowedBracketReport ∈
      Rule.bracketStructure.check file (Analysis.ofSource allowedBracket.repaired file.kind {}) := by
  decide +kernel

theorem allowance_allowedBracket :
    let file := FileContext.ofFile ⟨"/m.cpp"⟩ ⟨"/"⟩ allowedBracket.repaired
    (Analysis.ofSource allowedBracket.repaired file.kind {}).lines.allowance 1 "bracket-structure" =
      .allowed none := by
  decide +kernel

theorem findings_le_iff_warning :
    let linter := bracketLinter .warning
    let file := FileContext.ofFile ⟨"/m.cpp"⟩ linter.root allowedBracket.repaired
    let analysis := Analysis.ofSource allowedBracket.repaired file.kind linter.config.scrub
    allowedBracketReport ∈ Rule.bracketStructure.check file analysis ∧
      linter.outcome analysis.lines .bracketStructure allowedBracketReport =
        some (missingReason .bracketStructure allowedBracketReport) ∧
      ∃ plain : Violation,
        (∀ lines : Lines, (∀ index, lines.allowDirective? index = none) →
          linter.outcome lines .bracketStructure allowedBracketReport = some plain) ∧
        (missingReason .bracketStructure allowedBracketReport).severity ≤ plain.severity := by
  intro linter file analysis
  have hshown : linter.outcome analysis.lines .bracketStructure allowedBracketReport =
      some (missingReason .bracketStructure allowedBracketReport) :=
    linter.outcome_of_missing rfl allowance_allowedBracket
  obtain ⟨-, hall⟩ := findings_le_iff linter ⟨"/m.cpp"⟩ allowedBracket
  obtain ⟨plain, hplain, hle⟩ := hall .bracketStructure _ mem_check_allowedBracket
  have hmild : linter.config.ruleSeverity? Rule.bracketStructure.name ≠ some .info := by decide
  exact ⟨mem_check_allowedBracket, hshown, plain, hplain,
    hle.mpr (fun h => hmild h.2.1) _ hshown⟩

/-- A directive without a reason turns a report that is configured to be an information into a
warning. -/
theorem outcome_graver_of_info :
    let linter := bracketLinter .info
    let file := FileContext.ofFile ⟨"/m.cpp"⟩ linter.root allowedBracket.repaired
    let analysis := Analysis.ofSource allowedBracket.repaired file.kind linter.config.scrub
    ∃ v ∈ Rule.bracketStructure.check file analysis, ∃ plain shown : Violation,
      (∀ lines : Lines, (∀ index, lines.allowDirective? index = none) →
        linter.outcome lines .bracketStructure v = some plain) ∧
      linter.outcome analysis.lines .bracketStructure v = some shown ∧
      ¬shown.severity ≤ plain.severity := by
  intro linter file analysis
  refine ⟨allowedBracketReport, mem_check_allowedBracket, _, _,
    fun lines hnone => linter.outcome_of_forall_none hnone _ _,
    linter.outcome_of_missing rfl allowance_allowedBracket, ?_⟩
  decide

/-- What directives make of a violation if a reason in any directive that names the rule counts. -/
structure IsSettled (rule : Rule) (applicable : List AllowDirective) (v : Violation)
    (result : Option Violation) : Prop where
  kept : applicable = [] → result = some v
  dropped : applicable ≠ [] →
    (rule.requiresReason = false ∨ ∃ directive ∈ applicable, directive.reason ≠ none) → result = none
  replaced : applicable ≠ [] → rule.requiresReason = true →
    (∀ directive ∈ applicable, directive.reason = none) →
      ∃ warning, result = some warning ∧ warning.rule = withoutReason ∧
        warning.severity = .warning ∧ warning.location = v.location

/-- A directive without a reason on the line above a violation hides the reason that the directive
on its own line gives. -/
structure HidesReason (lines : Lines) (rule : String) (index : Nat) : Prop where
  above : ∃ directive, lines.directiveFor? rule (index - 1) = some directive ∧
    directive.reason = none
  own : ∃ directive, lines.directiveFor? rule index = some directive ∧ directive.reason ≠ none

section Settle

variable (rule : Rule) (lines : Lines) (v : Violation)

/-- The first directive settles a violation as all of them would, unless its missing reason is given
by a further one. -/
theorem isSettled_iff {applicable : List AllowDirective}
    (hhead : applicable.head? = (lines.applicable rule.name v.location.line).head?) :
    IsSettled rule applicable v (settle rule lines v) ↔
      ¬(rule.requiresReason = true ∧ ∃ first others, applicable = first :: others ∧
        first.reason = none ∧ ∃ directive ∈ others, directive.reason ≠ none) := by
  rw [settle_eq, ← hhead]
  cases applicable with
  | nil =>
    refine iff_of_true ⟨fun _ => rfl, fun h => absurd rfl h, fun h => absurd rfl h⟩ ?_
    rintro ⟨-, first, others, h, -⟩
    cases h
  | cons first others =>
    rw [List.head?_cons]
    dsimp only
    by_cases hmissing : rule.requiresReason = true ∧ first.reason = none
    · -- The violation is replaced, which is right if no other directive gives a reason.
      obtain ⟨hrequires, hfirst⟩ := hmissing
      have hif : (rule.requiresReason && first.reason.isNone) = true := by
        rw [hrequires, hfirst]
        rfl
      rw [if_pos hif]
      constructor
      · rintro hsettled ⟨-, _, _, h, -, directive, hmem, hreason⟩
        cases h
        have hnone := hsettled.dropped (List.cons_ne_nil _ _)
          (Or.inr ⟨directive, List.mem_cons_of_mem _ hmem, hreason⟩)
        cases hnone
      · intro hothers
        refine ⟨nofun, fun _ hdrop => ?_, fun _ _ _ => ⟨_, rfl, rfl, rfl, rfl⟩⟩
        rcases hdrop with hfree | ⟨directive, hmem, hreason⟩
        · rw [hrequires] at hfree
          cases hfree
        · rcases List.mem_cons.mp hmem with rfl | hmem
          · exact absurd hfirst hreason
          · exact absurd ⟨hrequires, first, others, rfl, hfirst, directive, hmem, hreason⟩ hothers
    · -- The violation is dropped, as the first directive is enough.
      have hif : ¬(rule.requiresReason && first.reason.isNone) = true := by
        rwa [Bool.and_eq_true, Option.isNone_iff_eq_none]
      rw [if_neg hif]
      refine iff_of_true ⟨nofun, fun _ _ => rfl, fun _ hrequires hall => ?_⟩ ?_
      · exact absurd ⟨hrequires, hall first List.mem_cons_self⟩ hmissing
      · rintro ⟨hrequires, _, _, h, hfirst, -⟩
        cases h
        exact hmissing ⟨hrequires, hfirst⟩

theorem hidesReason_iff (rule : String) (index : Nat) : HidesReason lines rule index ↔
    ∃ first others, lines.applicable rule index = first :: others ∧ first.reason = none ∧
      ∃ directive ∈ others, directive.reason ≠ none := by
  rw [Lines.applicable_eq]
  constructor
  · rintro ⟨⟨above, habove, hnone⟩, own, hown, hreason⟩
    rw [habove, hown]
    exact ⟨above, [own], rfl, hnone, own, List.mem_singleton_self own, hreason⟩
  · rintro ⟨first, others, h, hnone, directive, hmem, hreason⟩
    cases habove : lines.directiveFor? rule (index - 1) with
    | none =>
      -- A directive on the line itself has no other one behind it.
      rw [habove] at h
      cases hown : lines.directiveFor? rule index <;> rw [hown] at h <;> cases h
      cases hmem
    | some above =>
      rw [habove] at h
      obtain ⟨rfl, rfl⟩ := List.cons.inj h
      have hown : directive ∈ lines.directiveFor? rule index := Option.mem_toList.mp hmem
      exact ⟨⟨_, habove, hnone⟩, directive, hown, hreason⟩

/-- The first of the directives that name the rule settles a violation. It is settled by all of them
together unless the rule requires a reason and a directive on the line above hides the one that is
given on the line itself. -/
theorem settle_isSettled :
    let applicable := lines.applicable rule.name v.location.line
    IsSettled rule (applicable.take 1) v (settle rule lines v) ∧
      (IsSettled rule applicable v (settle rule lines v) ↔
        ¬(rule.requiresReason = true ∧ HidesReason lines rule.name v.location.line)) := by
  intro applicable
  constructor
  · rw [isSettled_iff]
    · rintro ⟨-, first, others, h, -, directive, hmem, -⟩
      have hlength : others.length + 1 ≤ 1 := by
        rw [← List.length_cons, ← h]
        exact List.length_take_le 1 applicable
      obtain rfl := List.eq_nil_of_length_eq_zero (Nat.le_zero.mp (Nat.le_of_succ_le_succ hlength))
      cases hmem
    · rw [List.head?_take, if_neg Nat.one_ne_zero]
  · rw [hidesReason_iff]
    exact isSettled_iff rule lines v rfl

end Settle

/-- Two directives for a bracket that is never closed. The one on its own line gives a reason. -/
def twiceAllowedBracket : Bytes := Bytes.ofString
  "// cxxlint: allow(bracket-structure)\n( // cxxlint: allow(bracket-structure) reason=\"macro\""

/-- The reason on the line of the bracket does not count behind the directive above it. -/
theorem settle_not_isSettled :
    let file := FileContext.ofFile ⟨"/m.cpp"⟩ ⟨"/"⟩ twiceAllowedBracket
    let analysis := Analysis.ofSource twiceAllowedBracket file.kind {}
    ∃ v ∈ Rule.bracketStructure.check file analysis,
      ¬IsSettled .bracketStructure
        (analysis.lines.applicable "bracket-structure" v.location.line) v
        (settle .bracketStructure analysis.lines v) := by
  intro file analysis
  refine ⟨{ allowedBracketReport with location := ⟨⟨"m.cpp"⟩, 2, 1, 37, 1⟩ }, ?_, fun hsettled => ?_⟩
  · decide +kernel
  · have happlicable : analysis.lines.applicable "bracket-structure" 2 =
        [⟨["bracket-structure"], none⟩, ⟨["bracket-structure"], some "macro"⟩] := by
      decide +kernel
    have hsettle : (settle .bracketStructure analysis.lines
        { allowedBracketReport with location := ⟨⟨"m.cpp"⟩, 2, 1, 37, 1⟩ }).isSome = true := by
      decide +kernel
    have hdropped := hsettled.dropped (by rw [happlicable]; exact List.cons_ne_nil _ _)
      (Or.inr ⟨⟨["bracket-structure"], some "macro"⟩, by rw [happlicable]; simp, by simp⟩)
    rw [hdropped] at hsettle
    cases hsettle

end Linter
end BracketLint
