import Mathlib.Data.List.Basic
import BracketLint.Rule
import BracketLint.Proofs.Group.Agreement
import BracketLint.Proofs.Lines.Carry

/-!
What the stages behind the scrubbing make of a file depends on its code, and on nothing else but the
literals that name its blocks.
-/

namespace BracketLint.Analysis

variable {source source' : Bytes} {kind : FileKind} {options : ScrubOptions}

/-- Nothing that a later stage reports is reported by the scrubbing. -/
theorem stageDiagnostics_of_append {analysis : Analysis} {found : List Diagnostic}
    (h : analysis.diagnostics = (Lines.scrub source kind options).2 ++ found) {stage : Stage}
    (hstage : stage ≠ .scrub) :
    Rule.stageDiagnostics stage analysis = found.filter (·.stage == stage) := by
  have hscrub : (Lines.scrub source kind options).2.filter (·.stage == stage) = [] := by
    rw [List.filter_eq_nil_iff]
    intro d hd
    rw [Lines.stage_of_mem_scrub hd, beq_iff_eq]
    exact hstage.symm
  rw [Rule.stageDiagnostics, h, List.filter_append, hscrub, List.nil_append]

/-- Files with the same code and the same literals in it give the same groups, with the same roles and
names, and the same reports of all stages behind the scrubbing. -/
theorem ofSource_sameCode
    (hsame : Lines.SameCode (ofSource source kind options).lines
      (ofSource source' kind options).lines)
    (hliterals : Lines.SameLiterals (ofSource source kind options).lines
      (ofSource source' kind options).lines) :
    let analysis := ofSource source kind options
    let analysis' := ofSource source' kind options
    (∀ index, analysis.lines.text index = analysis'.lines.text index) ∧
      analysis.tree = analysis'.tree ∧
      (∀ id, analysis.kind id = analysis'.kind id ∧ analysis.name? id = analysis'.name? id) ∧
      ∀ stage ∈ [Stage.build, Stage.classify],
        Rule.stageDiagnostics stage analysis = Rule.stageDiagnostics stage analysis' := by
  intro analysis analysis'
  obtain ⟨htree, hkind, hname, found, hfound, hfound'⟩ := ofSource_agrees hsame
  refine ⟨hsame.text_eq, htree, fun id => ⟨hkind id, hname hliterals id⟩, fun stage hstage => ?_⟩
  have hne : stage ≠ .scrub := by
    rintro rfl
    simp at hstage
  rw [stageDiagnostics_of_append hfound hne, stageDiagnostics_of_append hfound' hne]

end BracketLint.Analysis
