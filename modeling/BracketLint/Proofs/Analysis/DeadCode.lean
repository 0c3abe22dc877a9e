import Mathlib.Data.List.Basic
import BracketLint.Proofs.Analysis.SameCode
import BracketLint.Proofs.Lines.DeadRegion

/-!
Dead code is invisible to the analysis. Files that differ only in the body of a region that is never
compiled have the same code, and what the stages behind the scrubbing make of a file depends on
nothing else, but for the literals that name its blocks.
-/

namespace BracketLint

namespace Analysis

variable {source source' : Bytes} (kind : FileKind) (options : ScrubOptions)

/-- Dead code is invisible. In front of the directive that starts a region that is never compiled
nothing is open; then two bodies of equally many lines, which leave nothing open and hold no
directive that opens or ends a conditional, give the same code on every line, the same tree, the
same roles and names, and the same reports of all stages behind the scrubbing. What stands around
the region is arbitrary: it may lie in dead or unfinished conditionals itself. -/
theorem deadBody_invisible {front body body' behind : List Bytes}
    (hsource : Bytes.lines source.dropByteOrderMark = front ++ deadBlock body behind)
    (hsource' : Bytes.lines source'.dropByteOrderMark = front ++ deadBlock body' behind)
    (hfront : carryBehind .code front = .code) (hbody : IsDeadBody body)
    (hbody' : IsDeadBody body') (hlength : body.length = body'.length) :
    let analysis := ofSource source kind options
    let analysis' := ofSource source' kind options
    (∀ index, analysis.lines.text index = analysis'.lines.text index) ∧
      analysis.tree = analysis'.tree ∧
      (∀ id, analysis.kind id = analysis'.kind id ∧ analysis.name? id = analysis'.name? id) ∧
      ∀ stage ∈ [Stage.build, Stage.classify],
        Rule.stageDiagnostics stage analysis = Rule.stageDiagnostics stage analysis' := by
  intro analysis analysis'
  have hlines : analysis.lines =
      (Lines.ofRawLines (front ++ deadBlock body behind) kind options).1 := by
    rw [← hsource]
    rfl
  have hlines' : analysis'.lines =
      (Lines.ofRawLines (front ++ deadBlock body' behind) kind options).1 := by
    rw [← hsource']
    rfl
  have hsame : Lines.SameCode analysis.lines analysis'.lines := by
    rw [hlines, hlines']
    exact Lines.sameCode_ofRawLines kind options (by simp [deadBlock, hlength])
      (Lines.finalTexts_congr hfront hbody hbody' hlength)
  have hliterals : Lines.SameLiterals analysis.lines analysis'.lines := by
    rw [hlines, hlines']
    exact Lines.sameLiterals_of_raw
      (Lines.raw_eq_of_text_ne_nil kind options hfront hbody hlength)
  exact ofSource_sameCode hsame hliterals

/-- A body with brackets that close too much, against one with a comment. -/
theorem deadBody_invisible_brackets :
    let source := Bytes.ofString "int f() \x7b\n#if 0\n\x7d ( \"(\n#else \\\n#endif\n\x7d\n"
    let source' := Bytes.ofString "int f() \x7b\n#if 0\n\n#elif x /* ( */\n#endif\n\x7d\n"
    let front := [Bytes.ofString "int f() \x7b"]
    let body := [Bytes.ofString "\x7d ( \"(", Bytes.ofString "#else \\"]
    let body' := [[], Bytes.ofString "#elif x /* ( */"]
    let behind := [Bytes.ofString "\x7d"]
    Bytes.lines source.dropByteOrderMark = front ++ deadBlock body behind ∧
      Bytes.lines source'.dropByteOrderMark = front ++ deadBlock body' behind ∧
      carryBehind .code front = .code ∧ IsDeadBody body ∧ IsDeadBody body' ∧
      body.length = body'.length ∧
      (ofSource source .implementation {}).tree = (ofSource source' .implementation {}).tree := by
  intro source source' front body body' behind
  have hsource : Bytes.lines source.dropByteOrderMark = front ++ deadBlock body behind := by
    decide +kernel
  have hsource' : Bytes.lines source'.dropByteOrderMark = front ++ deadBlock body' behind := by
    decide +kernel
  have hfront : carryBehind .code front = .code := by decide +kernel
  have hbody : IsDeadBody body := ⟨by decide +kernel, by decide +kernel⟩
  have hbody' : IsDeadBody body' := ⟨by decide +kernel, by decide +kernel⟩
  have h := deadBody_invisible .implementation {} hsource hsource' hfront hbody hbody' rfl
  exact ⟨hsource, hsource', hfront, hbody, hbody', rfl, h.2.1⟩

end Analysis
end BracketLint
