import BracketLint.Proofs.Analysis.ReportedPlaces
import BracketLint.Proofs.Text.LineEnds

/-!
Checking a file with other line ends. The analysis sees only lines, so carriage returns in front of
the line feeds and a byte order mark leave it as it is. What the rules report stands on the lines of
the file, so each report keeps its line and column, and its offset grows by the carriage returns in
front of it.
-/

namespace BracketLint

/-- A location in the text with a carriage return in front of each line feed. -/
def Location.withReturns (location : Location) : Location :=
  { location with offset := location.offset + (location.line - 1) }

/-- A violation in the text with a carriage return in front of each line feed. -/
def Violation.withReturns (v : Violation) : Violation :=
  { v with
    location := v.location.withReturns
    labels := v.labels.map fun label => { label with location := label.location.withReturns } }

namespace FileContext

variable {file file' : FileContext}

/-- The offset of a position on a line grows by one for each line in front of it. -/
theorem location_withReturns (hrelative : file'.relative = file.relative)
    (hcontent : file'.content = Bytes.withReturns file.content) {p : Place}
    (hp : p.StandsOn (Bytes.lines file.content) 1) :
    file'.location p = (file.location p).withReturns := by
  obtain ⟨index, column, raw, rfl, hraw, hcolumn⟩ := hp
  obtain ⟨piece, hpiece, hstart⟩ := Bytes.exists_piece hraw
  obtain ⟨longer, hlonger, hstart'⟩ := Bytes.exists_getElem?_returnPieces hpiece
  have hle : column ≤ piece.length := Nat.le_trans hcolumn hstart.length_le
  have hle' : column ≤ longer.length := Nat.le_trans hle hstart'.length_le
  have hindex : index < (Bytes.splitOnLineFeed file.content).length :=
    (List.getElem?_eq_some_iff.mp hpiece).1
  have hoffset : file.offset (index + 1) (column + 1) =
      Bytes.lengthOfLines ((Bytes.splitOnLineFeed file.content).take index) + column := by
    simp only [offset, hpiece, Nat.add_sub_cancel]
    exact congrArg _ (Nat.min_eq_left hle)
  have hoffset' : file'.offset (index + 1) (column + 1) =
      file.offset (index + 1) (column + 1) + index := by
    have htake := Bytes.lengthOfLines_take_returnPieces hindex
    rw [hoffset]
    simp only [offset, hcontent, Bytes.splitOnLineFeed_withReturns, hlonger, Nat.add_sub_cancel,
      htake]
    rw [show Nat.min column longer.length = column from Nat.min_eq_left hle']
    omega
  rw [Nat.add_comm 1 index]
  simp only [location, Location.withReturns, Place.line, Place.column, hrelative, hoffset',
    Nat.add_sub_cancel]

end FileContext

namespace Rule

variable {file file' : FileContext} {analysis : Analysis} {rule : Rule}

theorem ofDiagnostic_withReturns {d : Diagnostic}
    (h : file'.location d.place = (file.location d.place).withReturns) :
    ofDiagnostic rule file' d = (ofDiagnostic rule file d).withReturns := by
  rw [ofDiagnostic, h]
  rfl

theorem map_ofDiagnostic_withReturns {found : List Diagnostic}
    (h : ∀ d ∈ found, file'.location d.place = (file.location d.place).withReturns) :
    found.map (ofDiagnostic rule file') =
      (found.map (ofDiagnostic rule file)).map Violation.withReturns := by
  rw [List.map_map]
  exact List.map_congr_left fun d hd => ofDiagnostic_withReturns (h d hd)

variable {raws : List Bytes} (hstands : analysis.StandsOn raws)
  (hlocation : ∀ {p : Place}, p.StandsOn raws 1 →
    file'.location p = (file.location p).withReturns)
include hstands hlocation

theorem longRoutine?_withReturns (maxLines : Nat) (severity : Severity) (id : Nat) :
    longRoutine? maxLines severity rule file' analysis id =
      (longRoutine? maxLines severity rule file analysis id).map Violation.withReturns := by
  unfold longRoutine?
  cases hgroup : analysis.tree.group? id with
  | none => rfl
  | some group =>
    dsimp only [Option.bind_eq_bind, Option.bind_some]
    split
    · rfl
    next hkind =>
    split
    · rfl
    have hroutine : analysis.kind id = .routineBody := by
      simp only [Bool.or_eq_true, bne_iff_ne, not_or, not_not] at hkind
      exact hkind.1
    obtain ⟨hopened, hclosed⟩ := hstands.body (by rw [hroutine]; rfl) hgroup
    rw [hlocation hopened, hlocation hclosed]
    rfl

theorem deepBlock?_withReturns (maxDepth : Nat) (severity : Severity) (id : Nat) :
    deepBlock? maxDepth severity rule file' analysis id =
      (deepBlock? maxDepth severity rule file analysis id).map Violation.withReturns := by
  unfold deepBlock?
  cases hgroup : analysis.tree.group? id with
  | none => rfl
  | some group =>
    dsimp only [Option.bind_eq_bind, Option.bind_some]
    split
    · rfl
    next hkind =>
    have hblock : analysis.kind id = .codeBody := by
      simpa only [bne_iff_ne, not_not] using hkind
    cases codeDepth? analysis id with
    | none => rfl
    | some depth =>
      dsimp only [Option.bind_some]
      split
      · rfl
      rw [hlocation (hstands.body (by rw [hblock]; rfl) hgroup).1]
      rfl

/-- Every report keeps its line and column and moves by the carriage returns in front of it. -/
theorem check_withReturns (hkind : file'.kind = file.kind) :
    rule.check file' analysis = (rule.check file analysis).map Violation.withReturns := by
  have hfound (d : Diagnostic) (hd : d ∈ analysis.diagnostics) :
      file'.location d.place = (file.location d.place).withReturns :=
    hlocation (hstands.found d hd)
  have hviolations : rule.violations file' analysis =
      (rule.violations file analysis).map Violation.withReturns := by
    cases rule with
    | bracketStructure | sourceHygiene _ =>
      exact map_ofDiagnostic_withReturns fun d hd => hfound d (List.mem_of_mem_filter hd)
    | strangeContext _ words =>
      exact map_ofDiagnostic_withReturns fun d hd =>
        hfound d (List.mem_of_mem_filter (List.mem_of_mem_filter hd))
    | routineLength maxLines _ severity =>
      rw [violations, violations, List.map_filterMap]
      exact List.filterMap_congr fun id _ =>
        longRoutine?_withReturns hstands hlocation maxLines severity id
    | nestingDepth maxDepth _ severity =>
      rw [violations, violations, List.map_filterMap]
      exact List.filterMap_congr fun id _ =>
        deepBlock?_withReturns hstands hlocation maxDepth severity id
  rw [check, check, hkind, hviolations]
  split
  · rfl
  · rfl

end Rule

namespace Analysis

/-- An analysis depends on the lines of the text alone. -/
theorem ofSource_eq_of_lines_eq {source source' : Bytes} (kind : FileKind) (options : ScrubOptions)
    (h : Bytes.lines source.dropByteOrderMark = Bytes.lines source'.dropByteOrderMark) :
    ofSource source kind options = ofSource source' kind options := by
  unfold ofSource Lines.scrub
  rw [h]

/-- Carriage returns in front of the line feeds and a byte order mark leave the analysis of a file as
it is. Of what the rules report they change the offsets alone, each by the number of lines in front
of it. -/
theorem lineEnds_invisible {content : Bytes} (h : Ascii.carriageReturn ∉ content)
    (path root : Path) (options : ScrubOptions) :
    let content' := Bytes.withByteOrderMark (Bytes.withReturns content)
    let file := FileContext.ofFile path root content
    let file' := FileContext.ofFile path root content'
    let analysis := ofSource content file.kind options
    let analysis' := ofSource content' file'.kind options
    analysis' = analysis ∧
      ∀ rule : Rule, rule.check file' analysis' =
          (rule.check file analysis).map Violation.withReturns ∧
        ∀ v ∈ rule.check file analysis, 1 ≤ v.location.line := by
  intro content' file file' analysis analysis'
  have hcontent : file'.content = Bytes.withReturns file.content :=
    Bytes.dropByteOrderMark_withByteOrderMark content
  have hreturn : Ascii.carriageReturn ∉ content.dropByteOrderMark := fun hmem =>
    h ((Bytes.dropByteOrderMark_suffix content).subset hmem)
  have hanalysis : analysis' = analysis := by
    apply ofSource_eq_of_lines_eq
    rw [Bytes.dropByteOrderMark_withByteOrderMark, Bytes.lines_withReturns hreturn]
  have hstands : analysis.StandsOn (Bytes.lines file.content) :=
    standsOn_ofSource content file.kind options
  refine ⟨hanalysis, fun rule => ⟨?_, fun v hv => ?_⟩⟩
  · rw [hanalysis]
    have hrelative : file'.relative = file.relative := rfl
    exact Rule.check_withReturns hstands
      (fun hp => FileContext.location_withReturns hrelative hcontent hp) rfl
  · obtain ⟨p, hlocation, offset, column, raw, rfl, -, -⟩ :=
      Rule.exists_place_of_mem_check hstands hv
    rw [hlocation]
    exact Nat.le_add_right 1 offset

/-- A bracket on the second line stands one byte further behind a carriage return. -/
theorem lineEnds_invisible_bracket :
    let content := Bytes.ofString "int x;\n  ("
    let content' := Bytes.withByteOrderMark (Bytes.withReturns content)
    let file := FileContext.ofFile ⟨"/m.cpp"⟩ ⟨"/"⟩ content
    let file' := FileContext.ofFile ⟨"/m.cpp"⟩ ⟨"/"⟩ content'
    Ascii.carriageReturn ∉ content ∧ content' = Bytes.ofString "\uFEFFint x;\r\n  (" ∧
      ((Rule.bracketStructure.check file (ofSource content file.kind {})).map (·.location.offset)) =
        [9] ∧
      ((Rule.bracketStructure.check file' (ofSource content' file'.kind {})).map
        (·.location.offset)) = [10] := by
  intro content content' file file'
  have hreturn : Ascii.carriageReturn ∉ content := by decide +kernel
  have hfound : Rule.bracketStructure.check file (ofSource content file.kind {}) =
      [⟨"CX001", "bracket-structure", .error, ⟨⟨"m.cpp"⟩, 2, 3, 9, 1⟩,
        "'(' is not closed before end of file", none, []⟩] := by
    decide +kernel
  obtain ⟨-, hall⟩ := lineEnds_invisible hreturn ⟨"/m.cpp"⟩ ⟨"/"⟩ {}
  refine ⟨hreturn, by decide +kernel, by rw [hfound]; rfl, ?_⟩
  rw [(hall .bracketStructure).1, hfound]
  rfl

end Analysis
end BracketLint
