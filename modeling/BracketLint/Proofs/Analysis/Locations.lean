import Mathlib.Data.List.Basic
import BracketLint.Rule
import BracketLint.Proofs.Group.Places
import BracketLint.Proofs.Lines.Carry
import BracketLint.Proofs.Text.Pieces

/-!
The offsets of violations. Scrubbing moves no column, lines are the fronts of the pieces between
line feeds, and the offset of a location counts these pieces, so the offset of a bracket in the
scrubbed lines is that of the same bracket in the file.
-/

namespace BracketLint

namespace FileContext

/-- A position on a line or right behind its end stands in the file so many bytes behind the pieces in
front of its line. -/
theorem offset_location (file : FileContext) {index column : Nat} {raw : Bytes}
    (hraw : (Bytes.lines file.content)[index]? = some raw) (hle : column ≤ raw.length) :
    ∃ piece, (Bytes.splitOnLineFeed file.content)[index]? = some piece ∧ raw <+: piece ∧
      (file.location (.on (index + 1) column)).offset =
        Bytes.lengthOfLines ((Bytes.splitOnLineFeed file.content).take index) + column := by
  obtain ⟨piece, hpiece, hstart⟩ := Bytes.exists_piece hraw
  refine ⟨piece, hpiece, hstart, ?_⟩
  simp only [location, Place.line, Place.column, offset, hpiece, Nat.add_sub_cancel]
  exact congrArg _ (Nat.min_eq_left (Nat.le_trans hle hstart.length_le))

/-- The offset of a position is that of the byte at its column. -/
theorem getElem?_offset (file : FileContext) {index column : Nat} {raw : Bytes} {b : UInt8}
    (hraw : (Bytes.lines file.content)[index]? = some raw) (hb : raw[column]? = some b) :
    file.content[(file.location (.on (index + 1) column)).offset]? = some b := by
  have hcolumn : column < raw.length := (List.getElem?_eq_some_iff.mp hb).1
  obtain ⟨piece, hpiece, hstart, hoffset⟩ := file.offset_location hraw (Nat.le_of_lt hcolumn)
  have hlt : column < piece.length := Nat.lt_of_lt_of_le hcolumn hstart.length_le
  obtain ⟨rest, rfl⟩ := hstart
  rw [hoffset, Bytes.getElem?_lengthOfLines _ _ hpiece hlt, List.getElem?_append_left hcolumn, hb]

end FileContext

namespace Lines

/-- A bracket of the scrubbed lines stands at the same column of the raw line. -/
theorem exists_raw_of_byteAt (raws : List Bytes) (kind : FileKind) (options : ScrubOptions)
    {p : Place} (hbracket : (Bracket.ofByte? ((ofRawLines raws kind options).1.byteAt p)).isSome) :
    ∃ index column raw, p = .on (index + 1) column ∧ raws[index]? = some raw ∧
      raw[column]? = some ((ofRawLines raws kind options).1.byteAt p) := by
  have hnul : (Bracket.ofByte? Ascii.nul).isSome = false := by decide
  have hfeed : (Bracket.ofByte? Ascii.lineFeed).isSome = false := by decide
  cases p with
  | front =>
    rw [byteAt, hnul] at hbracket
    cases hbracket
  | on line column =>
    rw [byteAt] at hbracket ⊢
    split at hbracket
    · rw [hnul] at hbracket
      cases hbracket
    next hline =>
    rw [if_neg hline]
    cases htext : ((ofRawLines raws kind options).1.text line)[column]? with
    | none =>
      rw [htext, Option.getD_none, hfeed] at hbracket
      cases hbracket
    | some b =>
      rw [htext, Option.getD_some] at hbracket
      have hkeeps := keepsColumns_ofRawLines kind options raws line
      have hraw := (hkeeps.byte_eq column b htext).resolve_right
        (not_isBlanking (Or.inl hbracket))
      cases line with
      -- There is nothing on the line in front of the file.
      | zero => cases hraw
      | succ index =>
        rw [raw_ofRawLines] at hraw
        cases hindex : raws[index]? with
        | none =>
          rw [hindex] at hraw
          cases hraw
        | some raw =>
          rw [hindex] at hraw
          exact ⟨index, column, raw, rfl, hindex, hraw⟩

end Lines

theorem Issue.isSome_ofByte? {issue : Issue} {b : UInt8} (h : issue.isAbout b = true) :
    (Bracket.ofByte? b).isSome = true := by
  cases issue with
  | unmatchedCloser shape =>
    rw [beq_iff_eq.mp h]
    cases shape <;> decide
  | braceClosesParen opened =>
    rw [beq_iff_eq.mp h]
    decide
  | parenInBrace opened =>
    rw [beq_iff_eq.mp h]
    decide
  | tooDeep limit =>
    rcases Bool.or_eq_true_iff.mp h with h | h
    · rw [beq_iff_eq.mp h]
      decide
    · rw [beq_iff_eq.mp h]
      decide
  | unclosed shape =>
    rw [beq_iff_eq.mp h]
    cases shape <;> decide
  | strangeBrace context =>
    rw [beq_iff_eq.mp h]
    decide
  | _ => cases h

/-- The report on a keyword reads differently from that on a brace. -/
theorem Issue.message_ne (word : String) (context : BraceContext) :
    (keywordOutsideBody word).message ≠ (strangeBrace context).message := by
  intro h
  have hlist : ("'" ++ word ++ "' outside of a code body").toList =
      ("strange context for '\x7b' after " ++ context.render).toList := congrArg String.toList h
  rw [String.toList_append, String.toList_append, String.toList_append] at hlist
  have hquote : "'".toList = ['\''] := rfl
  have hletter : "strange context for '\x7b' after ".toList =
      's' :: "trange context for '\x7b' after ".toList := by
    decide
  rw [hquote, hletter] at hlist
  simp at hlist

/-- What the rules need to know about the analysis of a file: the brackets of the scrubbed lines
stand in the file at the offsets of their positions, the later stages report keywords and at
brackets, and the groups that hold statements stand at two braces. -/
structure Analysis.Located (file : FileContext) (analysis : Analysis) : Prop where
  bracket : ∀ {p : Place} {b : UInt8}, analysis.lines.byteAt p = b →
    (Bracket.ofByte? b).isSome = true → file.content[(file.location p).offset]? = some b
  about : ∀ d ∈ analysis.diagnostics, d.stage ≠ .scrub →
    (∃ word, d.issue = .keywordOutsideBody word) ∨
      d.issue.isAbout (analysis.lines.byteAt d.place) = true
  body : ∀ {id : Nat}, (analysis.kind id).isExecutable = true →
    ∃ group, analysis.tree.group? id = some group ∧
      analysis.lines.byteAt group.opened = Ascii.openBrace ∧
      analysis.lines.byteAt group.closed = Ascii.closeBrace

theorem Analysis.located_ofSource (path root : Path) (content : Bytes) (options : ScrubOptions) :
    let file := FileContext.ofFile path root content
    (ofSource content file.kind options).Located file := by
  intro file
  refine ⟨fun hp hb => ?_, fun d hd hstage => ?_, Record.byteAt_of_isExecutable _⟩
  · subst hp
    obtain ⟨index, column, raw, rfl, hraw, hb⟩ :=
      Lines.exists_raw_of_byteAt (Bytes.lines content.dropByteOrderMark) file.kind options hb
    exact file.getElem?_offset hraw hb
  · have hparts : (ofSource content file.kind options).diagnostics =
        (Lines.scrub content file.kind options).2 ++
          (GroupTree.build (Lines.scrub content file.kind options).1).2 ++
          (ofSource content file.kind options).record.diagnostics := rfl
    rw [hparts, List.mem_append, List.mem_append] at hd
    rcases hd with (hd | hd) | hd
    · exact absurd (Lines.stage_of_mem_scrub hd) hstage
    · exact Or.inr (GroupTree.isAbout_of_mem_build _ hd)
    · exact Record.isAbout_of_mem_diagnostics _ hd

namespace Rule

variable {file : FileContext} {analysis : Analysis}

theorem mem_violations_of_mem_check {rule : Rule} {v : Violation}
    (hv : v ∈ rule.check file analysis) : v ∈ rule.violations file analysis := by
  rw [check] at hv
  split at hv
  · cases hv
  · exact hv

variable (hlocated : analysis.Located file)
include hlocated

theorem offset_of_isAbout {d : Diagnostic}
    (h : d.issue.isAbout (analysis.lines.byteAt d.place) = true) :
    ∃ b, file.content[(file.location d.place).offset]? = some b ∧ d.issue.isAbout b = true :=
  ⟨_, hlocated.bracket rfl (Issue.isSome_ofByte? h), h⟩

theorem offset_of_isExecutable {id : Nat} {group : Group}
    (hgroup : analysis.tree.group? id = some group)
    (h : (analysis.kind id).isExecutable = true) :
    file.content[(file.location group.opened).offset]? = some Ascii.openBrace ∧
      file.content[(file.location group.closed).offset]? = some Ascii.closeBrace := by
  obtain ⟨group', hgroup', hopened, hclosed⟩ := hlocated.body h
  obtain rfl := Option.some.inj (hgroup.symm.trans hgroup')
  exact ⟨hlocated.bracket hopened (by decide), hlocated.bracket hclosed (by decide)⟩

theorem offset_bracketStructure {v : Violation} (hv : v ∈ bracketStructure.check file analysis) :
    ∃ d ∈ stageDiagnostics .build analysis, v = ofDiagnostic bracketStructure file d ∧
      ∃ b, file.content[v.location.offset]? = some b ∧ d.issue.isAbout b = true := by
  obtain ⟨d, hd, rfl⟩ := List.mem_map.mp (mem_violations_of_mem_check hv)
  obtain ⟨hmem, hstage⟩ := List.mem_filter.mp hd
  rw [beq_iff_eq] at hstage
  rcases hlocated.about d hmem (by rw [hstage]; decide) with ⟨word, hword⟩ | habout
  · rw [Diagnostic.stage, hword] at hstage
    cases hstage
  · exact ⟨d, hd, rfl, offset_of_isAbout hlocated habout⟩

theorem offset_strangeContext {allow : Bool} {words : List String} {v : Violation}
    (hv : v ∈ (strangeContext allow words).check file analysis) {context : BraceContext}
    (hmessage : v.message = (Issue.strangeBrace context).message) :
    file.content[v.location.offset]? = some Ascii.openBrace := by
  obtain ⟨d, hd, rfl⟩ := List.mem_map.mp (mem_violations_of_mem_check hv)
  obtain ⟨hmem, hstage⟩ := List.mem_filter.mp (List.mem_of_mem_filter hd)
  rw [beq_iff_eq] at hstage
  rcases hlocated.about d hmem (by rw [hstage]; decide) with ⟨word, hword⟩ | habout
  · rw [ofDiagnostic, Diagnostic.message, hword] at hmessage
    exact absurd hmessage (Issue.message_ne word context)
  · obtain ⟨b, hb, habout⟩ := offset_of_isAbout hlocated habout
    -- Keywords are about no bracket, so only a brace is left to be reported by this stage.
    obtain ⟨place, issue⟩ := d
    cases issue with
    | strangeBrace _ =>
      rw [← beq_iff_eq.mp habout]
      exact hb
    | keywordOutsideBody _ => cases habout
    | _ => cases hstage

theorem offset_routineLength {maxLines : Nat} {allow : Bool} {severity : Severity} {v : Violation}
    (hv : v ∈ (routineLength maxLines allow severity).check file analysis) :
    file.content[v.location.offset]? = some Ascii.openBrace ∧
      ∃ label, v.labels = [label] ∧ label.message = "body ends here" ∧
        file.content[label.location.offset]? = some Ascii.closeBrace := by
  obtain ⟨id, -, hid⟩ := List.mem_filterMap.mp (mem_violations_of_mem_check hv)
  obtain ⟨group, hgroup, hid⟩ := Option.bind_eq_some_iff.mp hid
  split at hid
  · cases hid
  next hkind =>
  split at hid
  · cases hid
  cases hid
  have hroutine : analysis.kind id = .routineBody := by
    simp only [Bool.or_eq_true, bne_iff_ne, not_or, not_not] at hkind
    exact hkind.1
  obtain ⟨hopened, hclosed⟩ := offset_of_isExecutable hlocated hgroup (by rw [hroutine]; rfl)
  exact ⟨hopened, _, rfl, rfl, hclosed⟩

theorem offset_nestingDepth {maxDepth : Nat} {allow : Bool} {severity : Severity} {v : Violation}
    (hv : v ∈ (nestingDepth maxDepth allow severity).check file analysis) :
    file.content[v.location.offset]? = some Ascii.openBrace := by
  obtain ⟨id, -, hid⟩ := List.mem_filterMap.mp (mem_violations_of_mem_check hv)
  obtain ⟨group, hgroup, hid⟩ := Option.bind_eq_some_iff.mp hid
  split at hid
  · cases hid
  next hkind =>
  obtain ⟨depth, -, hid⟩ := Option.bind_eq_some_iff.mp hid
  split at hid
  · cases hid
  cases hid
  have hblock : analysis.kind id = .codeBody := by
    simpa only [bne_iff_ne, not_not] using hkind
  exact (offset_of_isExecutable hlocated hgroup (by rw [hblock]; rfl)).1

omit hlocated

/-- Every violation of a rule about brackets carries the offset of the bracket in question. In the
text of the file, without a byte order mark, the offset of a report on the structure is that of the
bracket it is about, and that of a reported body, block or strange brace is that of its opening
brace. The label of a long body carries the offset of its closing brace. -/
theorem check_offset (path root : Path) (content : Bytes) (options : ScrubOptions) :
    let file := FileContext.ofFile path root content
    let analysis := Analysis.ofSource content file.kind options
    (∀ v ∈ bracketStructure.check file analysis, ∃ d ∈ stageDiagnostics .build analysis,
      v = ofDiagnostic bracketStructure file d ∧
        ∃ b, file.content[v.location.offset]? = some b ∧ d.issue.isAbout b = true) ∧
    (∀ allow words, ∀ v ∈ (strangeContext allow words).check file analysis, ∀ context,
      v.message = (Issue.strangeBrace context).message →
        file.content[v.location.offset]? = some Ascii.openBrace) ∧
    (∀ maxLines allow severity, ∀ v ∈ (routineLength maxLines allow severity).check file analysis,
      file.content[v.location.offset]? = some Ascii.openBrace ∧
        ∃ label, v.labels = [label] ∧ label.message = "body ends here" ∧
          file.content[label.location.offset]? = some Ascii.closeBrace) ∧
    ∀ maxDepth allow severity, ∀ v ∈ (nestingDepth maxDepth allow severity).check file analysis,
      file.content[v.location.offset]? = some Ascii.openBrace := by
  intro file analysis
  have hlocated : analysis.Located file := Analysis.located_ofSource path root content options
  refine ⟨fun v hv => ?_, fun allow words v hv context hmessage => ?_,
    fun maxLines allow severity v hv => ?_, fun maxDepth allow severity v hv => ?_⟩
  · exact offset_bracketStructure hlocated hv
  · exact offset_strangeContext hlocated hv hmessage
  · exact offset_routineLength hlocated hv
  · exact offset_nestingDepth hlocated hv

end Rule

end BracketLint
