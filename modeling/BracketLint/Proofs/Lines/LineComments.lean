import BracketLint.AllowDirective
import BracketLint.Proofs.Line.CommentStart
import BracketLint.Proofs.Lines.Carry
import BracketLint.Proofs.Text.Boundary

/-!
The line comments of a file. The scan hands over what it has not read when it comes to two slashes,
so the text of a comment is that of the raw line behind them, whatever is blanked in front of them.
The tables of comments, columns and end tags and the check for directives thus read one text.
-/

namespace BracketLint

section Scan

variable {mode : ScanMode} {before rest body : Bytes} {column : Nat}

/-- The scan leaves the text of a comment as it is and cuts the line in front of its slashes, but for
one byte. -/
theorem hasMark_of_comment_scanFrom
    (h : (scanFrom mode before rest).comment = some (column, body)) :
    ∃ offset, column = before.length + offset ∧ HasMark rest Ascii.slash Ascii.slash offset ∧
      body = rest.drop (offset + 2) ∧ (scanFrom mode before rest).text.length ≤ column + 1 ∧
      (scanFrom mode before rest).mode = .code := by
  induction rest generalizing mode before with
  | nil => cases mode <;> cases h
  | cons b rest ih =>
    rw [scanFrom_cons] at h ⊢
    cases hstep : mode.step? before b rest with
    | none =>
      rw [hstep] at h
      cases h
      refine ⟨0, rfl, ?_, List.drop_one.symm, ?_, rfl⟩
      · exact (hasMark_zero_iff b rest).mpr (ScanMode.of_step?_eq_none hstep).2
      · rw [cutAtComment, List.length_append, List.length_reverse]
        split_ifs <;> simp
    | some step =>
      rw [hstep] at h
      dsimp only at h ⊢
      have hrest (h : (scanFrom step.mode (step.written :: before) rest).comment =
          some (column, body)) :
          ∃ offset, column = before.length + offset ∧
            HasMark (b :: rest) Ascii.slash Ascii.slash offset ∧
            body = (b :: rest).drop (offset + 2) ∧
            (scanFrom step.mode (step.written :: before) rest).text.length ≤ column + 1 ∧
            (scanFrom step.mode (step.written :: before) rest).mode = .code := by
        obtain ⟨offset, hcolumn, hbehind⟩ := ih h
        refine ⟨offset + 1, ?_, hbehind⟩
        rw [hcolumn, List.length_cons, Nat.add_right_comm, Nat.add_assoc]
      split_ifs at h ⊢
      · exact hrest h
      · exact hrest h

/-- The comment of a blanked line is that behind its slashes on the raw line. -/
theorem hasMark_of_comment_blankLine {index : Nat} {carry : Carry} {raw : Bytes}
    {comment : LineComment} (h : (blankLine index carry raw).comment = some comment) :
    ∃ column, HasMark raw Ascii.slash Ascii.slash column ∧
      comment = .ofBody column (raw.drop (column + 2)) ∧
      (blankLine index carry raw).text.length ≤ column + 1 := by
  rw [blankLine] at h ⊢
  split at h
  · cases h
  next hscanned =>
    rw [if_neg hscanned]
    have hcomment : (closeLine index raw (scanFrom carry.mode [] raw)).comment =
        (scanFrom carry.mode [] raw).comment.map fun c => LineComment.ofBody c.1 c.2 := by
      unfold closeLine
      dsimp only
      split
      · split_ifs <;> rfl
      · rfl
    rw [hcomment] at h
    obtain ⟨⟨column, body⟩, hscan, rfl⟩ := Option.map_eq_some_iff.mp h
    obtain ⟨offset, hcolumn, hmark, rfl, hlength, hmode⟩ := hasMark_of_comment_scanFrom hscan
    obtain rfl : column = offset := hcolumn.trans (Nat.zero_add offset)
    refine ⟨column, hmark, rfl, ?_⟩
    -- A comment leaves no literal open, so the line is closed without changes.
    unfold closeLine
    rw [hmode]
    exact hlength

end Scan

namespace Lines

/-- The column of the line comment on a line. -/
def commentColumn? (lines : Lines) (index : Nat) : Option Nat :=
  (lines.line index).comment.map (·.column)

/-- The kind of the line comment on a line. -/
def commentKind? (lines : Lines) (index : Nat) : Option CommentKind :=
  (lines.line index).comment.map (·.kind)

/-- The end tag in the line comment on a line. -/
def endTag? (lines : Lines) (index : Nat) : Option EndTag :=
  (lines.line index).comment.bind (·.endTag)

/-- The entries of a line with a line comment at a column agree with its raw text. -/
structure IsLineComment (lines : Lines) (index column : Nat) : Prop where
  mark : HasMark (lines.raw index) Ascii.slash Ascii.slash column
  kind : lines.commentKind? index =
    some (.ofBody (Bytes.decode ((lines.raw index).drop (column + 2))))
  endTag : lines.endTag? index = EndTag.ofBody (Bytes.decode ((lines.raw index).drop (column + 2)))
  length_text_le : (lines.text index).length ≤ column + 1
  isBoundary : (lines.raw index).IsBoundary (column + 2)
  allowDirective : lines.allowDirective? index =
    AllowDirective.ofBody? (Bytes.decode ((lines.raw index).drop (column + 2)))

section

variable {raws : List Bytes} (kind : FileKind) (options : ScrubOptions)

/-- The passes behind the blanking only cut lines short. -/
theorem prefix_of_getElem?_finalTexts {index : Nat} {text : Bytes} {line : BlankedLine}
    (htext : (finalTexts raws)[index]? = some text)
    (hline : (blankLines 1 .code raws)[index]? = some line) : text <+: line.text := by
  have htrimmed : (trimmedTexts raws)[index]? = some (Bytes.trimEnd line.text) := by
    rw [trimmedTexts, List.getElem?_map, hline]
    rfl
  obtain ⟨hlt, rfl⟩ := List.getElem?_eq_some_iff.mp htext
  obtain ⟨hlt', heq⟩ := List.getElem?_eq_some_iff.mp htrimmed
  have hprefix := (List.forall₂_iff_get.mp (shortened_finalTexts raws)).2 index hlt' hlt
  rw [List.get_eq_getElem, List.get_eq_getElem, heq] at hprefix
  exact hprefix.trans (Bytes.trimEnd_prefix _)

/-- The comment of a line is that behind its slashes on the raw line, in front of which the line is
cut off. -/
theorem hasMark_of_comment_ofRawLines {index : Nat} {comment : LineComment} :
    let lines := (ofRawLines raws kind options).1
    (lines.line index).comment = some comment → lines.raw index ∈ raws ∧
      HasMark (lines.raw index) Ascii.slash Ascii.slash comment.column ∧
      comment = .ofBody comment.column ((lines.raw index).drop (comment.column + 2)) ∧
      (lines.text index).length ≤ comment.column + 1 := by
  intro lines h
  cases index with
  | zero => cases h
  | succ index =>
    cases hraw : raws[index]? with
    | none =>
      rw [line_ofRawLines_of_le kind options raws (List.getElem?_eq_none_iff.mp hraw)] at h
      cases h
    | some raw =>
      obtain ⟨text, line, htext, hline, heq⟩ := line_ofRawLines kind options raws hraw
      have hprefix := prefix_of_getElem?_finalTexts htext hline
      rw [getElem?_blankLines 1 .code hraw, Option.some_inj] at hline
      subst hline
      rw [heq] at h
      obtain ⟨column, hmark, rfl, hlength⟩ := hasMark_of_comment_blankLine h
      rw [Lines.raw, Lines.text, heq]
      exact ⟨List.mem_of_getElem? hraw, hmark, rfl, Nat.le_trans hprefix.length_le hlength⟩

end

/-- Every line comment of a file stands where its column says, and its kind, its end tag and its
directive are read from the characters behind the two slashes. A line without one has none of them. -/
theorem scrub_isLineComment (source : String) (kind : FileKind) (options : ScrubOptions)
    (index : Nat) :
    let lines := (scrub (Bytes.ofString source) kind options).1
    (∀ column, lines.commentColumn? index = some column → lines.IsLineComment index column) ∧
      (lines.commentColumn? index = none → lines.commentKind? index = none ∧
        lines.endTag? index = none ∧ lines.allowDirective? index = none) := by
  intro lines
  constructor
  · intro column hcolumn
    obtain ⟨comment, hcomment, rfl⟩ := Option.map_eq_some_iff.mp hcolumn
    obtain ⟨hmem, hmark, hbody, hlength⟩ := hasMark_of_comment_ofRawLines kind options hcomment
    have htext : (lines.raw index).IsText := Bytes.isText_of_mem_lines_ofString source hmem
    refine ⟨hmark, ?_, ?_, hlength, htext.isBoundary_succ hmark.2 (by decide), ?_⟩
    · rw [commentKind?, hcomment, hbody]
      rfl
    · rw [endTag?, hcomment, hbody]
      rfl
    · rw [allowDirective?, hcomment]
      rfl
  · intro hnone
    have hcomment : (lines.line index).comment = none := Option.map_eq_none_iff.mp hnone
    rw [commentKind?, endTag?, allowDirective?, hcomment]
    exact ⟨rfl, rfl, rfl⟩

/-- Slashes in a literal and in a block comment start no line comment, and its column counts bytes. -/
example :
    let lines := (scrub (Bytes.ofString "é(\"//\"); /* // */ \x7d // end enum") .implementation {}).1
    lines.commentColumn? 1 = some 21 ∧ lines.commentKind? 1 = some .plain ∧
      lines.endTag? 1 = some ⟨some .enumBlock, none⟩ := by
  decide +kernel

end Lines
end BracketLint
