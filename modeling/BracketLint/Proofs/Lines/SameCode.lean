import Mathlib.Data.List.Basic
import BracketLint.Lines.Stretch
import BracketLint.Proofs.Lines.Columns

/-!
What moving over scrubbed lines depends on. The raw text of a line, its comment and the kind of its
statement are never read: two files with the same code, that is with the same texts, indents and
ends of statements, look the same from every position.
-/

namespace BracketLint.Lines

/-- What holds at a position if it holds one step further holds everywhere. -/
theorem ahead_induction (lines : Lines) {motive : Place → Prop}
    (step : ∀ p, (lines.isAtStop p = false → motive (lines.next p)) → motive p) (p : Place) :
    motive p :=
  step p fun _ => ahead_induction lines step (lines.next p)
termination_by lines.stepsAhead p
decreasing_by exact lines.next_decreases (by assumption)

/-- What holds at a position if it holds at all positions nearer to the front holds everywhere. -/
theorem behind_induction (lines : Lines) {motive : Place → Prop}
    (step : ∀ p, (∀ q, lines.stepsBehind q < lines.stepsBehind p → motive q) → motive p)
    (p : Place) : motive p :=
  step p fun q _ => behind_induction lines step q
termination_by lines.stepsBehind p
decreasing_by assumption

/-- The lines of two files have the same texts and the same indents, and their statements end in the
same lines. -/
structure SameCode (lines lines' : Lines) : Prop where
  lastIndex_eq : lines.lastIndex = lines'.lastIndex
  text_eq : ∀ index, lines.text index = lines'.text index
  indent_eq : ∀ index, (lines.line index).indent = (lines'.line index).indent
  isStatementEnd_eq : ∀ index,
    (lines.line index).isStatementEnd = (lines'.line index).isStatementEnd

namespace SameCode

variable {lines lines' : Lines} (h : SameCode lines lines')
include h

theorem stop_eq : lines.stop = lines'.stop := by
  rw [stop, stop, h.lastIndex_eq]

theorem isAtStop_eq (p : Place) : lines.isAtStop p = lines'.isAtStop p := by
  rw [isAtStop, isAtStop, h.stop_eq]

theorem byteAt_eq (p : Place) : lines.byteAt p = lines'.byteAt p := by
  cases p with
  | front => rfl
  | on line column => rw [byteAt, byteAt, h.lastIndex_eq, h.text_eq]

theorem next_eq (p : Place) : lines.next p = lines'.next p := by
  cases p with
  | front => rfl
  | on line column => rw [next, next, h.lastIndex_eq, h.text_eq, h.stop_eq]

theorem prev_eq (p : Place) : lines.prev p = lines'.prev p := by
  match p with
  | .front => rfl
  | .on line (column + 1) => rw [prev, prev, h.text_eq]
  | .on 0 0 => rfl
  | .on (line + 1) 0 => rw [prev, prev, h.text_eq]

theorem skipSpaceBack_eq (p : Place) : lines.skipSpaceBack p = lines'.skipSpaceBack p := by
  fun_induction skipSpaceBack lines p with
  | case1 p hp ih =>
    rw [h.byteAt_eq] at hp
    rw [ih, h.prev_eq, skipSpaceBack.eq_def lines' p, dif_pos hp]
  | case2 p hp =>
    rw [h.byteAt_eq] at hp
    rw [skipSpaceBack, dif_neg hp]

theorem skipSpaceForward_eq (p : Place) :
    lines.skipSpaceForward p = lines'.skipSpaceForward p := by
  fun_induction skipSpaceForward lines p with
  | case1 p hp ih =>
    rw [h.isAtStop_eq, h.byteAt_eq] at hp
    rw [ih, h.next_eq, skipSpaceForward.eq_def lines' p, dif_pos hp]
  | case2 p hp =>
    rw [h.isAtStop_eq, h.byteAt_eq] at hp
    rw [skipSpaceForward, dif_neg hp]

theorem wordBefore_eq (p : Place) : lines.wordBefore p = lines'.wordBefore p := by
  simp only [wordBefore, h.skipSpaceBack_eq, h.byteAt_eq, h.text_eq]

theorem nameAfter_eq (p : Place) : lines.nameAfter p = lines'.nameAfter p := by
  simp only [nameAfter, h.skipSpaceForward_eq, h.isAtStop_eq, h.text_eq]

theorem firstLine_eq (index : Nat) : lines.firstLine index = lines'.firstLine index := by
  induction index with
  | zero => rfl
  | succ index ih => rw [firstLine, firstLine, h.isStatementEnd_eq, ih]

theorem passLine_eq (first last : Place) :
    lines.passLine first last = lines'.passLine first last := by
  funext scan line
  simp only [passLine, h.text_eq]

theorem statementStart_eq (p : Place) : lines.statementStart p = lines'.statementStart p := by
  cases p with
  | front => rfl
  | on line column =>
    simp only [statementStart, h.firstLine_eq, h.indent_eq, h.passLine_eq, h.skipSpaceForward_eq]

theorem nameBehindAngles_eq (p : Place) : ∀ angles parens,
    lines.nameBehindAngles angles parens p = lines'.nameBehindAngles angles parens p := by
  induction p using lines.ahead_induction with
  | step p ih =>
    intro angles parens
    rw [nameBehindAngles.eq_def lines, nameBehindAngles.eq_def lines', ← h.isAtStop_eq, ← h.stop_eq]
    split
    · next hp => simp only [← h.byteAt_eq, ← h.next_eq, ← h.nameAfter_eq, ih hp]
    · rfl

theorem nameInFrontOfAngles_eq (p : Place) : ∀ angles parens,
    lines.nameInFrontOfAngles angles parens p = lines'.nameInFrontOfAngles angles parens p := by
  induction p using lines.behind_induction with
  | step p ih =>
    intro angles parens
    rw [nameInFrontOfAngles.eq_def lines, nameInFrontOfAngles.eq_def lines']
    split
    · next hp =>
      have ih₁ := ih (lines.prev p) (lines.prev_decreases hp)
      by_cases ha : lines.byteAt (lines.prev p) = Ascii.hyphen
      · -- The arrow is passed by two steps at once.
        have hf : (lines.prev p).isFront = false :=
          isFront_eq_false_of_byteAt_ne (by rw [ha]; decide)
        have ih₂ := ih (lines.prev (lines.prev p))
          (Nat.lt_trans (lines.prev_decreases hf) (lines.prev_decreases hp))
        simp only [← h.byteAt_eq, ← h.prev_eq, ← h.wordBefore_eq, ih₁, ih₂]
      · simp only [← h.byteAt_eq, ← h.prev_eq, ← h.wordBefore_eq, dif_neg ha, ih₁]
    · rfl

theorem templateNameAfter_eq (p : Place) :
    lines.templateNameAfter p = lines'.templateNameAfter p := by
  simp only [templateNameAfter, h.skipSpaceForward_eq, h.byteAt_eq, h.nameBehindAngles_eq,
    h.nameAfter_eq]

theorem templateNameBefore_eq (p : Place) :
    lines.templateNameBefore p = lines'.templateNameBefore p :=
  h.nameInFrontOfAngles_eq p 0 0

theorem stretch_eq (first last : Place) :
    lines.stretch first last = lines'.stretch first last := by
  induction first using lines.ahead_induction with
  | step first ih =>
    rw [stretch.eq_def lines, stretch.eq_def lines', ← h.isAtStop_eq]
    split
    · next hp => rw [← h.byteAt_eq, ← h.next_eq, ih hp.1]
    · rfl

theorem holdsAssignment_eq (depth : Nat) (before : UInt8) (stretch : Stretch) :
    stretch.holdsAssignment lines depth before = stretch.holdsAssignment lines' depth before := by
  induction stretch generalizing depth before with
  | nil => rfl
  | cons entry stretch ih =>
    simp only [Stretch.holdsAssignment, ← h.byteAt_eq, ← h.next_eq, ih]

theorem namesIn_eq (stretch : Stretch) : lines.namesIn stretch = lines'.namesIn stretch := by
  fun_induction namesIn lines stretch with
  | case1 => rw [namesIn]
  | case2 p b rest hb name ih => rw [namesIn, if_pos hb, ← h.nameAfter_eq, ih]
  | case3 p b rest hb ih => rw [namesIn, if_neg hb, ih]

end SameCode

/-- Files of equally many lines have the same code if scrubbing leaves the same of them. -/
theorem sameCode_ofRawLines (kind : FileKind) (options : ScrubOptions) {raws raws' : List Bytes}
    (hlength : raws.length = raws'.length) (htexts : finalTexts raws = finalTexts raws') :
    SameCode (ofRawLines raws kind options).1 (ofRawLines raws' kind options).1 := by
  have htext (index : Nat) : (ofRawLines raws kind options).1.text index =
      (ofRawLines raws' kind options).1.text index := by
    cases index with
    | zero => rfl
    | succ index => rw [text_ofRawLines, text_ofRawLines, htexts]
  refine ⟨?_, htext, fun index => ?_, fun index => ?_⟩
  · rw [lastIndex, lastIndex, count_ofRawLines, count_ofRawLines, hlength]
  · rw [line_eq_ofText kind options raws, line_eq_ofText kind options raws', htext]
    rfl
  · rw [line_eq_ofText kind options raws, line_eq_ofText kind options raws', htext]
    rfl

end BracketLint.Lines
