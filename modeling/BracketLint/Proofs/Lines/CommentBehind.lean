import Mathlib.Data.List.Basic
import BracketLint.Proofs.Group.Agreement
import BracketLint.Proofs.Line.CommentBehind
import BracketLint.Proofs.Lines.Carry

/-!
A file with a line comment written behind one of its lines. The comment is entered in the table of
comments, and the blank that the scan leaves in front of it is trimmed away, so the texts of all
lines stay as they are.
-/

namespace BracketLint

namespace Lines

/-- The scan of the line at an index, counted from 0, from what the lines in front of it leave open.
The free text of a message directive is not scanned. -/
def scanAt? (raws : List Bytes) (index : Nat) : Option ScannedLine :=
  raws[index]?.bind fun raw =>
    let carry := carryBehind .code (raws.take index)
    if carry == .message || (carry == .code && isMessageDirective raw) then none
    else some (scanFrom carry.mode [] raw)

/-- Whether a line is scanned and ends outside of literals and comments, without a line comment. -/
def EndsInCode (raws : List Bytes) (index : Nat) : Prop :=
  ∃ scan, scanAt? raws index = some scan ∧ scan.mode.carry = .code ∧ scan.comment = none

/-- A line with a comment entered that stands behind its text and a blank. -/
def withComment (body : Bytes) (line : BlankedLine) : BlankedLine :=
  { line with
    text := line.text ++ [Ascii.space]
    comment := some (LineComment.ofBody (line.text.length + 1) body) }

theorem modify_append_cons {α : Type} {front : List α} {index : Nat} (h : front.length = index)
    (behind : List α) (a : α) (f : α → α) :
    (front ++ a :: behind).modify index f = front ++ f a :: behind := by
  subst h
  induction front with
  | nil => rfl
  | cons b front ih =>
    rw [List.cons_append, List.length_cons, List.modify_succ_cons, ih]
    rfl

section Comment

variable {raws : List Bytes} {index : Nat} (h : EndsInCode raws index)
include h

theorem EndsInCode.index_lt : index < raws.length := by
  obtain ⟨scan, hscan, -, -⟩ := h
  obtain ⟨raw, hraw, -⟩ := Option.bind_eq_some_iff.mp hscan
  exact (List.getElem?_eq_some_iff.mp hraw).1

/-- The line in the middle of the others, and what is open in front of it. -/
theorem EndsInCode.exists_split : ∃ front raw behind,
    raws = front ++ raw :: behind ∧ front.length = index ∧
      (carryBehind .code front == .message ||
        (carryBehind .code front == .code && isMessageDirective raw)) = false ∧
      (scanFrom (carryBehind .code front).mode [] raw).comment = none ∧
      (scanFrom (carryBehind .code front).mode [] raw).mode.carry = .code := by
  obtain ⟨scan, hscan, hmode, hcomment⟩ := h
  obtain ⟨raw, hraw, hscan⟩ := Option.bind_eq_some_iff.mp hscan
  obtain ⟨hlt, hget⟩ := List.getElem?_eq_some_iff.mp hraw
  have hsplit : raws = raws.take index ++ raw :: raws.drop (index + 1) := by
    rw [← hget, List.getElem_cons_drop, List.take_append_drop]
  dsimp only at hscan
  split at hscan
  · cases hscan
  next hscanned =>
  obtain rfl := Option.some.inj hscan
  exact ⟨_, raw, _, hsplit, List.length_take_of_le (Nat.le_of_lt hlt),
    Bool.eq_false_iff.mpr hscanned, hcomment, hmode⟩

/-- The line has no comment yet, and the scan has written a byte for each of its bytes. -/
theorem EndsInCode.exists_line : ∃ raw line, raws[index]? = some raw ∧
    (blankLines 1 .code raws)[index]? = some line ∧ line.comment = none ∧
      line.text.length = raw.length := by
  obtain ⟨front, raw, behind, rfl, rfl, hscanned, hcomment, hmode⟩ := h.exists_split
  obtain ⟨hnone, -, hlength⟩ := blankLine_of_scanned hscanned hcomment hmode (1 + front.length)
  refine ⟨raw, _, ?_, ?_, hnone, hlength⟩
  · rw [List.getElem?_append_right (Nat.le_refl _), Nat.sub_self, List.getElem?_cons_zero]
  · rw [blankLines_append, blankLines,
      List.getElem?_append_right (Nat.le_of_eq (length_blankLines front 1 .code)),
      length_blankLines, Nat.sub_self, List.getElem?_cons_zero]

/-- A comment behind the line changes the entry of the line, and no other line. -/
theorem EndsInCode.blankLines_modify {body : Bytes}
    (hbody : (Bytes.trimEnd body).endsIn Ascii.backslash = false) :
    blankLines 1 .code (raws.modify index (· ++ commentBehind body)) =
      (blankLines 1 .code raws).modify index (withComment body) := by
  obtain ⟨front, raw, behind, rfl, rfl, hscanned, hcomment, hmode⟩ := h.exists_split
  obtain ⟨-, -, hlength⟩ := blankLine_of_scanned hscanned hcomment hmode (1 + front.length)
  have hline : blankLine (1 + front.length) (carryBehind .code front) (raw ++ commentBehind body) =
      withComment body (blankLine (1 + front.length) (carryBehind .code front) raw) := by
    rw [blankLine_commentBehind hscanned hcomment hmode _ hbody, withComment, hlength]
  have hfront : (blankLines 1 .code front).length = front.length := length_blankLines front 1 .code
  rw [modify_append_cons rfl, blankLines_append, blankLines, hline, blankLines_append, blankLines,
    modify_append_cons hfront]
  rfl

/-- The blank in front of the comment is trimmed away. -/
theorem EndsInCode.trimmedTexts_modify {body : Bytes}
    (hbody : (Bytes.trimEnd body).endsIn Ascii.backslash = false) :
    trimmedTexts (raws.modify index (· ++ commentBehind body)) = trimmedTexts raws := by
  rw [trimmedTexts, h.blankLines_modify hbody, trimmedTexts]
  apply List.ext_getElem?
  intro i
  rw [List.getElem?_map, List.getElem?_map, List.getElem?_modify]
  cases (blankLines 1 .code raws)[i]? with
  | none => rfl
  | some line =>
    simp only [Option.map_eq_map, Option.map_some]
    split
    · exact congrArg some (Bytes.trimEnd_append_space line.text)
    · rfl

end Comment
end Lines
end BracketLint
