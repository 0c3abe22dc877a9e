import Mathlib.Data.List.Basic
import BracketLint.Proofs.Line.Hidden

/-!
A line comment written behind a line of code. A blank is no part of a mark, so the scan of the line
comes to the blank in front of the comment as if the line ended there. If it is in ordinary program
text then, it cuts the comment off and leaves the blank.
-/

namespace BracketLint

/-- A line comment behind a blank. -/
def commentBehind (body : Bytes) : Bytes := Ascii.space :: Ascii.slash :: Ascii.slash :: body

section Scan

/-- In front of a blank a step looks ahead as at the end of the line. -/
theorem step?_append_space (mode : ScanMode) (before : Bytes) (b : UInt8) (rest tail : Bytes) :
    mode.step? before b (rest ++ Ascii.space :: tail) = mode.step? before b rest := by
  cases rest with
  | nil =>
    cases mode with
    | code =>
      have hdigits : isDigitSeparator before (Ascii.space :: tail) = isDigitSeparator before [] := rfl
      rw [List.nil_append, ScanMode.step?, ScanMode.step?, hdigits]
      rfl
    | literal quote => rfl
    | escaped quote => rfl
    | comment => rfl
    | opening => rfl
    | closing => rfl
    | stray => rfl
  | cons c rest => exact step?_congr_head b c _ _

/-- The scan of a line without a comment goes on behind it from the mode and the text at its end. -/
theorem scanFrom_append_space {mode : ScanMode} {before raw : Bytes}
    (h : (scanFrom mode before raw).comment = none) (tail : Bytes) :
    scanFrom mode before (raw ++ Ascii.space :: tail) =
      let scan := scanFrom mode before raw
      let behind := scanFrom scan.mode scan.text.reverse (Ascii.space :: tail)
      { behind with strays := scan.strays ++ behind.strays } := by
  induction raw generalizing mode before with
  | nil =>
    have hend : scanFrom mode before [] = { text := before.reverse, mode } := by
      cases mode <;> rfl
    rw [hend, List.nil_append]
    dsimp only
    rw [List.reverse_reverse, List.nil_append]
  | cons b raw ih =>
    rw [scanFrom_cons] at h
    rw [List.cons_append, scanFrom_cons, step?_append_space, scanFrom_cons]
    cases hstep : mode.step? before b raw with
    | none =>
      rw [hstep] at h
      cases h
    | some step =>
      rw [hstep] at h
      dsimp only at h ⊢
      split_ifs at h ⊢ with hstray
      · rw [ih h]
        rfl
      · exact ih h

/-- Where nothing is cut off, the text is as long as the line. -/
theorem length_text_scanFrom {mode : ScanMode} {before raw : Bytes}
    (h : (scanFrom mode before raw).comment = none) :
    (scanFrom mode before raw).text.length = before.length + raw.length := by
  induction raw generalizing mode before with
  | nil => cases mode <;> simp [scanFrom]
  | cons b raw ih =>
    rw [scanFrom_cons] at h ⊢
    cases hstep : mode.step? before b raw with
    | none =>
      rw [hstep] at h
      cases h
    | some step =>
      rw [hstep] at h
      dsimp only at h ⊢
      have hlength : (step.written :: before).length + raw.length =
          before.length + (b :: raw).length := by
        simp only [List.length_cons]
        omega
      split_ifs at h ⊢ with hstray
      · exact (ih h).trans hlength
      · exact (ih h).trans hlength

/-- The comment is cut off, and the blank in front of it stays. -/
theorem scanFrom_commentBehind {mode : ScanMode} {raw body : Bytes}
    (h : (scanFrom mode [] raw).comment = none)
    (hmode : (scanFrom mode [] raw).mode.carry = .code)
    (hbody : (Bytes.trimEnd body).endsIn Ascii.backslash = false) :
    scanFrom mode [] (raw ++ commentBehind body) =
      { text := (scanFrom mode [] raw).text ++ [Ascii.space], mode := .code
        strays := (scanFrom mode [] raw).strays, comment := some (raw.length + 1, body) } := by
  have hlength := length_text_scanFrom h
  rw [List.length_nil, Nat.zero_add] at hlength
  rw [commentBehind, scanFrom_append_space h]
  generalize scanFrom mode [] raw = scan at hmode hlength
  -- Behind a mark of two bytes the blank is the rest of it, and it is written all the same.
  have hcut : scanFrom scan.mode scan.text.reverse (Ascii.space :: Ascii.slash :: Ascii.slash :: body) =
      cutAtComment (Ascii.space :: scan.text.reverse) body := by
    cases hend : scan.mode with
    | code => rfl
    | closing => rfl
    | stray => rfl
    | literal quote => rw [hend] at hmode; cases hmode
    | escaped quote => rw [hend] at hmode; cases hmode
    | comment => rw [hend] at hmode; cases hmode
    | opening => rw [hend] at hmode; cases hmode
  dsimp only
  rw [hcut, cutAtComment, hbody]
  simp [hlength]

end Scan

/-- A comment does not make a line a message directive. -/
theorem isMessageDirective_commentBehind (raw body : Bytes) :
    isMessageDirective (raw ++ commentBehind body) = isMessageDirective raw := by
  have hascii : Ascii.space < 0x80 := by decide
  have herror : Ascii.space ∉ Bytes.ofString "error" := by decide
  have hwarning : Ascii.space ∉ Bytes.ofString "warning" := by decide
  have hslash : Bytes.trimStart (commentBehind body) = Ascii.slash :: Ascii.slash :: body := by
    rw [commentBehind, Bytes.trimStart_cons_of_isBlankByte (by decide),
      Bytes.trimStart_cons_of_ascii (by decide) (by decide)]
  have htrim (front : Bytes) : Bytes.trimStart (front ++ commentBehind body) =
      if Bytes.trimStart front = [] then Ascii.slash :: Ascii.slash :: body
      else Bytes.trimStart front ++ commentBehind body := by
    rw [← hslash]
    exact Bytes.trimStart_append_cons hascii front _
  rw [isMessageDirective, isMessageDirective, htrim]
  cases hraw : Bytes.trimStart raw with
  | nil => rfl
  | cons b rest =>
    rw [if_neg (List.cons_ne_nil _ _), List.cons_append]
    dsimp only
    rw [htrim]
    split_ifs with hrest
    · rw [hrest]
      rfl
    · rw [commentBehind, isPrefixOf_append_cons herror, isPrefixOf_append_cons hwarning]

section Blanking

variable {carry : Carry} {raw body : Bytes}
  (hscanned : (carry == .message || (carry == .code && isMessageDirective raw)) = false)
  (hcomment : (scanFrom carry.mode [] raw).comment = none)
  (hmode : (scanFrom carry.mode [] raw).mode.carry = .code)
include hscanned hcomment hmode

/-- A line that is scanned to its end and leaves nothing open. -/
theorem blankLine_of_scanned (index : Nat) :
    (blankLine index carry raw).comment = none ∧ (blankLine index carry raw).carry = .code ∧
      (blankLine index carry raw).text.length = raw.length := by
  have hlength := length_text_scanFrom hcomment
  rw [blankLine, if_neg (Bool.eq_false_iff.mp hscanned), closeLine, hmode, hcomment]
  exact ⟨rfl, rfl, hlength.trans (Nat.zero_add _)⟩

/-- A comment behind a line changes the line's entry for comments, and leaves a blank behind its
text. -/
theorem blankLine_commentBehind (index : Nat)
    (hbody : (Bytes.trimEnd body).endsIn Ascii.backslash = false) :
    blankLine index carry (raw ++ commentBehind body) =
      { blankLine index carry raw with
        text := (blankLine index carry raw).text ++ [Ascii.space]
        comment := some (LineComment.ofBody (raw.length + 1) body) } := by
  have hscanned' : ¬(carry == .message ||
      (carry == .code && isMessageDirective (raw ++ commentBehind body))) = true := by
    rw [isMessageDirective_commentBehind, hscanned]
    exact Bool.false_ne_true
  rw [blankLine, if_neg hscanned', blankLine, if_neg (Bool.eq_false_iff.mp hscanned),
    scanFrom_commentBehind hcomment hmode hbody, closeLine, closeLine, hmode]
  rfl

end Blanking

end BracketLint
