import Mathlib.Data.List.Basic
import BracketLint.Proofs.Line.CommentStart
import BracketLint.Proofs.Lines.Carry

/-!
Where comments start in a file. What a line is blanked from is what the lines in front of it leave
open; where that is nothing, a line without quotes is cut off or blanked from its first comment on.
-/

namespace BracketLint

namespace Lines

section Comment

variable (kind : FileKind) (options : ScrubOptions) {source raw : Bytes} {index column : Nat}

/-- On a line without quotes, in front of which nothing is open, a comment starts at the first mark
that opens one, and a line comment is entered in the table of comments at that column. -/
theorem scrub_startsComment
    (hraw : (Bytes.lines source.dropByteOrderMark)[index]? = some raw)
    (hopen : carryBehind .code ((Bytes.lines source.dropByteOrderMark).take index) = .code)
    (hmessage : isMessageDirective raw = false)
    (hdouble : Ascii.doubleQuote ∉ raw) (hsingle : Ascii.singleQuote ∉ raw)
    (hopener : IsFirstOpener raw column) (hstar : NoStarBefore raw column) :
    ∃ line, (blankLines 1 .code (Bytes.lines source.dropByteOrderMark))[index]? = some line ∧
      StartsComment raw column line ∧
      ((scrub source kind options).1.line (index + 1)).comment = line.comment := by
  have hline := getElem?_blankLines 1 .code hraw
  rw [hopen] at hline
  refine ⟨_, hline, startsComment_blankLine _ hmessage hdouble hsingle hopener hstar, ?_⟩
  rw [scrub, comment_ofRawLines, hline]
  rfl

end Comment

theorem scrub_startsComment_block :
    let source := Bytes.ofString "s = \"a\";\nx */ y /* z */ // c"
    let raws := Bytes.lines source.dropByteOrderMark
    let raw := Bytes.ofString "x */ y /* z */ // c"
    raws[1]? = some raw ∧ carryBehind .code (raws.take 1) = .code ∧
      isMessageDirective raw = false ∧ Ascii.doubleQuote ∉ raw ∧ Ascii.singleQuote ∉ raw ∧
      IsFirstOpener raw 7 ∧ NoStarBefore raw 7 ∧
      ∃ line, (blankLines 1 .code raws)[1]? = some line ∧ StartsComment raw 7 line ∧
        ((scrub source .implementation {}).1.line 2).comment = line.comment := by
  intro source raws raw
  have hraw : raws[1]? = some raw := by decide +kernel
  have hopen : carryBehind .code (raws.take 1) = .code := by decide +kernel
  have hmessage : isMessageDirective raw = false := by decide +kernel
  have hdouble : Ascii.doubleQuote ∉ raw := by decide +kernel
  have hsingle : Ascii.singleQuote ∉ raw := by decide +kernel
  have hopener : IsFirstOpener raw 7 := by decide +kernel
  have hstar : NoStarBefore raw 7 := by
    intro c hc
    obtain rfl : c = 6 := Nat.succ.inj hc
    decide +kernel
  exact ⟨hraw, hopen, hmessage, hdouble, hsingle, hopener, hstar,
    scrub_startsComment .implementation {} hraw hopen hmessage hdouble hsingle hopener hstar⟩

/-- No comment starts on a line that goes on with a literal. A line comment that ends in a backslash
leaves it in the text. And a star right in front of a comment takes its first slash for a closing
mark. -/
theorem scrub_not_startsComment :
    let raws (source : String) := Bytes.lines (Bytes.ofString source).dropByteOrderMark
    let lineAt (source : String) (index : Nat) := (blankLines 1 .code (raws source))[index]?
    let isLineComment (raw : Bytes) (column : Nat) : Bool :=
      !isMessageDirective raw && !raw.contains Ascii.doubleQuote &&
        !raw.contains Ascii.singleQuote && decide (IsFirstOpener raw column) &&
        decide (HasMark raw Ascii.slash Ascii.slash column)
    let literal := "s = \"a\\\nb//c"
    let kept := "x // y \\"
    let starred := "int *//x"
    (raws literal)[1]? = some (Bytes.ofString "b//c") ∧
      carryBehind .code ((raws literal).take 1) = .literal .double ∧
      isLineComment (Bytes.ofString "b//c") 1 = true ∧
      (lineAt literal 1).bind (·.comment) = none ∧
      (lineAt literal 1).map (·.text) = some (List.replicate 4 filler) ∧
    (raws kept)[0]? = some (Bytes.ofString kept) ∧ isLineComment (Bytes.ofString kept) 2 = true ∧
      (lineAt kept 0).map (·.text) = some (Bytes.ofString "x \\") ∧
    (raws starred)[0]? = some (Bytes.ofString starred) ∧
      isLineComment (Bytes.ofString starred) 5 = true ∧
      (lineAt starred 0).bind (·.comment) = none ∧
      (lineAt starred 0).map (·.text) = some (Bytes.ofString starred) := by
  decide +kernel

end Lines
end BracketLint
