import Mathlib.Data.List.Basic
import BracketLint.Proofs.Group.Agreement
import BracketLint.Proofs.Lines.Carry
import BracketLint.Proofs.Line.Hidden
import BracketLint.Proofs.Text.Pieces

/-!
The contents of string literals and block comments are invisible to the analysis. The pass over
literals and comments gives the same lines whatever plain byte stands there, and what follows reads
the raw text only to look for tabs, to count characters and to name blocks.
-/

namespace BracketLint

/-- The mode in which the scan reads the byte at a column of a line, if it comes to that byte. The
free text of a message directive is not scanned. -/
def Lines.modeAt? (raws : List Bytes) (index column : Nat) : Option ScanMode :=
  raws[index]?.bind fun raw =>
    let carry := carryBehind .code (raws.take index)
    if carry == .message || (carry == .code && isMessageDirective raw) then none
    else carry.mode.modeAt? [] raw column

/-- The mode in which the scan reads the byte at an offset of a file, if it comes to that byte. -/
def Lines.modeAtOffset? (source : Bytes) (offset : Nat) : Option ScanMode :=
  let pieces := Bytes.splitOnLineFeed (Bytes.dropByteOrderMark (source.take offset))
  Lines.modeAt? (Bytes.lines source.dropByteOrderMark) (pieces.length - 1)
    (pieces.getLast?.getD []).length

section Blanking

variable {front tail : Bytes} {b b' : UInt8} (hb : PlainByte b) (hb' : PlainByte b')
include hb hb'

theorem endsIn_congr : Bytes.endsIn (front ++ b :: tail) Ascii.backslash =
    Bytes.endsIn (front ++ b' :: tail) Ascii.backslash := by
  cases tail with
  | nil => simp [Bytes.endsIn, hb.ne_backslash, hb'.ne_backslash]
  | cons c tail => simp [Bytes.endsIn]

theorem characterCount_congr :
    Bytes.characterCount (front ++ b :: tail) = Bytes.characterCount (front ++ b' :: tail) := by
  have hcounts {c : UInt8} (hc : PlainByte c) : Bytes.isContinuation c = false := by
    have hlt : ¬0x80 ≤ c := UInt8.not_le.mpr hc.ascii
    simp [Bytes.isContinuation, hlt]
  simp only [Bytes.characterCount, List.countP_append, List.countP_cons, hcounts hb, hcounts hb']

/-- A line gives the same result, whatever plain byte stands in hidden contents. -/
theorem blankLine_congr (index : Nat) {carry : Carry}
    (hscanned : (carry == .message ||
      (carry == .code && isMessageDirective (front ++ b :: tail))) = false)
    (hvisited : (carry.mode.modeAt? [] (front ++ b :: tail) front.length).any ScanMode.isHidden) :
    blankLine index carry (front ++ b :: tail) = blankLine index carry (front ++ b' :: tail) := by
  -- The test for a message reads the raw line, but the byte stands behind a quote or a slash if
  -- nothing was open, and the test does not get past these.
  have hmessage : (carry == .code && isMessageDirective (front ++ b :: tail)) =
      (carry == .code && isMessageDirective (front ++ b' :: tail)) := by
    cases carry with
    | code => rw [isMessageDirective_append (exists_isOpening rfl hvisited)]
    | comment => rfl
    | literal quote => rfl
    | message => rfl
  have hscan := scanFrom_congr hb hb' tail hvisited
  rw [blankLine, blankLine, ← hmessage, if_neg (Bool.eq_false_iff.mp hscanned),
    if_neg (Bool.eq_false_iff.mp hscanned), hscan, closeLine, closeLine, endsIn_congr hb hb']

/-- The pass over literals and comments does not depend on a plain byte in hidden contents. -/
theorem blankLines_congr {before behind : List Bytes}
    (hvisited : (Lines.modeAt? (before ++ (front ++ b :: tail) :: behind) before.length
      front.length).any ScanMode.isHidden) :
    blankLines 1 .code (before ++ (front ++ b :: tail) :: behind) =
      blankLines 1 .code (before ++ (front ++ b' :: tail) :: behind) := by
  rw [Lines.modeAt?, List.getElem?_append_right (Nat.le_refl _), Nat.sub_self,
    List.getElem?_cons_zero, Option.bind_some, List.take_left] at hvisited
  dsimp only at hvisited
  split at hvisited
  · cases hvisited
  next hscanned =>
  have hline := blankLine_congr hb hb' (1 + before.length) (Bool.eq_false_iff.mpr hscanned) hvisited
  rw [blankLines_append, blankLines_append, blankLines, blankLines, hline]

end Blanking

section Hygiene

/-- Apart from tabs, the hygiene of a line is a matter of its width. -/
theorem filter_hygiene (limit index : Nat) (raw : Bytes) :
    (Line.hygiene limit index raw).filter (·.issue != .tab) =
      if limit < Bytes.characterCount raw then
        [⟨.on index limit, .longLine (Bytes.characterCount raw) limit⟩]
      else [] := by
  rw [Line.hygiene, List.filter_append]
  split <;> split <;> rfl

theorem filter_hygieneFrom (limit : Nat) : ∀ {raws raws' : List Bytes} (index : Nat),
    raws.map Bytes.characterCount = raws'.map Bytes.characterCount →
      (Line.hygieneFrom limit index raws).filter (·.issue != .tab) =
        (Line.hygieneFrom limit index raws').filter (·.issue != .tab)
  | [], [], _, _ => rfl
  | raw :: raws, raw' :: raws', index, h => by
    obtain ⟨hcount, hcounts⟩ := List.cons_eq_cons.mp h
    rw [Line.hygieneFrom, Line.hygieneFrom, List.filter_append, List.filter_append, filter_hygiene,
      filter_hygiene, hcount, filter_hygieneFrom limit (index + 1) hcounts]

end Hygiene

namespace Lines

variable {raws raws' : List Bytes} (kind : FileKind) (options : ScrubOptions)

/-- Files that look the same behind the pass over literals and comments are scrubbed to lines that
differ in their raw texts only. -/
theorem line_congr (hlength : raws.length = raws'.length)
    (hblank : blankLines 1 .code raws = blankLines 1 .code raws') (index : Nat) :
    { (ofRawLines raws kind options).1.line index with raw := [] } =
      { (ofRawLines raws' kind options).1.line index with raw := [] } := by
  cases index with
  | zero => rfl
  | succ index =>
    rcases Nat.lt_or_ge index raws.length with hlt | hge
    · obtain ⟨text, line, htext, hline, heq⟩ :=
        line_ofRawLines kind options raws (List.getElem?_eq_getElem hlt)
      obtain ⟨text', line', htext', hline', heq'⟩ :=
        line_ofRawLines kind options raws' (List.getElem?_eq_getElem (hlength ▸ hlt))
      have hfinal : finalTexts raws = finalTexts raws' := by
        rw [finalTexts, finalTexts, trimmedTexts, trimmedTexts, hblank]
      rw [hfinal, htext'] at htext
      rw [hblank, hline'] at hline
      cases htext
      cases hline
      rw [heq, heq']
      rfl
    · rw [line_ofRawLines_of_le kind options raws hge,
        line_ofRawLines_of_le kind options raws' (hlength ▸ hge)]

/-- What is reported about such files differs in the hygiene of the lines only. -/
theorem exists_diagnostics_ofRawLines
    (hblank : blankLines 1 .code raws = blankLines 1 .code raws') :
    ∃ found, (ofRawLines raws kind options).2 =
        Line.hygieneFrom options.maxLineLength 1 raws ++ found ∧
      (ofRawLines raws' kind options).2 =
        Line.hygieneFrom options.maxLineLength 1 raws' ++ found := by
  simp only [ofRawLines, hblank, List.append_assoc]
  exact ⟨_, rfl, rfl⟩

end Lines

namespace Analysis

section

variable {source source' : Bytes} (kind : FileKind) (options : ScrubOptions)

/-- If the pass over literals and comments gives the same for two files with lines of the same
widths, nothing but tabs can tell the files apart in what follows. -/
theorem ofSource_congr
    (hblank : blankLines 1 .code (Bytes.lines source.dropByteOrderMark) =
      blankLines 1 .code (Bytes.lines source'.dropByteOrderMark))
    (hwidths : (Bytes.lines source.dropByteOrderMark).map Bytes.characterCount =
      (Bytes.lines source'.dropByteOrderMark).map Bytes.characterCount) :
    let analysis := ofSource source kind options
    let analysis' := ofSource source' kind options
    analysis.lines.lastIndex = analysis'.lines.lastIndex ∧
      (∀ index, { analysis.lines.line index with raw := [] } =
        { analysis'.lines.line index with raw := [] }) ∧
      analysis.tree = analysis'.tree ∧ (∀ id, analysis.kind id = analysis'.kind id) ∧
      analysis.diagnostics.filter (·.issue != .tab) =
        analysis'.diagnostics.filter (·.issue != .tab) := by
  intro analysis analysis'
  have hlength : (Bytes.lines source.dropByteOrderMark).length =
      (Bytes.lines source'.dropByteOrderMark).length := by
    simpa only [List.length_map] using congrArg List.length hwidths
  have htexts : Lines.finalTexts (Bytes.lines source.dropByteOrderMark) =
      Lines.finalTexts (Bytes.lines source'.dropByteOrderMark) := by
    rw [Lines.finalTexts, Lines.finalTexts, Lines.trimmedTexts, Lines.trimmedTexts, hblank]
  have hsame : Lines.SameCode analysis.lines analysis'.lines :=
    Lines.sameCode_ofRawLines kind options hlength htexts
  obtain ⟨htree, hkind, -, found, hfound, hfound'⟩ := ofSource_agrees hsame
  obtain ⟨scrubbed, hscrub, hscrub'⟩ := Lines.exists_diagnostics_ofRawLines kind options hblank
  refine ⟨hsame.lastIndex_eq, Lines.line_congr kind options hlength hblank, htree, hkind, ?_⟩
  rw [hfound, hfound', Lines.scrub, Lines.scrub, hscrub, hscrub', List.filter_append,
    List.filter_append, List.filter_append, List.filter_append,
    filter_hygieneFrom options.maxLineLength 1 hwidths]

end

variable {ahead behind : Bytes} {b b' : UInt8} (kind : FileKind) (options : ScrubOptions)

/-- The contents of string literals and block comments are invisible. Where the scan reads a plain
byte in a string literal, not behind a backslash, or in a block comment, another plain byte gives
the same lines but for the raw texts, the same tree, the same roles, and the same reports but for
tabs. -/
theorem hiddenByte_invisible (hb : isPlainByte b = true) (hb' : isPlainByte b' = true)
    (hvisited : (Lines.modeAtOffset? (ahead ++ b :: behind) ahead.length).any
      ScanMode.isHidden = true) :
    let analysis := ofSource (ahead ++ b :: behind) kind options
    let analysis' := ofSource (ahead ++ b' :: behind) kind options
    analysis.lines.lastIndex = analysis'.lines.lastIndex ∧
      (∀ index, { analysis.lines.line index with raw := [] } =
        { analysis'.lines.line index with raw := [] }) ∧
      analysis.tree = analysis'.tree ∧ (∀ id, analysis.kind id = analysis'.kind id) ∧
      analysis.diagnostics.filter (·.issue != .tab) =
        analysis'.diagnostics.filter (·.issue != .tab) := by
  have hplain := plainByte_of_isPlainByte hb
  have hplain' := plainByte_of_isPlainByte hb'
  obtain ⟨pieces, front, tail, rest, hfront, hlines⟩ :=
    Bytes.lines_append_cons (Bytes.dropByteOrderMark ahead) behind
  have hsource {c : UInt8} (hc : PlainByte c) :
      Bytes.lines (Bytes.dropByteOrderMark (ahead ++ c :: behind)) =
        pieces.map Bytes.dropCarriageReturn ++ (front ++ c :: tail) :: rest := by
    rw [Bytes.dropByteOrderMark_append_cons hc.ascii, hlines c hc.ne_lineFeed hc.ne_carriageReturn]
  -- The offset is that of a column on the line that the byte stands on.
  have hindex : (pieces ++ [front]).length - 1 = (pieces.map Bytes.dropCarriageReturn).length := by
    rw [List.length_append, List.length_map, List.length_singleton, Nat.add_sub_cancel]
  rw [Lines.modeAtOffset?, hsource hplain, List.take_left, hfront, hindex, List.getLast?_concat,
    Option.getD_some] at hvisited
  refine ofSource_congr kind options ?_ ?_
  · rw [hsource hplain, hsource hplain']
    exact blankLines_congr hplain hplain' hvisited
  · rw [hsource hplain, hsource hplain', List.map_append, List.map_append, List.map_cons,
      List.map_cons, characterCount_congr hplain hplain']

/-- A letter of a string against a brace, on the second line of a file. -/
theorem hiddenByte_invisible_brace :
    let ahead := Bytes.ofString "int f() \x7b\n  g(\"a"
    let behind := Bytes.ofString "c\"); \x7d\n"
    isPlainByte 98 = true ∧ isPlainByte Ascii.closeBrace = true ∧
      (Lines.modeAtOffset? (ahead ++ 98 :: behind) ahead.length).any ScanMode.isHidden = true ∧
      (ofSource (ahead ++ 98 :: behind) .implementation {}).tree =
        (ofSource (ahead ++ Ascii.closeBrace :: behind) .implementation {}).tree := by
  intro ahead behind
  have hb : isPlainByte 98 = true := by decide
  have hb' : isPlainByte Ascii.closeBrace = true := by decide
  have hvisited : (Lines.modeAtOffset? (ahead ++ 98 :: behind) ahead.length).any
      ScanMode.isHidden = true := by
    decide +kernel
  have h := hiddenByte_invisible .implementation {} hb hb' hvisited
  exact ⟨hb, hb', hvisited, h.2.2.1⟩

end Analysis
end BracketLint
