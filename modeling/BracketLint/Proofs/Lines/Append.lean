import Mathlib.Data.List.Basic
import BracketLint.Proofs.Lines.Carry
import BracketLint.Proofs.Text.Pieces

/-!
Scrubbing of two texts, one behind the other. Every pass goes from line to line, and the number of a
line shows only in what is reported. So the lines in front of some point and those behind it are
scrubbed as if they stood alone, if no literal, no comment, no conditional and no directive is open
there.
-/

namespace BracketLint

section Move

variable (index count : Nat)

theorem hygiene_add (limit : Nat) (raw : Bytes) :
    Line.hygiene limit (index + count) raw =
      (Line.hygiene limit index raw).map (·.moveDown count) := by
  unfold Line.hygiene
  dsimp only
  split_ifs <;> rfl

theorem hygieneFrom_add (limit : Nat) (raws : List Bytes) :
    Line.hygieneFrom limit (index + count) raws =
      (Line.hygieneFrom limit index raws).map (·.moveDown count) := by
  induction raws generalizing index with
  | nil => rfl
  | cons raw raws ih =>
    rw [Line.hygieneFrom, Line.hygieneFrom, List.map_append, ← hygiene_add, ← ih,
      Nat.add_right_comm]

theorem blankDeadRegions_add (lines : List Bytes) :
    blankDeadRegions (index + count) lines =
      ((blankDeadRegions index lines).1,
        (blankDeadRegions index lines).2.map (·.moveDown count)) := by
  fun_induction blankDeadRegions index lines with
  | case1 => rw [blankDeadRegions]; rfl
  | case2 index line rest hopener lines diagnostics hrest ih =>
    rw [hrest, Nat.add_right_comm] at ih
    rw [blankDeadRegions.eq_def]
    simp only [hopener, ih]
  | case3 index line rest opener hopener length hlength lines diagnostics hrest ih =>
    rw [hrest] at ih
    rw [blankDeadRegions.eq_def]
    have hindex : index + count + 1 + length = index + 1 + length + count := by omega
    simp only [hopener, hlength, hindex, ih]
  | case4 index line rest opener hopener hlength =>
    rw [blankDeadRegions.eq_def]
    simp only [hopener, hlength]
    rfl

end Move

section Join

theorem hygieneFrom_append (limit index : Nat) (front behind : List Bytes) :
    Line.hygieneFrom limit index (front ++ behind) =
      Line.hygieneFrom limit index front ++
        Line.hygieneFrom limit (index + front.length) behind := by
  induction front generalizing index with
  | nil => rfl
  | cons raw front ih =>
    rw [List.cons_append, Line.hygieneFrom, Line.hygieneFrom, ih, List.append_assoc,
      List.length_cons, Nat.add_right_comm, Nat.add_assoc]

theorem carry_of_getLast? {index : Nat} {carry : Carry} {raws : List Bytes} {last : BlankedLine}
    (h : (blankLines index carry raws).getLast? = some last) :
    last.carry = carryBehind carry raws := by
  induction raws generalizing index carry with
  | nil => cases h
  | cons raw raws ih =>
    rw [blankLines] at h
    rw [carryBehind, carry_blankLine 1 index]
    cases raws with
    | nil =>
      cases h
      rfl
    | cons next raws =>
      rw [blankLines, List.getLast?_cons_cons, ← blankLines] at h
      exact ih h

theorem openCommentDiagnostic_of_carryBehind {index : Nat} {carry : Carry} {raws : List Bytes}
    (h : carryBehind carry raws = .code) :
    openCommentDiagnostic (blankLines index carry raws) = [] := by
  unfold openCommentDiagnostic
  split
  · next last hlast =>
    rw [carry_of_getLast? hlast, h]
    rfl
  · rfl

/-- A conditional that ends in front of some lines does not reach behind them. -/
theorem endifLength?_append_of_some {depth length : Nat} {front : List Bytes}
    (h : endifLength? depth front = some length) (behind : List Bytes) :
    endifLength? depth (front ++ behind) = some length := by
  fun_induction endifLength? depth front generalizing length with
  | case1 => cases h
  | case2 depth line rest condition hline ih =>
    obtain ⟨inner, hinner, rfl⟩ := Option.map_eq_some_iff.mp h
    simp only [List.cons_append, endifLength?, hline, ih hinner, Option.map_some]
  | case3 depth line rest hline ih =>
    obtain ⟨inner, hinner, rfl⟩ := Option.map_eq_some_iff.mp h
    simp only [List.cons_append, endifLength?, hline, ih hinner, Option.map_some]
  | case4 line rest hline =>
    simp only [List.cons_append, endifLength?, hline, h]
  | case5 line rest hline outer ih =>
    obtain ⟨inner, hinner, rfl⟩ := Option.map_eq_some_iff.mp h
    simp only [List.cons_append, endifLength?, hline, ih hinner, Option.map_some]
  | case6 depth line rest h₁ h₂ h₃ ih =>
    obtain ⟨inner, hinner, rfl⟩ := Option.map_eq_some_iff.mp h
    rw [List.cons_append, endifLength?.eq_def]
    dsimp only
    split
    · next hline => exact absurd hline (h₁ _)
    · next hline => exact absurd hline h₂
    · next hline => exact absurd hline h₃
    · rw [ih hinner, Option.map_some]

theorem blankDeadRegions_append {index : Nat} {front : List Bytes}
    (h : (blankDeadRegions index front).2 = []) (behind : List Bytes) :
    blankDeadRegions index (front ++ behind) =
      ((blankDeadRegions index front).1 ++ (blankDeadRegions (index + front.length) behind).1,
        (blankDeadRegions (index + front.length) behind).2) := by
  fun_induction blankDeadRegions index front with
  | case1 => rfl
  | case2 index line rest hopener lines diagnostics hrest ih =>
    rw [hrest] at ih
    have hindex : index + 1 + rest.length = index + (line :: rest).length := by
      rw [List.length_cons]
      omega
    rw [List.cons_append, blankDeadRegions.eq_def]
    simp only [hopener, ih h, hindex, List.cons_append]
  | case3 index line rest opener hopener length hlength lines diagnostics hrest ih =>
    rw [hrest] at ih
    have hle := endifLength?_le hlength
    have hindex : index + 1 + length + (rest.drop length).length =
        index + (line :: rest).length := by
      rw [List.length_drop, List.length_cons]
      omega
    rw [List.cons_append, blankDeadRegions.eq_def]
    simp only [hopener, endifLength?_append_of_some hlength, List.drop_append_of_le_length hle,
      ih h, hindex, List.cons_append, List.append_assoc]
  | case4 => cases h

/-- Whether a directive goes on behind some lines if it does (`continued`) in front of them. -/
def isContinuedBehind (continued : Bool) : List Bytes → Bool
  | [] => continued
  | line :: rest =>
    isContinuedBehind
      ((continued || (Directive.ofLine? line).isSome) && line.endsIn Ascii.backslash) rest

theorem isContinuedBehind_append (continued : Bool) (front behind : List Bytes) :
    isContinuedBehind continued (front ++ behind) =
      isContinuedBehind (isContinuedBehind continued front) behind := by
  induction front generalizing continued with
  | nil => rfl
  | cons line front ih => exact ih _

theorem blankDirectives_append (continued : Bool) (front behind : List Bytes) :
    blankDirectives continued (front ++ behind) =
      blankDirectives continued front ++
        blankDirectives (isContinuedBehind continued front) behind := by
  induction front generalizing continued with
  | nil => rfl
  | cons line front ih =>
    rw [List.cons_append, blankDirectives, blankDirectives, isContinuedBehind]
    split_ifs with hdirective
    · rw [ih, hdirective, Bool.true_and, List.cons_append]
    · rw [ih, Bool.eq_false_iff.mpr hdirective, Bool.false_and, List.cons_append]

theorem isContinuedBehind_emptied (continued : Bool) (count : Nat) (behind : List Bytes) :
    isContinuedBehind continued ([] :: List.replicate count [] ++ behind) =
      isContinuedBehind false behind := by
  have hempty (continued : Bool) (lines : List Bytes) :
      isContinuedBehind continued ([] :: lines) = isContinuedBehind false lines :=
    congrArg (isContinuedBehind · lines) (Bool.and_false _)
  rw [List.cons_append, hempty]
  induction count with
  | zero => rfl
  | succ count ih => rw [List.replicate_succ, List.cons_append, hempty, ih]

/-- Only a backslash at the end of the last line can carry a directive on. -/
theorem isContinuedBehind_blankDeadRegions {index : Nat} {lines : List Bytes} {continued : Bool}
    (hlast : ∀ last ∈ lines.getLast?, last.endsIn Ascii.backslash = false)
    (hcontinued : lines = [] → continued = false) :
    isContinuedBehind continued (blankDeadRegions index lines).1 = false := by
  fun_induction blankDeadRegions index lines generalizing continued with
  | case1 => exact hcontinued rfl
  | case2 index line rest _ lines diagnostics hrest ih =>
    rw [hrest] at ih
    rw [isContinuedBehind]
    cases rest with
    | nil =>
      have hline : line.endsIn Ascii.backslash = false := hlast line rfl
      have hnone : ∀ last ∈ ([] : List Bytes).getLast?, last.endsIn Ascii.backslash = false := by
        intro last hmem
        cases hmem
      exact ih hnone fun _ => by rw [hline, Bool.and_false]
    | cons next rest =>
      rw [List.getLast?_cons_cons] at hlast
      exact ih hlast fun hnil => absurd hnil (List.cons_ne_nil _ _)
  | case3 index line rest opener _ length hlength lines diagnostics hrest ih =>
    rw [hrest] at ih
    -- The region empties its own directives, so none is open behind it.
    refine (isContinuedBehind_emptied continued length lines).trans (ih ?_ fun _ => rfl)
    intro last hmem
    rw [List.getLast?_drop] at hmem
    split_ifs at hmem
    · cases hmem
    · exact hlast last (by rw [List.getLast?_cons, Option.mem_def.mp hmem]; rfl)
  | case4 index line rest opener _ _ =>
    have hemptied := isContinuedBehind_emptied continued rest.length []
    rwa [List.append_nil, ← List.map_const'] at hemptied

end Join

namespace Lines

theorem assemble_append (kind : FileKind) (options : ScrubOptions) {raws texts : List Bytes}
    {lines : List BlankedLine} (hlines : lines.length = raws.length)
    (htexts : texts.length = raws.length) (raws' texts' : List Bytes) (lines' : List BlankedLine) :
    assemble kind options (raws ++ raws') (lines ++ lines') (texts ++ texts') =
      assemble kind options raws lines texts ++ assemble kind options raws' lines' texts' := by
  induction raws generalizing lines texts with
  | nil =>
    rw [List.eq_nil_of_length_eq_zero hlines, List.eq_nil_of_length_eq_zero htexts]
    rfl
  | cons raw raws ih =>
    cases lines with
    | nil => cases hlines
    | cons line lines =>
      cases texts with
      | nil => cases htexts
      | cons text texts =>
        exact congrArg _ (ih (Nat.succ.inj hlines) (Nat.succ.inj htexts))

theorem assemble_moveDown (kind : FileKind) (options : ScrubOptions) (count : Nat)
    (raws texts : List Bytes) (lines : List BlankedLine) :
    assemble kind options raws (lines.map (·.moveDown count)) texts =
      assemble kind options raws lines texts := by
  induction raws generalizing lines texts with
  | nil => rfl
  | cons raw raws ih =>
    cases lines with
    | nil => rfl
    | cons line lines =>
      cases texts with
      | nil => rfl
      | cons text texts => exact congrArg _ (ih texts lines)

section OfRawLines

variable {front : List Bytes} (behind : List Bytes) (hclosed : carryBehind .code front = .code)
  (hregions : (blankDeadRegions 1 (trimmedTexts front)).2 = [])

include hclosed hregions in
theorem blankDeadRegions_trimmedTexts_append :
    blankDeadRegions 1 (trimmedTexts (front ++ behind)) =
      ((blankDeadRegions 1 (trimmedTexts front)).1 ++ (blankDeadRegions 1 (trimmedTexts behind)).1,
        (blankDeadRegions 1 (trimmedTexts behind)).2.map (·.moveDown front.length)) := by
  rw [trimmedTexts_append hclosed, blankDeadRegions_append hregions, length_trimmedTexts,
    blankDeadRegions_add]

include hclosed in
theorem blankLines_code_append : blankLines 1 .code (front ++ behind) =
    blankLines 1 .code front ++ (blankLines 1 .code behind).map (·.moveDown front.length) := by
  rw [blankLines_append, hclosed, blankLines_add]

include hclosed in
theorem openCommentDiagnostic_append : openCommentDiagnostic (blankLines 1 .code (front ++ behind)) =
    (openCommentDiagnostic (blankLines 1 .code behind)).map (·.moveDown front.length) := by
  cases behind with
  | nil =>
    rw [List.append_nil]
    exact openCommentDiagnostic_of_carryBehind hclosed
  | cons raw behind =>
    obtain ⟨last, hlast⟩ : ∃ last, (blankLines 1 .code (raw :: behind)).getLast? = some last :=
      Option.isSome_iff_exists.mp (by rw [blankLines]; simp)
    have hwhole : (blankLines 1 .code (front ++ raw :: behind)).getLast? =
        some (last.moveDown front.length) := by
      rw [blankLines_code_append _ hclosed, List.getLast?_append, List.getLast?_map, hlast]
      rfl
    have hlength : (blankLines 1 .code (front ++ raw :: behind)).length =
        (blankLines 1 .code (raw :: behind)).length + front.length := by
      rw [length_blankLines, length_blankLines, List.length_append, Nat.add_comm]
    rw [openCommentDiagnostic, hwhole, openCommentDiagnostic, hlast, hlength]
    dsimp only [BlankedLine.moveDown]
    split <;> rfl

variable (kind : FileKind) (options : ScrubOptions)
include hclosed hregions

/-- The lines of two texts one behind the other are those of the first text and those of the second
one, if no directive goes on from the one to the other. -/
theorem physical_ofRawLines_append
    (hdirectives : isContinuedBehind false (blankDeadRegions 1 (trimmedTexts front)).1 = false) :
    (ofRawLines (front ++ behind) kind options).1.physical =
      (ofRawLines front kind options).1.physical ++ (ofRawLines behind kind options).1.physical := by
  have htexts : finalTexts (front ++ behind) = finalTexts front ++ finalTexts behind := by
    rw [finalTexts, blankDeadRegions_trimmedTexts_append behind hclosed hregions,
      blankDirectives_append, hdirectives]
    rfl
  have hopen (raws : List Bytes) : (ofRawLines raws kind options).1.physical =
      (assemble kind options raws (blankLines 1 .code raws) (finalTexts raws)).toArray := rfl
  rw [hopen, hopen, hopen, htexts, blankLines_code_append behind hclosed,
    assemble_append kind options (length_blankLines front 1 .code) (length_finalTexts front),
    assemble_moveDown, List.append_toArray]

/-- The reports on two texts one behind the other are those on the first text and those on the
second one. They come pass by pass, so the reports on the two texts are mixed. -/
theorem diagnostics_ofRawLines_append :
    (ofRawLines (front ++ behind) kind options).2.Perm
      ((ofRawLines front kind options).2 ++
        (ofRawLines behind kind options).2.map (·.moveDown front.length)) := by
  have hopen (raws : List Bytes) : (ofRawLines raws kind options).2 =
      Line.hygieneFrom options.maxLineLength 1 raws ++
        (blankLines 1 .code raws).flatMap (·.diagnostics) ++
        openCommentDiagnostic (blankLines 1 .code raws) ++
        (blankDeadRegions 1 (trimmedTexts raws)).2 := rfl
  have hliterals : (blankLines 1 .code (front ++ behind)).flatMap (·.diagnostics) =
      (blankLines 1 .code front).flatMap (·.diagnostics) ++
        ((blankLines 1 .code behind).flatMap (·.diagnostics)).map (·.moveDown front.length) := by
    rw [blankLines_code_append behind hclosed, List.flatMap_append, List.flatMap_map,
      List.map_flatMap]
    rfl
  rw [hopen, hopen, hopen, hygieneFrom_append, hygieneFrom_add, hliterals,
    openCommentDiagnostic_append behind hclosed, openCommentDiagnostic_of_carryBehind hclosed,
    blankDeadRegions_trimmedTexts_append behind hclosed hregions, hregions]
  simp only [List.map_append, List.append_assoc, List.nil_append]
  -- The hygiene of both texts comes before the literals of the first one.
  apply List.Perm.append_left
  exact List.perm_append_comm_assoc _ _ _

end OfRawLines

/-- Whether a directive, its comments and trailing blanks taken away, goes on behind a text. -/
def isDirectiveOpen (source : Bytes) : Bool :=
  isContinuedBehind false
    (blankDeadRegions 1 (trimmedTexts (Bytes.lines source.dropByteOrderMark))).1

/-- It is enough that the last line, its comments and trailing blanks taken away, ends in no
backslash. -/
theorem isDirectiveOpen_eq_false {source : Bytes}
    (h : ∀ last ∈ (trimmedTexts (Bytes.lines source.dropByteOrderMark)).getLast?,
      last.endsIn Ascii.backslash = false) : isDirectiveOpen source = false :=
  isContinuedBehind_blankDeadRegions h fun _ => rfl

/-- Scrubbing is compositional. Two texts with a line feed between them are scrubbed line by line as
each of them alone, and what is reported about them is what is reported about each, if the first
text leaves no literal and no comment open, none of its conditionals lacks its end and none of its
directives goes on behind it. The first text has to end in the middle of a line, and a byte order
mark is none in the middle of a text. -/
theorem scrub_append_lineFeed {front behind : Bytes} (kind : FileKind) (options : ScrubOptions)
    (hfront : front.dropByteOrderMark ≠ []) (hfeed : front.endsIn Ascii.lineFeed = false)
    (hreturn : front.endsIn Ascii.carriageReturn = false)
    (hbehind : behind.dropByteOrderMark = behind)
    (hclosed : carryBehind .code (Bytes.lines front.dropByteOrderMark) = .code)
    (hregions : ∀ d ∈ (scrub front kind options).2, ∀ opener, d.issue ≠ .missingEndif opener)
    (hdirectives : isDirectiveOpen front = false) :
    let whole := scrub (front ++ Ascii.lineFeed :: behind) kind options
    let first := scrub front kind options
    let second := scrub behind kind options
    whole.1.physical = first.1.physical ++ second.1.physical ∧
      whole.2.Perm (first.2 ++ second.2.map (·.moveDown first.1.count)) := by
  intro whole first second
  have hlines : Bytes.lines (front ++ Ascii.lineFeed :: behind).dropByteOrderMark =
      Bytes.lines front.dropByteOrderMark ++ Bytes.lines behind.dropByteOrderMark := by
    rw [Bytes.dropByteOrderMark_append_cons (by decide), hbehind]
    rw [← Bytes.endsIn_dropByteOrderMark hfront] at hfeed hreturn
    exact Bytes.lines_append_lineFeed hfront hfeed hreturn behind
  have hnone : (blankDeadRegions 1 (trimmedTexts (Bytes.lines front.dropByteOrderMark))).2 = [] := by
    rw [List.eq_nil_iff_forall_not_mem]
    intro d hd
    obtain ⟨opener, hissue⟩ := issue_of_mem_blankDeadRegions hd
    exact hregions d (List.mem_append_right _ hd) opener hissue
  have hcount : first.1.count = (Bytes.lines front.dropByteOrderMark).length :=
    count_ofRawLines kind options _
  rw [hcount]
  simp only [whole, first, second, scrub, hlines]
  exact ⟨physical_ofRawLines_append _ hclosed hnone kind options hdirectives,
    diagnostics_ofRawLines_append _ hclosed hnone kind options⟩

/-- A literal that is not closed on the last line of the first text does not reach into the second
one, whose own conditional lacks its end. -/
theorem scrub_append_lineFeed_unterminated :
    let front := Bytes.ofString "f(\"a);"
    let behind := Bytes.ofString "g();\n#if 0"
    let whole := scrub (front ++ Ascii.lineFeed :: behind) .implementation {}
    let first := scrub front .implementation {}
    let second := scrub behind .implementation {}
    front.dropByteOrderMark ≠ [] ∧ front.endsIn Ascii.lineFeed = false ∧
      front.endsIn Ascii.carriageReturn = false ∧ behind.dropByteOrderMark = behind ∧
      carryBehind .code (Bytes.lines front.dropByteOrderMark) = .code ∧
      (∀ d ∈ first.2, ∀ opener, d.issue ≠ .missingEndif opener) ∧ isDirectiveOpen front = false ∧
      first.2 = [⟨.on 1 6, .unterminatedLiteral .double⟩] ∧
      second.2 = [⟨.on 2 0, .missingEndif .ifCondition⟩] ∧
      whole.1.physical = first.1.physical ++ second.1.physical ∧
      whole.2.Perm (first.2 ++ second.2.map (·.moveDown first.1.count)) := by
  intro front behind whole first second
  have hfront : front.dropByteOrderMark ≠ [] := by decide +kernel
  have hfeed : front.endsIn Ascii.lineFeed = false := by decide +kernel
  have hreturn : front.endsIn Ascii.carriageReturn = false := by decide +kernel
  have hbehind : behind.dropByteOrderMark = behind := by decide +kernel
  have hclosed : carryBehind .code (Bytes.lines front.dropByteOrderMark) = .code := by
    decide +kernel
  have hfirst : first.2 = [⟨.on 1 6, .unterminatedLiteral .double⟩] := by decide +kernel
  have hsecond : second.2 = [⟨.on 2 0, .missingEndif .ifCondition⟩] := by decide +kernel
  have hregions : ∀ d ∈ first.2, ∀ opener, d.issue ≠ .missingEndif opener := by
    rw [hfirst]
    intro d hd opener
    rw [List.mem_singleton.mp hd]
    exact nofun
  have hdirectives : isDirectiveOpen front = false := isDirectiveOpen_eq_false (by decide +kernel)
  have h := scrub_append_lineFeed .implementation {} hfront hfeed hreturn hbehind hclosed hregions
    hdirectives
  exact ⟨hfront, hfeed, hreturn, hbehind, hclosed, hregions, hdirectives, hfirst, hsecond, h⟩

/-- A backslash in front of a comment is no last byte of its line, and yet the directive goes on
behind the comment. And a byte order mark has no line, but a line feed behind it ends one. -/
theorem scrub_append_lineFeed_ne :
    let front := Bytes.ofString "#define A \\ // c"
    let mark : Bytes := [0xEF, 0xBB, 0xBF]
    let behind := Bytes.ofString "int x;"
    let endsInBackslash (source : Bytes) : Bool :=
      (Bytes.lines source.dropByteOrderMark).getLast?.any fun line =>
        (Bytes.trimEnd line).endsIn Ascii.backslash
    let table (source : Bytes) : Array Line := (scrub source .implementation {}).1.physical
    behind.dropByteOrderMark = behind ∧
      (front.endsIn Ascii.lineFeed = false ∧ front.endsIn Ascii.carriageReturn = false ∧
        carryBehind .code (Bytes.lines front.dropByteOrderMark) = .code ∧
        (scrub front .implementation {}).2 = [] ∧ endsInBackslash front = false ∧
        table (front ++ Ascii.lineFeed :: behind) ≠ table front ++ table behind) ∧
      mark.endsIn Ascii.lineFeed = false ∧ mark.endsIn Ascii.carriageReturn = false ∧
        carryBehind .code (Bytes.lines mark.dropByteOrderMark) = .code ∧
        (scrub mark .implementation {}).2 = [] ∧ endsInBackslash mark = false ∧
        table (mark ++ Ascii.lineFeed :: behind) ≠ table mark ++ table behind := by
  decide +kernel

end Lines
end BracketLint
