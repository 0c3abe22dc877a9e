import Mathlib.Data.List.Forall2
import BracketLint.Lines
import BracketLint.Group.Forest
import BracketLint.Proofs.Line.Scan
import BracketLint.Proofs.Text.Blank

/-!
Scrubbing moves no column. Each pass keeps every byte of a line at its column, writes a filler, a
blank or a backslash over it, or cuts the line behind it, so what is left of a line stands in the
columns in which it was written.
-/

namespace BracketLint

/-- The bytes that scrubbing writes over a line. -/
def IsBlanking (b : UInt8) : Prop := b = filler ∨ b = Ascii.space ∨ b = Ascii.backslash

/-- A text stands in the columns of a raw line: it is not longer than the line, and each of its
bytes is that of the line at its column or one that scrubbing writes over lines. -/
structure KeepsColumns (raw text : Bytes) : Prop where
  length_le : text.length ≤ raw.length
  byte_eq : ∀ (column : Nat) (b : UInt8), text[column]? = some b →
    raw[column]? = some b ∨ IsBlanking b

namespace KeepsColumns

variable {raw text : Bytes}

theorem refl (raw : Bytes) : KeepsColumns raw raw where
  length_le := Nat.le_refl _
  byte_eq _ _ h := Or.inl h

theorem nil (raw : Bytes) : KeepsColumns raw [] where
  length_le := Nat.zero_le _
  byte_eq _ _ h := by cases h

theorem cons {b c : UInt8} (hc : c = b ∨ IsBlanking c) (h : KeepsColumns raw text) :
    KeepsColumns (b :: raw) (c :: text) where
  length_le := Nat.succ_le_succ h.length_le
  byte_eq column d hd := by
    cases column with
    | zero =>
      obtain rfl := Option.some.inj hd
      exact hc.imp_left (congrArg some ·.symm)
    | succ column => exact h.byte_eq column d hd

theorem of_prefix {text' : Bytes} (hstart : text' <+: text) (h : KeepsColumns raw text) :
    KeepsColumns raw text' where
  length_le := Nat.le_trans hstart.length_le h.length_le
  byte_eq column b hb := by
    have hlt : column < text'.length := (List.getElem?_eq_some_iff.mp hb).1
    obtain ⟨rest, rfl⟩ := hstart
    apply h.byte_eq
    rw [List.getElem?_append_left hlt, hb]

/-- The last byte may be replaced by a backslash. -/
theorem dropLast_append_backslash (hraw : raw ≠ []) (h : KeepsColumns raw text) :
    KeepsColumns raw (text.dropLast ++ [Ascii.backslash]) where
  length_le := by
    have hpos : 0 < raw.length := List.length_pos_iff.mpr hraw
    have hle := h.length_le
    simp only [List.length_append, List.length_dropLast, List.length_singleton]
    omega
  byte_eq column b hb := by
    by_cases hlt : column < text.dropLast.length
    · rw [List.getElem?_append_left hlt] at hb
      exact (h.of_prefix (List.dropLast_prefix text)).byte_eq column b hb
    · rw [List.getElem?_append_right (Nat.le_of_not_lt hlt), List.getElem?_singleton] at hb
      split_ifs at hb
      exact Or.inr (Or.inr (Or.inr (Option.some.inj hb).symm))

end KeepsColumns

/-- The scan writes in front of a cut only over the bytes that it reads. -/
theorem exists_text_scanFrom (mode : ScanMode) (before rest : Bytes) :
    ∃ text, (scanFrom mode before rest).text = before.reverse ++ text ∧ KeepsColumns rest text := by
  induction rest generalizing mode before with
  | nil => exact ⟨[], by cases mode <;> simp [scanFrom], .nil _⟩
  | cons b rest ih =>
    rw [scanFrom_cons]
    cases hstep : mode.step? before b rest with
    | none =>
      -- The two slashes leave room for the backslash behind which the comment goes on.
      have hcut : KeepsColumns (b :: rest) [Ascii.backslash] :=
        (KeepsColumns.nil rest).cons (Or.inr (Or.inr (Or.inr rfl)))
      refine ⟨_, rfl, ?_⟩
      split_ifs
      · exact hcut
      · exact .nil _
    | some step =>
      obtain ⟨text, htext, hkeeps⟩ := ih step.mode (step.written :: before)
      have hwritten : step.written = b ∨ IsBlanking step.written :=
        (ScanMode.written_of_step? hstep).imp_right (Or.imp_right Or.inl)
      refine ⟨step.written :: text, ?_, hkeeps.cons hwritten⟩
      have heq : (scanFrom step.mode (step.written :: before) rest).text =
          before.reverse ++ step.written :: text := by
        rw [htext, List.reverse_cons, List.append_assoc, List.singleton_append]
      dsimp only
      split_ifs
      · exact heq
      · exact heq

theorem keepsColumns_closeLine {raw : Bytes} {scan : ScannedLine} (index : Nat)
    (h : KeepsColumns raw scan.text) : KeepsColumns raw (closeLine index raw scan).text := by
  unfold closeLine
  dsimp only
  split
  · split_ifs with hend
    · refine h.dropLast_append_backslash ?_
      rintro rfl
      cases hend
    · exact h
  · exact h

theorem keepsColumns_blankLine (index : Nat) (carry : Carry) (raw : Bytes) :
    KeepsColumns raw (blankLine index carry raw).text := by
  obtain ⟨text, htext, hkeeps⟩ := exists_text_scanFrom carry.mode [] raw
  rw [List.reverse_nil, List.nil_append] at htext
  rw [blankLine]
  split
  · exact .refl raw
  · exact keepsColumns_closeLine index (htext ▸ hkeeps)

theorem forall₂_blankLines (index : Nat) (carry : Carry) (raws : List Bytes) :
    List.Forall₂ (fun raw line => KeepsColumns raw line.text) raws
      (blankLines index carry raws) := by
  induction raws generalizing index carry with
  | nil => exact .nil
  | cons raw raws ih => exact .cons (keepsColumns_blankLine index carry raw) (ih _ _)

/-- Each line of some texts is cut short, or empty, or as it was. -/
def Shortened (lines texts : List Bytes) : Prop :=
  List.Forall₂ (fun line text => text <+: line) lines texts

/-- Each line of some texts is empty or as it was. -/
def Emptied (lines texts : List Bytes) : Prop :=
  List.Forall₂ (fun line text => text = [] ∨ text = line) lines texts

theorem Emptied.shortened {lines texts : List Bytes} (h : Emptied lines texts) :
    Shortened lines texts := by
  refine h.imp fun line text htext => ?_
  rcases htext with rfl | rfl
  · exact List.nil_prefix
  · exact List.prefix_refl _

theorem emptied_map_nil (lines : List Bytes) : Emptied lines (lines.map fun _ => []) := by
  rw [Emptied, List.forall₂_map_right_iff, List.forall₂_same]
  exact fun _ _ => .inl rfl

theorem endifLength?_le {depth : Nat} {lines : List Bytes} {length : Nat}
    (h : endifLength? depth lines = some length) : length ≤ lines.length := by
  fun_induction endifLength? depth lines generalizing length with
  | case1 => cases h
  | case2 depth line rest _ _ ih =>
    obtain ⟨inner, hinner, rfl⟩ := Option.map_eq_some_iff.mp h
    exact Nat.succ_le_succ (ih hinner)
  | case3 depth line rest _ ih =>
    obtain ⟨inner, hinner, rfl⟩ := Option.map_eq_some_iff.mp h
    exact Nat.succ_le_succ (ih hinner)
  | case4 line rest _ =>
    cases h
    exact Nat.succ_le_succ (Nat.zero_le _)
  | case5 line rest _ outer ih =>
    obtain ⟨inner, hinner, rfl⟩ := Option.map_eq_some_iff.mp h
    exact Nat.succ_le_succ (ih hinner)
  | case6 depth line rest _ _ _ ih =>
    obtain ⟨inner, hinner, rfl⟩ := Option.map_eq_some_iff.mp h
    exact Nat.succ_le_succ (ih hinner)

theorem emptied_blankDeadRegions (index : Nat) (lines : List Bytes) :
    Emptied lines (blankDeadRegions index lines).1 := by
  fun_induction blankDeadRegions index lines with
  | case1 => exact .nil
  | case2 index line rest _ lines diagnostics hrest ih =>
    rw [hrest] at ih
    exact .cons (.inr rfl) ih
  | case3 index line rest opener _ length hlength lines diagnostics hrest ih =>
    rw [hrest] at ih
    -- The region takes as many lines as it empties.
    have hregion : (rest.take length).map (fun _ => ([] : Bytes)) = List.replicate length [] := by
      rw [List.map_const', List.length_take, Nat.min_eq_left (endifLength?_le hlength)]
    have htake := emptied_map_nil (rest.take length)
    rw [hregion] at htake
    refine .cons (.inl rfl) ?_
    rw [← List.take_append_drop length rest]
    exact List.rel_append htake ih
  | case4 index line rest opener _ _ =>
    exact .cons (.inl rfl) (emptied_map_nil rest)

theorem emptied_blankDirectives (continued : Bool) (lines : List Bytes) :
    Emptied lines (blankDirectives continued lines) := by
  fun_induction blankDirectives continued lines with
  | case1 => exact .nil
  | case2 continued line rest _ ih => exact .cons (.inl rfl) ih
  | case3 continued line rest _ ih => exact .cons (.inr rfl) ih

theorem KeepsColumns.of_shortened {raws lines texts : List Bytes}
    (h : List.Forall₂ KeepsColumns raws lines) (hshort : Shortened lines texts) :
    List.Forall₂ KeepsColumns raws texts := by
  induction h generalizing texts with
  | nil => exact List.forall₂_nil_left_iff.mpr (List.forall₂_nil_left_iff.mp hshort)
  | cons hkeeps _ ih =>
    obtain ⟨text, texts, hstart, hrest, rfl⟩ := List.forall₂_cons_left_iff.mp hshort
    exact .cons (hkeeps.of_prefix hstart) (ih hrest)

namespace Lines

/-- The lines as the preprocessor passes find them: literals and comments are blanked, and the lines
end in no blank. -/
def trimmedTexts (raws : List Bytes) : List Bytes :=
  (blankLines 1 .code raws).map fun line => Bytes.trimEnd line.text

/-- What all passes leave of some lines. -/
def finalTexts (raws : List Bytes) : List Bytes :=
  blankDirectives false (blankDeadRegions 1 (trimmedTexts raws)).1

theorem keepsColumns_trimmedTexts (raws : List Bytes) :
    List.Forall₂ KeepsColumns raws (trimmedTexts raws) := by
  rw [trimmedTexts, List.forall₂_map_right_iff]
  exact (forall₂_blankLines 1 .code raws).imp fun _ _ h => h.of_prefix (Bytes.trimEnd_prefix _)

theorem emptied_finalTexts (raws : List Bytes) :
    Emptied (trimmedTexts raws) (finalTexts raws) := by
  -- Both passes leave a line as it is or empty it, so both together do.
  have hregions := emptied_blankDeadRegions 1 (trimmedTexts raws)
  have hdirectives := emptied_blankDirectives false (blankDeadRegions 1 (trimmedTexts raws)).1
  rw [← finalTexts] at hdirectives
  rw [Emptied, List.forall₂_iff_get] at *
  refine ⟨hregions.1.trans hdirectives.1, fun i hi hi' => ?_⟩
  rcases hdirectives.2 i (hregions.1 ▸ hi) hi' with hempty | hkept
  · exact .inl hempty
  · rw [hkept]
    exact hregions.2 i hi (hregions.1 ▸ hi)

theorem shortened_finalTexts (raws : List Bytes) :
    Shortened (trimmedTexts raws) (finalTexts raws) :=
  (emptied_finalTexts raws).shortened

theorem keepsColumns_finalTexts (raws : List Bytes) :
    List.Forall₂ KeepsColumns raws (finalTexts raws) :=
  KeepsColumns.of_shortened (keepsColumns_trimmedTexts raws) (shortened_finalTexts raws)

theorem length_trimmedTexts (raws : List Bytes) : (trimmedTexts raws).length = raws.length :=
  (keepsColumns_trimmedTexts raws).length_eq.symm

theorem length_finalTexts (raws : List Bytes) : (finalTexts raws).length = raws.length :=
  (keepsColumns_finalTexts raws).length_eq.symm

section

variable (kind : FileKind) (options : ScrubOptions)

theorem length_assemble {raws texts : List Bytes} {lines : List BlankedLine}
    (hlines : lines.length = raws.length) (htexts : texts.length = raws.length) :
    (assemble kind options raws lines texts).length = raws.length := by
  induction raws generalizing lines texts with
  | nil => rfl
  | cons raw raws ih =>
    cases lines with
    | nil => cases hlines
    | cons line lines =>
      cases texts with
      | nil => cases htexts
      | cons text texts =>
        exact congrArg (· + 1) (ih (Nat.succ.inj hlines) (Nat.succ.inj htexts))

theorem getElem?_assemble {raws texts : List Bytes} {lines : List BlankedLine} {index : Nat}
    {raw text : Bytes} {line : BlankedLine} (hraw : raws[index]? = some raw)
    (hline : lines[index]? = some line) (htext : texts[index]? = some text) :
    (assemble kind options raws lines texts)[index]? =
      some (Line.ofText kind options raw text line.comment) := by
  induction raws generalizing lines texts index with
  | nil => cases hraw
  | cons first raws ih =>
    cases lines with
    | nil => cases hline
    | cons _ lines =>
      cases texts with
      | nil => cases htext
      | cons _ texts =>
        cases index with
        | zero =>
          cases hraw
          cases hline
          cases htext
          rfl
        | succ index => exact ih hraw hline htext

/-- A line without text has the entries of a line without anything. -/
theorem ofText_nil : Line.ofText kind options [] [] none = {} := rfl

variable (raws : List Bytes)

theorem length_blankLines (index : Nat) (carry : Carry) :
    (blankLines index carry raws).length = raws.length :=
  (forall₂_blankLines index carry raws).length_eq.symm

theorem count_ofRawLines : (ofRawLines raws kind options).1.count = raws.length := by
  change (assemble kind options raws (blankLines 1 .code raws) (finalTexts raws)).toArray.size = _
  rw [List.size_toArray]
  exact length_assemble kind options (length_blankLines raws 1 .code) (length_finalTexts raws)

/-- A line of a file has the entries that follow from what the passes leave of it. -/
theorem line_ofRawLines {index : Nat} {raw : Bytes} (hraw : raws[index]? = some raw) :
    ∃ text line, (finalTexts raws)[index]? = some text ∧
      (blankLines 1 .code raws)[index]? = some line ∧
      (ofRawLines raws kind options).1.line (index + 1) =
        Line.ofText kind options raw text line.comment := by
  have hlt : index < raws.length := (List.getElem?_eq_some_iff.mp hraw).1
  have htext := List.getElem?_eq_getElem (by rw [length_finalTexts]; exact hlt :
    index < (finalTexts raws).length)
  have hline := List.getElem?_eq_getElem (by rw [length_blankLines]; exact hlt :
    index < (blankLines 1 .code raws).length)
  refine ⟨_, _, htext, hline, ?_⟩
  change (assemble kind options raws (blankLines 1 .code raws) (finalTexts raws)).toArray.getD
    index {} = _
  rw [Array.getD_eq_getD_getElem?, List.getElem?_toArray,
    getElem?_assemble kind options hraw hline htext]
  rfl

theorem line_ofRawLines_of_le {index : Nat} (h : raws.length ≤ index) :
    (ofRawLines raws kind options).1.line (index + 1) = {} := by
  have hsize : (ofRawLines raws kind options).1.physical.size ≤ index := by
    rw [← count_ofRawLines kind options raws] at h
    exact h
  change (ofRawLines raws kind options).1.physical.getD index {} = _
  rw [Array.getD_eq_getD_getElem?, Array.getElem?_eq_none hsize]
  rfl

theorem raw_ofRawLines (index : Nat) :
    (ofRawLines raws kind options).1.raw (index + 1) = raws[index]?.getD [] := by
  rw [Lines.raw]
  cases hraw : raws[index]? with
  | none =>
    rw [line_ofRawLines_of_le kind options raws (List.getElem?_eq_none_iff.mp hraw)]
    rfl
  | some raw =>
    obtain ⟨text, line, -, -, hline⟩ := line_ofRawLines kind options raws hraw
    rw [hline]
    rfl

theorem text_ofRawLines (index : Nat) :
    (ofRawLines raws kind options).1.text (index + 1) = (finalTexts raws)[index]?.getD [] := by
  rw [Lines.text]
  cases hraw : raws[index]? with
  | none =>
    have hle := List.getElem?_eq_none_iff.mp hraw
    rw [line_ofRawLines_of_le kind options raws hle,
      List.getElem?_eq_none (by rw [length_finalTexts]; exact hle)]
    rfl
  | some raw =>
    obtain ⟨text, line, htext, -, hline⟩ := line_ofRawLines kind options raws hraw
    rw [hline, htext]
    rfl

theorem comment_ofRawLines (index : Nat) :
    ((ofRawLines raws kind options).1.line (index + 1)).comment =
      (blankLines 1 .code raws)[index]?.bind (·.comment) := by
  cases hraw : raws[index]? with
  | none =>
    have hle := List.getElem?_eq_none_iff.mp hraw
    rw [line_ofRawLines_of_le kind options raws hle,
      List.getElem?_eq_none (by rw [length_blankLines]; exact hle)]
    rfl
  | some raw =>
    obtain ⟨text, line, -, hblanked, hline⟩ := line_ofRawLines kind options raws hraw
    rw [hline, hblanked]
    rfl

/-- The entries of every line, the empty ones around the file included, belong to its text. -/
theorem line_eq_ofText (index : Nat) :
    let lines := (ofRawLines raws kind options).1
    lines.line index = Line.ofText kind options (lines.raw index) (lines.text index)
      (lines.line index).comment := by
  intro lines
  rw [Lines.raw, Lines.text]
  cases index with
  | zero => exact (ofText_nil kind options).symm
  | succ index =>
    cases hraw : raws[index]? with
    | none =>
      rw [line_ofRawLines_of_le kind options raws (List.getElem?_eq_none_iff.mp hraw)]
      exact (ofText_nil kind options).symm
    | some raw =>
      obtain ⟨text, line, -, -, hline⟩ := line_ofRawLines kind options raws hraw
      rw [hline]
      rfl

theorem keepsColumns_ofRawLines (index : Nat) :
    KeepsColumns ((ofRawLines raws kind options).1.raw index)
      ((ofRawLines raws kind options).1.text index) := by
  cases index with
  | zero => exact .nil _
  | succ index =>
    rw [raw_ofRawLines, text_ofRawLines]
    have hkeeps := List.forall₂_iff_get.mp (keepsColumns_finalTexts raws)
    cases htext : (finalTexts raws)[index]? with
    | none => exact .nil _
    | some text =>
      obtain ⟨hlt, rfl⟩ := List.getElem?_eq_some_iff.mp htext
      have hlt' : index < raws.length := length_finalTexts raws ▸ hlt
      rw [List.getElem?_eq_getElem hlt']
      exact hkeeps.2 index hlt' hlt

end

/-- A bracket or a byte of a name is never one that scrubbing writes. -/
theorem not_isBlanking {b : UInt8} (h : (Bracket.ofByte? b).isSome ∨ Ascii.isWordByte b = true) :
    ¬IsBlanking b := by
  rintro (rfl | rfl | rfl)
  · revert h
    decide
  · revert h
    decide
  · revert h
    decide

/-- Scrubbing moves no column. There is one entry for every line of the file and an empty one before
and behind them; the entries follow from the text of their line; and each text stands in the columns
of its raw line, so the brackets and names in it are those of the file. -/
theorem scrub_keepsColumns (source : Bytes) (kind : FileKind) (options : ScrubOptions) :
    let lines := (scrub source kind options).1
    let raws := Bytes.lines source.dropByteOrderMark
    lines.physical.size = raws.length ∧ lines.lastIndex = raws.length + 1 ∧
      lines.line 0 = {} ∧ lines.line lines.lastIndex = {} ∧
      (∀ index, lines.raw (index + 1) = raws[index]?.getD []) ∧
      (∀ index, lines.line index = Line.ofText kind options (lines.raw index) (lines.text index)
        (lines.line index).comment) ∧
      ∀ index, (lines.text index).length ≤ (lines.raw index).length ∧
        ∀ (column : Nat) (b : UInt8), (lines.text index)[column]? = some b →
          ((lines.raw index)[column]? = some b ∨ b = filler ∨ b = Ascii.space ∨
            b = Ascii.backslash) ∧
          ((Bracket.ofByte? b).isSome ∨ Ascii.isWordByte b = true →
            (lines.raw index)[column]? = some b) := by
  intro lines raws
  have hcount : lines.physical.size = raws.length := count_ofRawLines kind options raws
  have hlast : lines.lastIndex = raws.length + 1 := congrArg (· + 1) hcount
  refine ⟨hcount, hlast, rfl, ?_, raw_ofRawLines kind options raws,
    line_eq_ofText kind options raws, fun index => ?_⟩
  · rw [hlast]
    exact line_ofRawLines_of_le kind options raws (Nat.le_refl _)
  · have hkeeps : KeepsColumns (lines.raw index) (lines.text index) :=
      keepsColumns_ofRawLines kind options raws index
    refine ⟨hkeeps.length_le, fun column b hb => ⟨hkeeps.byte_eq column b hb, fun hname => ?_⟩⟩
    exact (hkeeps.byte_eq column b hb).resolve_right (not_isBlanking hname)

/-- The brackets of a call keep their columns around a string and behind a comment. -/
example :
    let lines := (scrub (Bytes.ofString "f(/*(*/ \"\x7d\"); // )") .implementation {}).1
    lines.text 1 = Bytes.ofString "f(      \"`\");" := by
  decide +kernel

end Lines
end BracketLint
