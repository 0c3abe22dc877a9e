import BracketLint.Proofs.Analysis.HiddenContents
import BracketLint.Proofs.Lines.Carry

/-!
The double quotes of scrubbed lines. A quote in the text that the scan leaves closes a literal or opens
one, and behind an opening quote the text goes on with a filler or with the quote that closes, unless
the line ends there. Only the free text of message directives holds quotes that were not scanned.
-/

namespace BracketLint

section Scan

theorem text_scanFrom_cons {mode : ScanMode} {before rest : Bytes} {b : UInt8} {step : ScanStep}
    (hstep : mode.step? before b rest = some step) :
    (scanFrom mode before (b :: rest)).text =
      (scanFrom step.mode (step.written :: before) rest).text := by
  rw [scanFrom_cons, hstep]
  dsimp only
  split_ifs
  · rfl
  · rfl

/-- What a step writes stands in the column of the byte that it reads. -/
theorem getElem?_scanFrom {mode : ScanMode} {before rest : Bytes} {b : UInt8} {step : ScanStep}
    (hstep : mode.step? before b rest = some step) :
    (scanFrom mode before (b :: rest)).text[before.length]? = some step.written := by
  obtain ⟨text, htext, -⟩ := exists_text_scanFrom step.mode (step.written :: before) rest
  rw [text_scanFrom_cons hstep, htext, List.reverse_cons, List.append_assoc, List.singleton_append,
    List.getElem?_append_right (Nat.le_of_eq List.length_reverse), List.length_reverse, Nat.sub_self,
    List.getElem?_cons_zero]

/-- The mark behind which a stray mark goes on is a slash. -/
theorem head?_of_step?_stray {mode : ScanMode} {before rest : Bytes} {b : UInt8} {step : ScanStep}
    (hstep : mode.step? before b rest = some step) (hstray : step.mode = .stray) :
    rest.head? = some Ascii.slash := by
  cases mode with
  | code =>
    rw [ScanMode.step?] at hstep
    split_ifs at hstep with _ _ _ _ hmark
    all_goals cases hstep
    all_goals try cases hstray
    rw [Bool.and_eq_true, beq_iff_eq, beq_iff_eq] at hmark
    exact hmark.2
  | literal quote =>
    rw [ScanMode.step?] at hstep
    split_ifs at hstep <;> cases hstep <;> cases hstray
  | comment =>
    rw [ScanMode.step?] at hstep
    split_ifs at hstep <;> cases hstep <;> cases hstray
  | escaped quote => cases hstep; cases hstray
  | opening => cases hstep; cases hstray
  | closing => cases hstep; cases hstray
  | stray => cases hstep; cases hstray

/-- A step that leaves a double quote closes a literal or opens one. -/
theorem mode_of_written_quote {mode : ScanMode} {before rest : Bytes} {b : UInt8} {step : ScanStep}
    (hstray : mode = .stray → b = Ascii.slash) (hstep : mode.step? before b rest = some step)
    (hquote : step.written = Ascii.doubleQuote) :
    mode = .literal .double ∨ mode = .code ∧ step.mode = .literal .double := by
  cases mode with
  | code =>
    right
    rw [ScanMode.step?] at hstep
    split_ifs at hstep with h₁ h₂ h₃ h₄ h₅
    all_goals cases hstep
    · exact ⟨rfl, rfl⟩
    · rw [Bool.and_eq_true, beq_iff_eq] at h₂
      rw [h₂.1] at hquote
      cases hquote
    · cases hquote
    · rw [Bool.and_eq_true, beq_iff_eq] at h₅
      rw [h₅.1] at hquote
      cases hquote
    · exact absurd (beq_iff_eq.mpr hquote) h₁
  | literal quote =>
    left
    rw [ScanMode.step?] at hstep
    split_ifs at hstep with h₁ h₂
    · cases hstep
      cases hquote
    · cases hstep
      rw [beq_iff_eq] at h₂
      cases quote with
      | double => rfl
      | single =>
        rw [h₂] at hquote
        cases hquote
    · cases hstep
      cases hquote
  | comment =>
    rw [ScanMode.step?] at hstep
    split_ifs at hstep <;> cases hstep <;> cases hquote
  | escaped quote => cases hstep; cases hquote
  | opening => cases hstep; cases hquote
  | closing => cases hstep; cases hquote
  | stray =>
    cases hstep
    rw [hstray rfl] at hquote
    cases hquote

/-- A double quote in the text that a scan leaves was read as the end of a literal or as its start. In
the text a filler or a quote follows a start, unless the line ends. -/
theorem quote_scanFrom {mode : ScanMode} {before rest : Bytes} {column : Nat}
    (hstray : mode = .stray → rest.head? = some Ascii.slash)
    (hquote : (scanFrom mode before rest).text[before.length + column]? = some Ascii.doubleQuote) :
    mode.modeAt? before rest column = some (.literal .double) ∨
      mode.modeAt? before rest column = some .code ∧
        (rest.length = column + 1 ∨ ∃ b, (b = filler ∨ b = Ascii.doubleQuote) ∧
          (scanFrom mode before rest).text[before.length + column + 1]? = some b) := by
  -- What the scan has written stays, so a column is looked up when its byte is read.
  induction rest generalizing mode before column with
  | nil =>
    -- All of the text was written before.
    have hlength : (scanFrom mode before []).text.length = before.length := by
      cases mode <;> exact List.length_reverse
    rw [List.getElem?_eq_none (by omega)] at hquote
    cases hquote
  | cons b rest ih =>
    cases hstep : mode.step? before b rest with
    | none =>
      rw [scanFrom_cons, hstep] at hquote
      dsimp only [cutAtComment] at hquote
      -- At a line comment there is a backslash at most.
      rw [List.getElem?_append_right (by rw [List.length_reverse]; omega)] at hquote
      have hmem := List.mem_of_getElem? hquote
      split_ifs at hmem
      · exact absurd (List.mem_singleton.mp hmem) (by decide)
      · cases hmem
    | some step =>
      cases column with
      | zero =>
        rw [Nat.add_zero, getElem?_scanFrom hstep, Option.some.injEq] at hquote
        have hslash (h : mode = .stray) : b = Ascii.slash := Option.some.inj (hstray h)
        rcases mode_of_written_quote hslash hstep hquote with rfl | ⟨rfl, hmode⟩
        · exact .inl rfl
        refine .inr ⟨rfl, ?_⟩
        cases rest with
        | nil => exact .inl rfl
        | cons c rest =>
          right
          rw [text_scanFrom_cons hstep, hmode]
          -- In a literal every byte is written over but the quote at its end.
          have hnext : ∃ next, (ScanMode.literal .double).step? (step.written :: before) c rest =
              some next ∧ (next.written = filler ∨ next.written = Ascii.doubleQuote) := by
            rw [ScanMode.step?]
            split_ifs with _ hend
            · exact ⟨_, rfl, .inl rfl⟩
            · exact ⟨_, rfl, .inr (beq_iff_eq.mp hend)⟩
            · exact ⟨_, rfl, .inl rfl⟩
          obtain ⟨next, hnext, hwritten⟩ := hnext
          exact ⟨next.written, hwritten, getElem?_scanFrom hnext⟩
      | succ column =>
        have hshift : before.length + (column + 1) = (step.written :: before).length + column := by
          rw [List.length_cons]
          omega
        rw [text_scanFrom_cons hstep, hshift] at hquote ⊢
        have hbehind := ih (head?_of_step?_stray hstep) hquote
        rw [ScanMode.modeAt?, hstep, Option.bind_some, List.length_cons, Nat.succ.injEq]
        exact hbehind

end Scan

section Line

variable {raw : Bytes} {column : Nat}

theorem text_closeLine (index : Nat) (raw : Bytes) (scan : ScannedLine) :
    (closeLine index raw scan).text = scan.text ∨
      (closeLine index raw scan).text = scan.text.dropLast ++ [Ascii.backslash] := by
  unfold closeLine
  dsimp only
  split
  · split_ifs
    · exact .inr rfl
    · exact .inl rfl
  · exact .inl rfl

/-- Only a backslash can take the place of a scanned byte. -/
theorem getElem?_closeLine {index : Nat} {scan : ScannedLine} {b : UInt8}
    (h : (closeLine index raw scan).text[column]? = some b) :
    scan.text[column]? = some b ∨ b = Ascii.backslash := by
  rcases text_closeLine index raw scan with heq | heq
  · rw [heq] at h
    exact .inl h
  rw [heq] at h
  by_cases hlt : column < scan.text.dropLast.length
  · rw [List.getElem?_append_left hlt, List.getElem?_dropLast] at h
    split_ifs at h
    exact .inl h
  · rw [List.getElem?_append_right (Nat.le_of_not_lt hlt)] at h
    exact .inr (List.mem_singleton.mp (List.mem_of_getElem? h))

theorem getElem?_closeLine_of_scan {index : Nat} {scan : ScannedLine} {b : UInt8}
    (h : scan.text[column]? = some b) :
    (closeLine index raw scan).text[column]? = some b ∨
      (closeLine index raw scan).text[column]? = some Ascii.backslash := by
  rcases text_closeLine index raw scan with heq | heq
  · rw [heq]
    exact .inl h
  rw [heq]
  have hlength : column < scan.text.length := (List.getElem?_eq_some_iff.mp h).1
  by_cases hlt : column < scan.text.dropLast.length
  · left
    rw [List.length_dropLast] at hlt
    rw [List.getElem?_append_left (by rwa [List.length_dropLast]), List.getElem?_dropLast,
      if_pos hlt]
    exact h
  · right
    rw [List.length_dropLast] at hlt
    rw [List.getElem?_append_right (by rw [List.length_dropLast]; omega), List.length_dropLast,
      show column - (scan.text.length - 1) = 0 by omega]
    rfl

/-- On a line that is scanned, a double quote in the text ends a literal or starts one. More of the
text follows a start, unless the line ends there. -/
theorem quote_blankLine {index : Nat} {carry : Carry}
    (hscanned : (carry == .message || (carry == .code && isMessageDirective raw)) = false)
    (hquote : (blankLine index carry raw).text[column]? = some Ascii.doubleQuote) :
    carry.mode.modeAt? [] raw column = some (.literal .double) ∨
      carry.mode.modeAt? [] raw column = some .code ∧
        (raw.length = column + 1 ∨
          ∃ b ∈ [filler, Ascii.doubleQuote, Ascii.backslash],
            (blankLine index carry raw).text[column + 1]? = some b) := by
  rw [blankLine, if_neg (Bool.eq_false_iff.mp hscanned)] at hquote ⊢
  have hstray : carry.mode = .stray → raw.head? = some Ascii.slash := by
    intro h
    cases carry <;> cases h
  have hread : (scanFrom carry.mode [] raw).text[([] : Bytes).length + column]? =
      some Ascii.doubleQuote := by
    rw [List.length_nil, Nat.zero_add]
    exact (getElem?_closeLine hquote).resolve_right (by decide)
  rcases quote_scanFrom hstray hread with hend | ⟨hmode, hlast | ⟨b, hb, hbyte⟩⟩
  · exact .inl hend
  · exact .inr ⟨hmode, .inl hlast⟩
  refine .inr ⟨hmode, .inr ?_⟩
  rw [List.length_nil, Nat.zero_add] at hbyte
  rcases getElem?_closeLine_of_scan hbyte with hkept | hbackslash
  · refine ⟨b, ?_, hkept⟩
    rcases hb with rfl | rfl <;> simp
  · exact ⟨_, by simp, hbackslash⟩

end Line

namespace Lines

variable {raws : List Bytes}

/-- The text of a line, if it has any, is what the pass over literals leaves of it, but for blanks at
its end. -/
theorem text_of_getElem? (kind : FileKind) (options : ScrubOptions) {index column : Nat} {b : UInt8}
    (h : ((ofRawLines raws kind options).1.text (index + 1))[column]? = some b) :
    ∃ raw, raws[index]? = some raw ∧ (ofRawLines raws kind options).1.text (index + 1) =
      Bytes.trimEnd (blankLine (1 + index) (carryBehind .code (raws.take index)) raw).text := by
  rw [text_ofRawLines] at h ⊢
  obtain ⟨text, htext⟩ : ∃ text, (finalTexts raws)[index]? = some text := by
    cases htext : (finalTexts raws)[index]? with
    | none =>
      rw [htext] at h
      cases h
    | some text => exact ⟨text, rfl⟩
  rw [htext, Option.getD_some] at h ⊢
  obtain ⟨hlt, rfl⟩ := List.getElem?_eq_some_iff.mp htext
  have hlt' : index < raws.length := length_finalTexts raws ▸ hlt
  have hlt'' : index < (trimmedTexts raws).length := by rwa [length_trimmedTexts]
  refine ⟨raws[index], List.getElem?_eq_getElem hlt', ?_⟩
  have hkept := (List.forall₂_iff_get.mp (emptied_finalTexts raws)).2 index hlt'' hlt
  rw [List.get_eq_getElem, List.get_eq_getElem] at hkept
  -- An emptied line has no byte.
  have htrimmed := hkept.resolve_left fun hempty => by
    rw [hempty] at h
    cases h
  have hline : (trimmedTexts raws)[index]? =
      some (Bytes.trimEnd (blankLine (1 + index) (carryBehind .code (raws.take index))
        raws[index]).text) := by
    rw [trimmedTexts, List.getElem?_map,
      getElem?_blankLines 1 .code (List.getElem?_eq_getElem hlt'), Option.map_some]
  rw [htrimmed]
  rw [List.getElem?_eq_getElem hlt'', Option.some.injEq] at hline
  exact hline

/-- A double quote in the scrubbed text of a line ends a literal, or starts one, or it stands in text
that is not scanned. More of the text follows a start, unless the line ends there. -/
theorem quote_text (kind : FileKind) (options : ScrubOptions) {index column : Nat}
    (h : ((ofRawLines raws kind options).1.text (index + 1))[column]? = some Ascii.doubleQuote) :
    ∃ raw, raws[index]? = some raw ∧ raw[column]? = some Ascii.doubleQuote ∧
      (modeAt? raws index column = some (.literal .double) ∨ modeAt? raws index column = none ∨
        modeAt? raws index column = some .code ∧
          (raw.length = column + 1 ∨ ∃ b ∈ [filler, Ascii.doubleQuote, Ascii.backslash],
            ((ofRawLines raws kind options).1.text (index + 1))[column + 1]? = some b)) := by
  obtain ⟨raw, hraw, htext⟩ := text_of_getElem? kind options h
  have hkeeps := keepsColumns_ofRawLines kind options raws (index + 1)
  rw [raw_ofRawLines, hraw, Option.getD_some] at hkeeps
  have hbyte : raw[column]? = some Ascii.doubleQuote := by
    refine (hkeeps.byte_eq column _ h).resolve_right ?_
    rintro (heq | heq | heq) <;> cases heq
  refine ⟨raw, hraw, hbyte, ?_⟩
  rw [modeAt?, hraw, Option.bind_some]
  dsimp only
  split
  · exact .inr (.inl rfl)
  next hscanned =>
  have hprefix := Bytes.trimEnd_prefix
    (blankLine (1 + index) (carryBehind .code (raws.take index)) raw).text
  rw [htext] at h
  have hblanked : (blankLine (1 + index) (carryBehind .code (raws.take index)) raw).text[column]? =
      some Ascii.doubleQuote := by
    obtain ⟨rest, hrest⟩ := hprefix
    rw [← hrest, List.getElem?_append_left (List.getElem?_eq_some_iff.mp h).1]
    exact h
  rcases quote_blankLine (Bool.eq_false_iff.mpr hscanned) hblanked with
    hend | ⟨hstart, hlast | ⟨b, hb, hnext⟩⟩
  · exact .inl hend
  · exact .inr (.inr ⟨hstart, .inl hlast⟩)
  refine .inr (.inr ⟨hstart, .inr ⟨b, hb, ?_⟩⟩)
  -- None of these bytes is a blank, so the line is not trimmed in front of it.
  have hascii : b < 0x80 ∧ Bytes.isBlankByte b = false := by
    simp only [List.mem_cons, List.not_mem_nil, or_false] at hb
    rcases hb with rfl | rfl | rfl <;> decide
  rw [htext]
  exact Bytes.getElem?_trimEnd hascii.1 hascii.2 hnext

end Lines
end BracketLint
