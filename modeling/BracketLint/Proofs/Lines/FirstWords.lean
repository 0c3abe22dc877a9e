import BracketLint.Proofs.Lines.Columns
import BracketLint.Proofs.Lines.Words

/-!
The lines that count as blank. The kind of a line is read off the first word behind its blanks and
closing braces, and a line without such a word is of the blank kind: the lines on which scrubbing
leaves nothing, but also a line of code that starts with a bracket or another symbol.
-/

namespace BracketLint

namespace Statement

/-- Whether a line leads to a rest over nothing but blanks and closing braces. -/
inductive LeadsTo : (line rest : Bytes) → Prop
  | here (rest : Bytes) : LeadsTo rest rest
  | blanks {blanks line rest : Bytes} (hblanks : Bytes.trimStart blanks = [])
      (h : LeadsTo line rest) : LeadsTo (blanks ++ line) rest
  | closer {line rest : Bytes} (h : LeadsTo line rest) : LeadsTo (Ascii.closeBrace :: line) rest

/-- Whether a line has a word behind the blanks and closing braces that it starts with. -/
def StartsWithWord (line : Bytes) : Prop :=
  ∃ b rest, LeadsTo line (b :: rest) ∧ Ascii.isWordByte b = true

section DropClosers

variable {b : UInt8} {line rest : Bytes}

theorem isBlankByte_of_isWordByte (h : Ascii.isWordByte b = true) :
    Bytes.isBlankByte b = false := by
  have hle : 48 ≤ b.toNat := by
    simp only [Ascii.isWordByte, Ascii.isAlphanumeric, Ascii.isDigit, Bool.or_eq_true,
      Bool.and_eq_true, decide_eq_true_eq, beq_iff_eq, UInt8.le_iff_toNat_le] at h
    rcases h with ((⟨h, -⟩ | ⟨h, -⟩) | ⟨h, -⟩) | rfl
    · exact h
    · exact Nat.le_trans (by decide) h
    · exact Nat.le_trans (by decide) h
    · decide
  rw [← Bool.not_eq_true]
  intro hblank
  simp only [Bytes.isBlankByte, Bool.or_eq_true, Bool.and_eq_true, decide_eq_true_eq, beq_iff_eq,
    UInt8.le_iff_toNat_le] at hblank
  rcases hblank with ⟨-, hblank⟩ | rfl
  · exact absurd (Nat.le_trans hle hblank) (by decide)
  · exact absurd hle (by decide)

theorem trimStart_of_isWordByte (h : Ascii.isWordByte b = true) (rest : Bytes) :
    Bytes.trimStart (b :: rest) = b :: rest :=
  Bytes.trimStart_cons_of_ascii (Lines.lt_of_isWordByte h) (isBlankByte_of_isWordByte h) rest

theorem dropClosers_closer (line : Bytes) :
    dropClosers (Ascii.closeBrace :: line) = dropClosers line := by
  have htrim : Bytes.trimStart (Ascii.closeBrace :: line) = Ascii.closeBrace :: line :=
    Bytes.trimStart_cons_of_ascii (by decide) (by decide) line
  rw [dropClosers, htrim, dif_neg (Nat.lt_irrefl _), if_pos (by decide)]

theorem dropClosers_of_isWordByte (h : Ascii.isWordByte b = true) (rest : Bytes) :
    dropClosers (b :: rest) = b :: rest := by
  have hcloser : (b == Ascii.closeBrace) = false := by
    rw [beq_eq_false_iff_ne]
    rintro rfl
    cases h
  rw [dropClosers, trimStart_of_isWordByte h, dif_neg (Nat.lt_irrefl _), hcloser]
  rfl

/-- The blanks in front may be taken off before the closing braces. -/
theorem dropClosers_trimStart (line : Bytes) :
    dropClosers (Bytes.trimStart line) = dropClosers line := by
  have hle : (Bytes.trimStart line).length ≤ line.length := (Bytes.trimStart_suffix line).length_le
  rcases Nat.lt_or_eq_of_le hle with hlt | heq
  · cases line with
    | nil => rfl
    | cons b rest =>
      conv_rhs => rw [dropClosers]
      rw [dif_pos hlt]
  · rw [(Bytes.trimStart_suffix line).eq_of_length heq]

theorem LeadsTo.suffix (h : LeadsTo line rest) : rest <:+ line := by
  induction h with
  | here => exact List.suffix_refl _
  | blanks _ _ ih => exact ih.trans (List.suffix_append _ _)
  | closer _ ih => exact ih.trans (List.suffix_cons _ _)

theorem LeadsTo.dropClosers_eq (h : LeadsTo line (b :: rest)) (hword : Ascii.isWordByte b = true) :
    dropClosers line = b :: rest := by
  generalize hbehind : b :: rest = behind at h
  induction h with
  | here =>
    rw [← hbehind]
    exact dropClosers_of_isWordByte hword rest
  | blanks hblanks _ ih =>
    rw [← dropClosers_trimStart, Bytes.trimStart_blanks_append hblanks, dropClosers_trimStart,
      ih hbehind]
  | closer _ ih => rw [dropClosers_closer, ih hbehind]

theorem leadsTo_dropClosers (line : Bytes) : LeadsTo line (dropClosers line) := by
  fun_induction dropClosers line with
  | case1 => exact .here []
  | case2 b rest text hlt ih =>
    obtain ⟨blanks, hblanks, happend⟩ := Bytes.exists_blanks_append_trimStart (b :: rest)
    rw [← happend]
    exact .blanks hblanks ih
  | case3 b rest text hlt hcloser ih =>
    rw [beq_iff_eq.mp hcloser]
    exact .closer ih
  | case4 => exact .here _

/-- The search for the first word finds it where the line leads to one. -/
theorem startsWithWord_iff (line : Bytes) :
    StartsWithWord line ↔ ((dropClosers line).takeWhile Ascii.isWordByte) ≠ [] := by
  constructor
  · rintro ⟨b, rest, hlead, hword⟩
    rw [hlead.dropClosers_eq hword, List.takeWhile_cons_of_pos hword]
    exact List.cons_ne_nil _ _
  · intro hne
    have hlead := leadsTo_dropClosers line
    cases hdrop : dropClosers line with
    | nil => exact absurd (congrArg (List.takeWhile Ascii.isWordByte) hdrop) hne
    | cons b rest =>
      rw [hdrop] at hlead hne
      by_cases hword : Ascii.isWordByte b = true
      · exact ⟨b, rest, hlead, hword⟩
      · exact absurd (List.takeWhile_cons_of_neg hword) hne

end DropClosers

section Kind

variable {line : Bytes}

theorem firstWord_eq_iff (line : Bytes) : firstWord line = "" ↔ ¬StartsWithWord line := by
  rw [startsWithWord_iff, not_not, firstWord, Bytes.toWord, String.ofList_eq_empty_iff,
    List.map_eq_nil_iff]

theorem ofKeyword_eq_blank_iff (word : String) : ofKeyword word = .blank ↔ word = "" := by
  refine ⟨fun h => ?_, fun h => h ▸ rfl⟩
  unfold ofKeyword at h
  split at h
  · rfl
  -- Every keyword has a kind of its own, and any other word is an assertion or nothing special.
  all_goals try cases h
  split_ifs at h

/-- Nothing but blanks is no word. -/
theorem not_startsWithWord_of_trim (h : Bytes.trim line = []) : ¬StartsWithWord line := by
  rintro ⟨b, rest, hlead, hword⟩
  obtain ⟨front, rfl⟩ := hlead.suffix
  rw [Bytes.trim, Bytes.trimStart_append_of_ascii (Lines.lt_of_isWordByte hword)
    (isBlankByte_of_isWordByte hword)] at h
  rcases Bytes.isBlankByte_or_le_of_mem h (List.mem_append_right _ List.mem_cons_self) with
    hblank | hle
  · rw [isBlankByte_of_isWordByte hword] at hblank
    cases hblank
  · exact absurd (Lines.lt_of_isWordByte hword) (UInt8.not_lt.mpr hle)

theorem ofLine_eq_blank_iff (kind : FileKind) (markers : List String) (line : Bytes) :
    ofLine kind markers line = .blank ↔ ¬StartsWithWord line := by
  rw [ofLine]
  split
  next htrim => exact iff_of_true rfl (not_startsWithWord_of_trim (List.isEmpty_iff.mp htrim))
  next =>
    dsimp only
    rw [← firstWord_eq_iff, ← ofKeyword_eq_blank_iff]
    split
    next hne => exact Iff.rfl
    next hother =>
      rw [bne_iff_ne, not_not] at hother
      rw [hother]
      split <;> decide

end Kind
end Statement

namespace Lines

/-- A line is of the blank kind exactly if no word stands behind the blanks and closing braces that
it starts with, as is the case for a line on which nothing is left. -/
theorem statement_scrub_eq_blank_iff (source : Bytes) (kind : FileKind) (options : ScrubOptions)
    (index : Nat) :
    let lines := (scrub source kind options).1
    ((lines.line index).statement = .blank ↔ ¬Statement.StartsWithWord (lines.text index)) ∧
      (lines.isBlank index = true → (lines.line index).statement = .blank) := by
  intro lines
  have hstatement : (lines.line index).statement =
      Statement.ofLine kind options.assertMarkers (lines.text index) :=
    congrArg Line.statement (line_eq_ofText kind options _ index)
  rw [hstatement]
  refine ⟨Statement.ofLine_eq_blank_iff kind options.assertMarkers _, fun hblank => ?_⟩
  rw [List.isEmpty_iff.mp hblank]
  rfl

/-- A closing brace is code on a line of the blank kind. -/
theorem statement_scrub_closeBrace :
    let lines := (scrub (Bytes.ofString "\x7d") .implementation {}).1
    (lines.line 1).statement = .blank ∧ lines.isBlank 1 = false := by
  decide +kernel

end Lines
end BracketLint
