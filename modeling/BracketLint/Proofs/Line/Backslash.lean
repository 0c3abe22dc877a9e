import Mathlib.Data.List.Basic
import BracketLint.Proofs.Line.Scan
import BracketLint.Proofs.Text.Blank

/-!
The backslash at the end of a line. Blanks behind it leave the scan in its mode, so what becomes of it
shows in what is open at the end of the line. In code it stays, and behind a line comment it is
written back; in a block comment it is blanked, and in a literal it is written back only if no blank
stands behind it.
-/

namespace BracketLint

/-- The bytes that leave the scan in its mode: no quote, no backslash and no part of a mark. -/
structure KeepsMode (b : UInt8) : Prop where
  ne_doubleQuote : b ≠ Ascii.doubleQuote
  ne_singleQuote : b ≠ Ascii.singleQuote
  ne_star : b ≠ Ascii.star
  ne_slash : b ≠ Ascii.slash
  ne_backslash : b ≠ Ascii.backslash

theorem keepsMode_of_blank {b : UInt8} (h : Bytes.isBlankByte b = true ∨ 0x80 ≤ b) :
    KeepsMode b := by
  have hne {c : UInt8} (hblank : Bytes.isBlankByte c = false) (hascii : c < 0x80) : b ≠ c := by
    rintro rfl
    rcases h with h | h
    · rw [hblank] at h
      cases h
    · exact UInt8.not_lt.mpr h hascii
  exact ⟨hne (by decide) (by decide), hne (by decide) (by decide), hne (by decide) (by decide),
    hne (by decide) (by decide), hne (by decide) (by decide)⟩

section Scan

variable {mode : ScanMode} {before raw rest : Bytes} {b : UInt8}

theorem KeepsMode.step?_code (hb : KeepsMode b) (before rest : Bytes) :
    ScanMode.code.step? before b rest = some ⟨b, .code⟩ := by
  simp [ScanMode.step?, hb.ne_doubleQuote, hb.ne_singleQuote, hb.ne_star, hb.ne_slash]

theorem KeepsMode.step? (hb : KeepsMode b) (mode : ScanMode) (before rest : Bytes) :
    ∃ step, mode.step? before b rest = some step ∧ step.mode.carry = mode.carry := by
  cases mode with
  | code => exact ⟨_, hb.step?_code before rest, rfl⟩
  | literal quote =>
    have hquote : b ≠ quote.byte := by
      cases quote with
      | double => exact hb.ne_doubleQuote
      | single => exact hb.ne_singleQuote
    exact ⟨⟨filler, .literal quote⟩, by simp [ScanMode.step?, hb.ne_backslash, hquote], rfl⟩
  | escaped quote => exact ⟨_, rfl, rfl⟩
  | comment => exact ⟨⟨Ascii.space, .comment⟩, by simp [ScanMode.step?, hb.ne_star], rfl⟩
  | opening => exact ⟨_, rfl, rfl⟩
  | closing => exact ⟨_, rfl, rfl⟩
  | stray => exact ⟨_, rfl, rfl⟩

theorem scanFrom_of_step? {step : ScanStep} (h : mode.step? before b rest = some step) :
    let behind := scanFrom step.mode (step.written :: before) rest
    (scanFrom mode before (b :: rest)).text = behind.text ∧
      (scanFrom mode before (b :: rest)).mode = behind.mode := by
  rw [scanFrom_cons, h]
  dsimp only
  split_ifs
  · exact ⟨rfl, rfl⟩
  · exact ⟨rfl, rfl⟩

/-- Over bytes that leave it in its mode the scan opens and closes nothing. -/
theorem carry_scanFrom_of_keepsMode (hrest : ∀ b ∈ rest, KeepsMode b) (mode : ScanMode)
    (before : Bytes) : (scanFrom mode before rest).mode.carry = mode.carry := by
  induction rest generalizing mode before with
  | nil => cases mode <;> simp [scanFrom]
  | cons b rest ih =>
    obtain ⟨step, hstep, hcarry⟩ := (hrest b List.mem_cons_self).step? mode before rest
    rw [(scanFrom_of_step? hstep).2, ih fun c hc => hrest c (List.mem_cons_of_mem _ hc), hcarry]

/-- In code the scan leaves such bytes as they are. -/
theorem text_scanFrom_of_keepsMode (hrest : ∀ b ∈ rest, KeepsMode b) (before : Bytes) :
    (scanFrom .code before rest).text = before.reverse ++ rest := by
  induction rest generalizing before with
  | nil => rw [scanFrom, List.append_nil]
  | cons b rest ih =>
    have hstep := (hrest b List.mem_cons_self).step?_code before rest
    rw [(scanFrom_of_step? hstep).1, ih fun c hc => hrest c (List.mem_cons_of_mem _ hc),
      List.reverse_cons, List.append_assoc, List.singleton_append]

/-- The mark that closes a comment ends in a slash. -/
theorem head?_of_step?_closing {step : ScanStep} (h : mode.step? before b rest = some step)
    (hclosing : step.mode = .closing) : rest.head? = some Ascii.slash := by
  cases mode with
  | code =>
    rw [ScanMode.step?] at h
    split_ifs at h <;> cases h <;> cases hclosing
  | literal quote =>
    rw [ScanMode.step?] at h
    split_ifs at h <;> cases h <;> cases hclosing
  | comment =>
    rw [ScanMode.step?] at h
    split_ifs at h with hmark
    · rw [Bool.and_eq_true] at hmark
      exact beq_iff_eq.mp hmark.2
    · cases h
      cases hclosing
  | escaped quote =>
    cases h
    cases hclosing
  | opening =>
    cases h
    cases hclosing
  | closing =>
    cases h
    cases hclosing
  | stray =>
    cases h
    cases hclosing

/-- The scan leaves a backslash in code. In a literal or a comment it writes over it, and that stays
open. -/
theorem step?_backslash (hclosing : mode ≠ .closing) (before rest : Bytes) :
    ∃ step, mode.step? before Ascii.backslash rest = some step ∧
      (step = ⟨Ascii.backslash, .code⟩ ∨ step.mode.carry ≠ .code) := by
  cases mode with
  | code => exact ⟨_, rfl, .inl rfl⟩
  | literal quote => exact ⟨_, rfl, .inr nofun⟩
  | escaped quote => exact ⟨_, rfl, .inr nofun⟩
  | comment => exact ⟨_, rfl, .inr nofun⟩
  | opening => exact ⟨_, rfl, .inr nofun⟩
  | closing => exact absurd rfl hclosing
  | stray => exact ⟨_, rfl, .inl rfl⟩

/-- A line that ends in a backslash, blanks aside. -/
theorem endsIn_trimEnd_backslash_iff {bytes : Bytes} :
    (Bytes.trimEnd bytes).endsIn Ascii.backslash = true ↔
      ∃ front rest, bytes = front ++ Ascii.backslash :: rest ∧ Bytes.trimEnd rest = [] :=
  Bytes.endsIn_trimEnd_iff (by decide) (by decide)

/-- If nothing is open at the end of a line, a backslash that it ends in is kept. -/
theorem endsIn_trimEnd_scanFrom (hraw : (Bytes.trimEnd raw).endsIn Ascii.backslash = true)
    (hclosing : mode = .closing → raw.head? = some Ascii.slash)
    (hcarry : (scanFrom mode before raw).mode.carry = .code) :
    (Bytes.trimEnd (scanFrom mode before raw).text).endsIn Ascii.backslash = true := by
  obtain ⟨front, rest, rfl, hrest⟩ := endsIn_trimEnd_backslash_iff.mp hraw
  clear hraw
  induction front generalizing mode before with
  | nil =>
    have hmode : mode ≠ .closing := fun h =>
      absurd (Option.some.inj (hclosing h)) (by decide : Ascii.backslash ≠ Ascii.slash)
    obtain ⟨step, hstep, hwritten⟩ := step?_backslash hmode before rest
    obtain ⟨htext, hmode'⟩ := scanFrom_of_step? hstep
    have hblank : ∀ b ∈ rest, KeepsMode b := fun b hb =>
      keepsMode_of_blank (Bytes.isBlankByte_or_le_of_mem hrest hb)
    -- The blanks behind the backslash leave open what is open there.
    rw [List.nil_append, hmode', carry_scanFrom_of_keepsMode hblank] at hcarry
    obtain rfl := hwritten.resolve_right (not_not.mpr hcarry)
    rw [List.nil_append, htext, text_scanFrom_of_keepsMode hblank, List.reverse_cons,
      List.append_assoc]
    exact endsIn_trimEnd_backslash_iff.mpr ⟨before.reverse, rest, rfl, hrest⟩
  | cons b front ih =>
    rw [List.cons_append] at hcarry ⊢
    cases hstep : mode.step? before b (front ++ Ascii.backslash :: rest) with
    | none =>
      -- The rest of the line is a comment, which ends in the same backslash.
      have hslash := (ScanMode.of_step?_eq_none hstep).2.2
      cases front with
      | nil => cases hslash
      | cons c front =>
        have hbody : (Bytes.trimEnd (front ++ Ascii.backslash :: rest)).endsIn Ascii.backslash :=
          endsIn_trimEnd_backslash_iff.mpr ⟨front, rest, rfl, hrest⟩
        rw [scanFrom_cons, hstep]
        dsimp only [cutAtComment, List.cons_append, List.tail_cons]
        rw [if_pos hbody]
        exact endsIn_trimEnd_backslash_iff.mpr ⟨before.reverse, [], rfl, rfl⟩
    | some step =>
      obtain ⟨htext, hmode⟩ := scanFrom_of_step? hstep
      rw [hmode] at hcarry
      rw [htext]
      exact ih (head?_of_step?_closing hstep) hcarry

end Scan

/-- A scan leaves no message open. -/
theorem ScanMode.carry_ne_message (mode : ScanMode) : mode.carry ≠ .message := by
  cases mode <;> exact nofun

/-- A backslash that a line ends in, blanks aside, is lost only in a block comment that goes on behind
the line, and in a literal that is reported because a blank stands behind the backslash. -/
theorem endsIn_trimEnd_blankLine {index : Nat} {carry : Carry} {raw : Bytes}
    (hraw : (Bytes.trimEnd raw).endsIn Ascii.backslash = true)
    (hcomment : (blankLine index carry raw).carry ≠ .comment)
    (hliteral : ∀ d ∈ (blankLine index carry raw).diagnostics, ∀ quote,
      d.issue ≠ .unterminatedLiteral quote) :
    (Bytes.trimEnd (blankLine index carry raw).text).endsIn Ascii.backslash = true := by
  rw [blankLine] at hcomment hliteral ⊢
  split
  · exact hraw
  next hscanned =>
    rw [if_neg hscanned] at hcomment hliteral
    unfold closeLine at hcomment hliteral ⊢
    dsimp only at hcomment hliteral ⊢
    cases hcarry : (scanFrom carry.mode [] raw).mode.carry with
    | code =>
      refine endsIn_trimEnd_scanFrom hraw (fun h => ?_) hcarry
      cases carry <;> cases h
    | comment =>
      rw [hcarry] at hcomment
      exact absurd rfl hcomment
    | message => exact absurd hcarry (ScanMode.carry_ne_message _)
    | literal quote =>
      rw [hcarry] at hliteral
      dsimp only at hliteral ⊢
      split_ifs at hliteral ⊢
      · exact endsIn_trimEnd_backslash_iff.mpr ⟨_, [], rfl, rfl⟩
      · exact absurd rfl (hliteral _ (List.mem_append_right _ List.mem_cons_self) quote)

end BracketLint
