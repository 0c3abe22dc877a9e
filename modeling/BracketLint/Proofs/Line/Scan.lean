import Mathlib.Data.List.Basic
import BracketLint.Line.Literal

/-!
The scan of a line byte by byte. Every byte that the scan reads makes one step: it depends on the
mode, on the bytes already written and on what lies behind the byte, and it gives the byte that is
written in its place and the next mode. A line comment makes no step; it ends the scan.
-/

namespace BracketLint

/-- The byte that is written for the byte read, and the mode in which the next one is read. -/
structure ScanStep where
  written : UInt8
  mode : ScanMode
  deriving DecidableEq, Repr

namespace ScanMode

/-- The step of the scan at a byte, with the bytes written before it in reverse order. -/
def step? : ScanMode → (before : Bytes) → UInt8 → (rest : Bytes) → Option ScanStep
  | .code, before, b, rest =>
    if b == Ascii.doubleQuote then some ⟨b, .literal .double⟩
    else if b == Ascii.singleQuote && !isDigitSeparator before rest then some ⟨b, .literal .single⟩
    else if b == Ascii.slash && rest.head? == some Ascii.slash then none
    else if b == Ascii.slash && rest.head? == some Ascii.star then some ⟨Ascii.space, .opening⟩
    else if b == Ascii.star && rest.head? == some Ascii.slash then some ⟨b, .stray⟩
    else some ⟨b, .code⟩
  | .literal quote, _, b, _ =>
    if b == Ascii.backslash then some ⟨filler, .escaped quote⟩
    else if b == quote.byte then some ⟨b, .code⟩
    else some ⟨filler, .literal quote⟩
  | .escaped quote, _, _, _ => some ⟨filler, .literal quote⟩
  | .comment, _, b, rest =>
    if b == Ascii.star && rest.head? == some Ascii.slash then some ⟨Ascii.space, .closing⟩
    else some ⟨Ascii.space, .comment⟩
  | .opening, _, _, _ => some ⟨Ascii.space, .comment⟩
  | .closing, _, _, _ => some ⟨Ascii.space, .code⟩
  | .stray, _, b, _ => some ⟨b, .code⟩

/-- The mode in which the scan reads the byte at a column, if it comes to that byte. -/
def modeAt? : ScanMode → (before : Bytes) → Bytes → (column : Nat) → Option ScanMode
  | _, _, [], _ => none
  | mode, _, _ :: _, 0 => some mode
  | mode, before, b :: rest, column + 1 =>
    (mode.step? before b rest).bind fun step =>
      step.mode.modeAt? (step.written :: before) rest column

/-- The modes in which a byte is the contents of a string literal or of a block comment. -/
def isHidden : ScanMode → Bool
  | .literal .double | .comment => true
  | _ => false

theorem isHidden_iff {mode : ScanMode} :
    mode.isHidden = true ↔ mode = .literal .double ∨ mode = .comment := by
  constructor
  · intro h
    unfold isHidden at h
    split at h
    · exact Or.inl rfl
    · exact Or.inr rfl
    · cases h
  · rintro (rfl | rfl) <;> rfl

end ScanMode

open ScanMode

/-- The scan makes its steps one after another until the line or the code on it ends. -/
theorem scanFrom_cons (mode : ScanMode) (before : Bytes) (b : UInt8) (rest : Bytes) :
    scanFrom mode before (b :: rest) =
      match mode.step? before b rest with
      | none => cutAtComment before rest.tail
      | some step =>
        if step.mode = .stray then
          (scanFrom step.mode (step.written :: before) rest).addStray before.length
        else scanFrom step.mode (step.written :: before) rest := by
  cases mode with
  | code =>
    rw [scanFrom, step?]
    split_ifs <;> rfl
  | literal quote =>
    rw [scanFrom, step?]
    split_ifs <;> rfl
  | comment =>
    rw [scanFrom, step?]
    split_ifs <;> rfl
  | escaped quote => rfl
  | opening => rfl
  | closing => rfl
  | stray => rfl

/-- Only a line comment ends the scan in front of the end of the line. -/
theorem ScanMode.of_step?_eq_none {mode : ScanMode} {before rest : Bytes} {b : UInt8}
    (h : mode.step? before b rest = none) :
    mode = .code ∧ b = Ascii.slash ∧ rest.head? = some Ascii.slash := by
  cases mode with
  | code =>
    rw [step?] at h
    split_ifs at h with _ _ hcomment
    rw [Bool.and_eq_true, beq_iff_eq, beq_iff_eq] at hcomment
    exact ⟨rfl, hcomment⟩
  | literal quote =>
    rw [step?] at h
    split_ifs at h
  | comment =>
    rw [step?] at h
    split_ifs at h
  | escaped quote => cases h
  | opening => cases h
  | closing => cases h
  | stray => cases h

/-- Only a closing mark in code makes the scan expect the slash of one. -/
theorem ScanMode.of_step?_stray {mode : ScanMode} {before rest : Bytes} {b : UInt8}
    {step : ScanStep} (h : mode.step? before b rest = some step) (hstray : step.mode = .stray) :
    b = Ascii.star ∧ rest.head? = some Ascii.slash := by
  cases mode with
  | code =>
    rw [step?] at h
    split_ifs at h with _ _ _ _ hmark <;> cases h <;> cases hstray
    rwa [Bool.and_eq_true, beq_iff_eq, beq_iff_eq] at hmark
  | literal quote =>
    rw [step?] at h
    split_ifs at h <;> cases h <;> cases hstray
  | comment =>
    rw [step?] at h
    split_ifs at h <;> cases h <;> cases hstray
  | escaped quote | opening | closing | stray =>
    cases h
    cases hstray

/-- A step writes the byte that it reads, or a filler, or a blank. -/
theorem ScanMode.written_of_step? {mode : ScanMode} {before rest : Bytes} {b : UInt8}
    {step : ScanStep} (h : mode.step? before b rest = some step) :
    step.written = b ∨ step.written = filler ∨ step.written = Ascii.space := by
  cases mode with
  | code =>
    rw [step?] at h
    split_ifs at h <;> cases h <;> simp
  | literal quote =>
    rw [step?] at h
    split_ifs at h <;> cases h <;> simp
  | comment =>
    rw [step?] at h
    split_ifs at h <;> cases h <;> simp
  | escaped quote =>
    cases h
    exact Or.inr (Or.inl rfl)
  | opening =>
    cases h
    exact Or.inr (Or.inr rfl)
  | closing =>
    cases h
    exact Or.inr (Or.inr rfl)
  | stray =>
    cases h
    exact Or.inl rfl

end BracketLint
