import Mathlib.Data.List.Basic
import BracketLint.Proofs.Line.Scan
import BracketLint.Proofs.Text.Blank

/-!
What stands in a string literal or in a block comment is hidden. A step of the scan looks at the
byte behind its own only to find a mark of two bytes or the digit behind a quote, and none of these
leads into hidden contents. So the scan of a line does not depend on a hidden byte that is no mark
itself.
-/

namespace BracketLint

/-- The bytes that can be part of a mark, of a line end or of a character of several bytes are not
plain. -/
def isPlainByte (b : UInt8) : Bool :=
  b < 0x80 && b != Ascii.doubleQuote && b != Ascii.singleQuote && b != Ascii.backslash &&
    b != Ascii.star && b != Ascii.slash && b != Ascii.lineFeed && b != Ascii.carriageReturn

/-- What the tests of the scan and of the splitting into lines say about a plain byte. -/
structure PlainByte (b : UInt8) : Prop where
  ascii : b < 0x80
  ne_doubleQuote : b ≠ Ascii.doubleQuote
  ne_backslash : b ≠ Ascii.backslash
  ne_star : b ≠ Ascii.star
  ne_slash : b ≠ Ascii.slash
  ne_lineFeed : b ≠ Ascii.lineFeed
  ne_carriageReturn : b ≠ Ascii.carriageReturn

theorem plainByte_of_isPlainByte {b : UInt8} (h : isPlainByte b = true) : PlainByte b := by
  simp only [isPlainByte, Bool.and_eq_true, bne_iff_ne, decide_eq_true_eq] at h
  obtain ⟨⟨⟨⟨⟨⟨⟨hascii, hdouble⟩, -⟩, hbackslash⟩, hstar⟩, hslash⟩, hfeed⟩, hreturn⟩ := h
  exact ⟨hascii, hdouble, hbackslash, hstar, hslash, hfeed, hreturn⟩

section Step

variable {mode : ScanMode} {before tail : Bytes} {b b' : UInt8}

/-- A hidden plain byte is written over and leaves the scan in its mode. -/
theorem step?_of_isHidden (hmode : mode.isHidden = true) (hb : PlainByte b) (rest : Bytes) :
    mode.step? before b rest =
      some ⟨if mode = .comment then Ascii.space else filler, mode⟩ := by
  rcases ScanMode.isHidden_iff.mp hmode with rfl | rfl
  · simp [ScanMode.step?, hb.ne_backslash, Quote.byte, hb.ne_doubleQuote]
  · simp [ScanMode.step?, hb.ne_star]

/-- A step that leads into hidden contents does not depend on the plain byte there. -/
theorem step?_congr (hb : PlainByte b) (hb' : PlainByte b') {c : UInt8} {step : ScanStep}
    (hstep : mode.step? before c (b :: tail) = some step) (hhidden : step.mode.isHidden = true) :
    mode.step? before c (b' :: tail) = some step := by
  cases mode with
  | code =>
    -- Only a quote leads into a string, and its step does not look ahead.
    by_cases hc : c = Ascii.doubleQuote
    · rw [ScanMode.step?, if_pos (beq_iff_eq.mpr hc)] at hstep ⊢
      exact hstep
    · rw [ScanMode.step?, if_neg (by rwa [beq_iff_eq])] at hstep
      split_ifs at hstep <;> cases hstep <;> cases hhidden
  | literal quote => exact hstep
  | escaped quote => exact hstep
  | comment =>
    have hnext (d : UInt8) (hd : PlainByte d) :
        ((d :: tail).head? == some Ascii.slash) = false := by
      simpa using hd.ne_slash
    rw [ScanMode.step?, hnext b hb] at hstep
    rw [ScanMode.step?, hnext b' hb']
    exact hstep
  | opening => exact hstep
  | closing => exact hstep
  | stray => exact hstep

/-- A step looks no further ahead than the next byte. -/
theorem step?_congr_head (c d : UInt8) (rest rest' : Bytes) :
    mode.step? before c (d :: rest) = mode.step? before c (d :: rest') := by
  cases mode <;> rfl

end Step

/-- The scan of a line does not depend on a plain byte that it reads in hidden contents. -/
theorem scanFrom_congr {b b' : UInt8} (hb : PlainByte b) (hb' : PlainByte b') (tail : Bytes) :
    ∀ {front : Bytes} {mode : ScanMode} {before : Bytes},
      (mode.modeAt? before (front ++ b :: tail) front.length).any ScanMode.isHidden = true →
      scanFrom mode before (front ++ b :: tail) = scanFrom mode before (front ++ b' :: tail) := by
  intro front
  induction front with
  | nil =>
    intro mode before hvisited
    have hmode : mode.isHidden = true := hvisited
    rw [List.nil_append, List.nil_append, scanFrom_cons, scanFrom_cons,
      step?_of_isHidden hmode hb, step?_of_isHidden hmode hb']
  | cons c front ih =>
    intro mode before hvisited
    rw [List.cons_append, List.cons_append, scanFrom_cons, scanFrom_cons]
    rw [List.cons_append, List.length_cons, ScanMode.modeAt?] at hvisited
    cases hstep : mode.step? before c (front ++ b :: tail) with
    | none =>
      rw [hstep] at hvisited
      cases hvisited
    | some step =>
      rw [hstep] at hvisited
      -- Only the step right in front of the byte can see it.
      have hstep' : mode.step? before c (front ++ b' :: tail) = some step := by
        cases front with
        | nil => exact step?_congr hb hb' hstep hvisited
        | cons d front => exact (step?_congr_head c d _ _).trans hstep
      rw [hstep']
      dsimp only
      rw [ih hvisited]

/-- The bytes that open a string or a comment. -/
def isOpening (b : UInt8) : Bool := b == Ascii.doubleQuote || b == Ascii.slash

/-- The modes outside of strings and comments. -/
def ScanMode.isOutside : ScanMode → Bool
  | .code | .literal .single | .escaped .single | .stray => true
  | _ => false

section Outside

variable {mode : ScanMode} {before rest : Bytes} {b : UInt8}

theorem isOutside_of_step? (hmode : mode.isOutside = true) (hb : isOpening b = false)
    {step : ScanStep} (hstep : mode.step? before b rest = some step) :
    step.mode.isOutside = true := by
  rw [isOpening, Bool.or_eq_false_iff] at hb
  cases mode with
  | code =>
    rw [ScanMode.step?, hb.1, hb.2] at hstep
    simp only [Bool.false_and, Bool.false_eq_true, if_false] at hstep
    split_ifs at hstep <;> cases hstep <;> rfl
  | literal quote =>
    cases quote with
    | double => cases hmode
    | single =>
      rw [ScanMode.step?] at hstep
      split_ifs at hstep <;> cases hstep <;> rfl
  | escaped quote =>
    cases quote with
    | double => cases hmode
    | single =>
      cases hstep
      rfl
  | comment => cases hmode
  | opening => cases hmode
  | closing => cases hmode
  | stray =>
    cases hstep
    rfl

/-- The scan reads a byte that opens a string or a comment before it comes to hidden contents. -/
theorem exists_isOpening : ∀ {front : Bytes} {mode : ScanMode} {before : Bytes},
    mode.isOutside = true →
      (mode.modeAt? before (front ++ b :: rest) front.length).any ScanMode.isHidden = true →
      ∃ c ∈ front, isOpening c = true := by
  intro front
  induction front with
  | nil =>
    intro mode before hmode hvisited
    rcases ScanMode.isHidden_iff.mp hvisited with rfl | rfl <;> cases hmode
  | cons c front ih =>
    intro mode before hmode hvisited
    by_cases hc : isOpening c = true
    · exact ⟨c, List.mem_cons_self, hc⟩
    rw [List.cons_append, List.length_cons, ScanMode.modeAt?] at hvisited
    cases hstep : mode.step? before c (front ++ b :: rest) with
    | none =>
      rw [hstep] at hvisited
      cases hvisited
    | some step =>
      rw [hstep] at hvisited
      obtain ⟨d, hd, hopening⟩ :=
        ih (isOutside_of_step? hmode (Bool.eq_false_iff.mpr hc) hstep) hvisited
      exact ⟨d, List.mem_cons_of_mem _ hd, hopening⟩

end Outside

section Message

/-- A word without a byte is found in front of that byte or not at all. -/
theorem isPrefixOf_append_cons {b : UInt8} {word : Bytes} (hb : b ∉ word) (front rest : Bytes) :
    word.isPrefixOf (front ++ b :: rest) = word.isPrefixOf front := by
  induction word generalizing front with
  | nil => simp
  | cons w word ih =>
    have hne : w ≠ b := fun h => hb (h ▸ List.mem_cons_self)
    cases front with
    | nil => simp [List.isPrefixOf, hne]
    | cons c front =>
      rw [List.cons_append, List.isPrefixOf, List.isPrefixOf,
        ih fun h => hb (List.mem_cons_of_mem _ h)]

/-- Whether a line is a message directive shows in front of its first string or comment. -/
theorem isMessageDirective_append {front : Bytes} (h : ∃ b ∈ front, isOpening b = true)
    (rest rest' : Bytes) :
    isMessageDirective (front ++ rest) = isMessageDirective (front ++ rest') := by
  obtain ⟨b, hmem, hb⟩ := h
  obtain ⟨front, middle, rfl⟩ := List.append_of_mem hmem
  have hcases : b = Ascii.doubleQuote ∨ b = Ascii.slash := by simpa [isOpening] using hb
  have hascii : b < 0x80 := by rcases hcases with rfl | rfl <;> decide
  have hblank : Bytes.isBlankByte b = false := by rcases hcases with rfl | rfl <;> decide
  have hhash : (b == Ascii.hash) = false := by rcases hcases with rfl | rfl <;> decide
  have herror : b ∉ Bytes.ofString "error" := by rcases hcases with rfl | rfl <;> decide
  have hwarning : b ∉ Bytes.ofString "warning" := by rcases hcases with rfl | rfl <;> decide
  have htrim := Bytes.trimStart_append_of_ascii hascii hblank
  rw [List.append_assoc, List.append_assoc, List.cons_append, List.cons_append, isMessageDirective,
    isMessageDirective, htrim, htrim]
  cases Bytes.trimStart front with
  | nil => simp [hhash]
  | cons first kept =>
    simp only [List.cons_append, htrim, isPrefixOf_append_cons herror,
      isPrefixOf_append_cons hwarning]

end Message

end BracketLint
