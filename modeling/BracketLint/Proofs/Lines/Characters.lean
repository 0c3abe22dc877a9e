import BracketLint.Proofs.Line.Backslash
import BracketLint.Proofs.Lines.ReportedPlaces

/-!
Characters of several bytes in the blanking of literals and comments. The scan goes byte by byte, but
no byte of such a character is a mark, so what becomes of its first byte becomes of all of them: the
character is left as it is, or something is written over all of it. A line is cut between two
characters only, so what is left of a text is a text again.
-/

namespace BracketLint

/-- What blanking leaves of a character: its bytes, or as many bytes that are written over lines. -/
def IsLeftOf (c : Char) (piece : Bytes) : Prop :=
  piece = String.utf8EncodeChar c ∨ piece.length = c.utf8Size ∧ ∀ b ∈ piece, IsBlanking b

/-- A text that is left of the characters of a line, one character after another, up to a cut in front
of a character. -/
def LeavesCharacters (cs : List Char) (text : Bytes) : Prop :=
  ∃ front pieces, front <+: cs ∧ List.Forall₂ IsLeftOf front pieces ∧ text = pieces.flatten

section Pieces

variable {c : Char} {cs front : List Char} {piece text : Bytes} {pieces : List Bytes}

theorem IsLeftOf.length_eq (h : IsLeftOf c piece) : piece.length = c.utf8Size := by
  rcases h with rfl | ⟨hlength, -⟩
  · exact String.length_utf8EncodeChar c
  · exact hlength

/-- A byte written for a character of one byte. -/
theorem isLeftOf_singleton {b written : UInt8} (hchar : String.utf8EncodeChar c = [b])
    (hwritten : written = b ∨ IsBlanking written) : IsLeftOf c [written] := by
  rcases hwritten with rfl | hwritten
  · exact .inl hchar.symm
  · refine .inr ⟨?_, by simpa only [List.mem_singleton, forall_eq] using hwritten⟩
    rw [← String.length_utf8EncodeChar, hchar]
    rfl

theorem IsLeftOf.isText (h : IsLeftOf c piece) : piece.IsText := by
  rcases h with rfl | ⟨-, hblanking⟩
  · refine ⟨String.ofList [c], ?_⟩
    rw [Bytes.ofString_eq_flatMap, String.toList_ofList, List.flatMap_singleton]
  · refine ⟨Bytes.toWord piece, (Bytes.ofString_toWord fun b hb => ?_).symm⟩
    rcases hblanking b hb with rfl | rfl | rfl <;> decide

theorem length_flatten_of_isLeftOf (h : List.Forall₂ IsLeftOf front pieces) :
    pieces.flatten.length = (front.flatMap String.utf8EncodeChar).length := by
  induction h with
  | nil => rfl
  | cons hpiece _ ih =>
    rw [List.flatten_cons, List.flatMap_cons, List.length_append, List.length_append, ih,
      hpiece.length_eq, String.length_utf8EncodeChar]

/-- What is left of the characters of a line is a text. -/
theorem LeavesCharacters.isText (h : LeavesCharacters cs text) : text.IsText := by
  obtain ⟨front, pieces, -, hpieces, rfl⟩ := h
  induction hpieces with
  | nil => exact Bytes.isText_nil
  | cons hpiece _ ih => exact hpiece.isText.append ih

theorem leavesCharacters_self (cs : List Char) :
    LeavesCharacters cs (cs.flatMap String.utf8EncodeChar) := by
  refine ⟨cs, cs.map String.utf8EncodeChar, List.prefix_rfl, ?_, List.flatMap_def⟩
  rw [List.forall₂_map_right_iff, List.forall₂_same]
  exact fun c _ => .inl rfl

end Pieces

section Scan

namespace ScanMode

/-- Whether the bytes of a character are written over in a mode. -/
def blanks : ScanMode → Bool
  | code | stray => false
  | _ => true

variable {mode : ScanMode} {before rest : Bytes} {b : UInt8} {step : ScanStep}

/-- Only a closing mark makes the scan expect its slash. -/
theorem head?_of_step?_closing (h : mode.step? before b rest = some step)
    (hclosing : step.mode = .closing) : rest.head? = some Ascii.slash := by
  cases mode with
  | code =>
    rw [step?] at h
    split_ifs at h <;> cases h <;> cases hclosing
  | literal quote =>
    rw [step?] at h
    split_ifs at h <;> cases h <;> cases hclosing
  | comment =>
    rw [step?] at h
    split_ifs at h with hmark <;> cases h
    · rw [Bool.and_eq_true, beq_iff_eq, beq_iff_eq] at hmark
      exact hmark.2
    · cases hclosing
  | escaped quote | opening | closing | stray =>
    cases h
    cases hclosing

/-- A byte that is no ASCII is kept or written over as the mode says, and what follows it is too. -/
theorem exists_step?_of_le (hb : 0x80 ≤ b) (hmode : mode ≠ .closing) (before rest : Bytes) :
    ∃ step, mode.step? before b rest = some step ∧ step.mode ≠ .closing ∧
      step.mode.blanks = mode.blanks ∧
        if mode.blanks then IsBlanking step.written else step.written = b := by
  have hkeeps : KeepsMode b := keepsMode_of_blank (.inr hb)
  cases mode with
  | code => exact ⟨_, hkeeps.step?_code before rest, by simp, rfl, rfl⟩
  | stray => exact ⟨_, rfl, by simp, rfl, rfl⟩
  | closing => exact absurd rfl hmode
  | literal quote =>
    have hquote : b ≠ quote.byte := by
      cases quote with
      | double => exact hkeeps.ne_doubleQuote
      | single => exact hkeeps.ne_singleQuote
    exact ⟨⟨filler, .literal quote⟩, by simp [step?, hkeeps.ne_backslash, hquote], by simp, rfl,
      .inl rfl⟩
  | escaped quote => exact ⟨_, rfl, by simp, rfl, .inl rfl⟩
  | comment =>
    exact ⟨⟨Ascii.space, .comment⟩, by simp [step?, hkeeps.ne_star], by simp, rfl,
      .inr (.inl rfl)⟩
  | opening => exact ⟨_, rfl, by simp, rfl, .inr (.inl rfl)⟩

end ScanMode

/-- Bytes that are no ASCII are all kept or all written over. -/
theorem exists_text_scanFrom_of_le {high : Bytes} (hhigh : ∀ b ∈ high, 0x80 ≤ b) (mode : ScanMode)
    (hmode : mode ≠ .closing) (before rest : Bytes) :
    ∃ written next, next ≠ .closing ∧ (scanFrom mode before (high ++ rest)).text =
        (scanFrom next (written.reverse ++ before) rest).text ∧
      if mode.blanks then written.length = high.length ∧ ∀ b ∈ written, IsBlanking b
      else written = high := by
  induction high generalizing mode before with
  | nil => exact ⟨[], mode, hmode, rfl, by split_ifs <;> simp⟩
  | cons b high ih =>
    rw [List.forall_mem_cons] at hhigh
    obtain ⟨step, hstep, hnext, hblanks, hwritten⟩ :=
      ScanMode.exists_step?_of_le hhigh.1 hmode before (high ++ rest)
    obtain ⟨written, next, hclosing, htext, hrest⟩ :=
      ih hhigh.2 step.mode hnext (step.written :: before)
    refine ⟨step.written :: written, next, hclosing, ?_, ?_⟩
    · rw [List.cons_append, (scanFrom_of_step? hstep).1, htext, List.reverse_cons, List.append_assoc]
      rfl
    · rw [hblanks] at hrest
      split_ifs at hwritten hrest ⊢
      · refine ⟨by rw [List.length_cons, List.length_cons, hrest.1], ?_⟩
        rw [List.forall_mem_cons]
        exact ⟨hwritten, hrest.2⟩
      · rw [hwritten, hrest]

/-- The scan of some characters leaves each of them whole or writes over all of it, up to a cut. -/
theorem exists_leavesCharacters_scanFrom (cs : List Char) (mode : ScanMode)
    (hclosing : mode = .closing → (cs.flatMap String.utf8EncodeChar).head? = some Ascii.slash)
    (before : Bytes) : ∃ text, LeavesCharacters cs text ∧
      (scanFrom mode before (cs.flatMap String.utf8EncodeChar)).text = before.reverse ++ text := by
  induction cs generalizing mode before with
  | nil =>
    refine ⟨[], ⟨[], [], List.prefix_rfl, .nil, rfl⟩, ?_⟩
    cases mode <;> simp [scanFrom]
  | cons c cs ih =>
    have hnone : LeavesCharacters (c :: cs) [] := ⟨[], [], List.nil_prefix, .nil, rfl⟩
    have hcons {piece text : Bytes} (hpiece : IsLeftOf c piece) (htext : LeavesCharacters cs text) :
        LeavesCharacters (c :: cs) (piece ++ text) := by
      obtain ⟨front, pieces, ⟨behind, rfl⟩, hpieces, rfl⟩ := htext
      exact ⟨c :: front, piece :: pieces, ⟨behind, rfl⟩, .cons hpiece hpieces, rfl⟩
    obtain ⟨lead, rest, hchar, -, hrest, hascii⟩ := Bytes.utf8EncodeChar_eq_cons c
    rw [List.flatMap_cons] at hclosing ⊢
    by_cases hlead : lead < 0x80
    · -- One byte makes one step of the scan, or it starts a line comment.
      obtain rfl := hascii hlead
      rw [hchar, List.singleton_append] at hclosing ⊢
      cases hstep : mode.step? before lead (cs.flatMap String.utf8EncodeChar) with
      | none =>
        refine ⟨_, ?_, by rw [scanFrom_cons, hstep]; rfl⟩
        split_ifs
        · exact hcons (isLeftOf_singleton hchar (.inr (.inr (.inr rfl))))
            ⟨[], [], List.nil_prefix, .nil, rfl⟩
        · exact hnone
      | some step =>
        obtain ⟨text, hleaves, htext⟩ := ih step.mode
          (fun h => ScanMode.head?_of_step?_closing hstep h) (step.written :: before)
        have hwritten : step.written = lead ∨ IsBlanking step.written :=
          (ScanMode.written_of_step? hstep).imp_right (Or.imp_right Or.inl)
        refine ⟨[step.written] ++ text, hcons (isLeftOf_singleton hchar hwritten) hleaves, ?_⟩
        rw [(scanFrom_of_step? hstep).1, htext, List.reverse_cons, List.append_assoc]
    · have hhigh : ∀ b ∈ String.utf8EncodeChar c, 0x80 ≤ b := by
        rw [hchar, List.forall_mem_cons]
        exact ⟨UInt8.not_lt.mp hlead, fun b hb => (Bytes.isContinuation_iff.mp (hrest b hb)).1⟩
      have hmode : mode ≠ .closing := by
        intro h
        have hslash := hclosing h
        rw [hchar, List.cons_append, List.head?_cons, Option.some.injEq] at hslash
        exact hlead (hslash ▸ by decide)
      obtain ⟨written, next, hnext, hscan, hwritten⟩ := exists_text_scanFrom_of_le hhigh mode hmode
        before (cs.flatMap String.utf8EncodeChar)
      obtain ⟨text, hleaves, htext⟩ := ih next (fun h => absurd h hnext) (written.reverse ++ before)
      refine ⟨written ++ text, hcons ?_ hleaves, ?_⟩
      · split_ifs at hwritten
        · rw [String.length_utf8EncodeChar] at hwritten
          exact .inr hwritten
        · exact .inl hwritten
      · rw [hscan, htext, List.reverse_append, List.reverse_reverse, List.append_assoc]

end Scan

section Line

variable {cs : List Char} {c : Char} {text : Bytes}

/-- A character whose last byte is ASCII has no other byte. -/
theorem utf8EncodeChar_of_getLast? {b : UInt8} (hb : b < 0x80)
    (h : (String.utf8EncodeChar c).getLast? = some b) : String.utf8EncodeChar c = [b] := by
  obtain ⟨lead, rest, hchar, -, hrest, -⟩ := Bytes.utf8EncodeChar_eq_cons c
  rw [hchar] at h ⊢
  cases hlast : rest.getLast? with
  | none =>
    obtain rfl := List.getLast?_eq_none_iff.mp hlast
    exact congrArg (· :: []) (Option.some.inj h)
  | some last =>
    rw [List.getLast?_cons, hlast] at h
    obtain rfl : last = b := Option.some.inj h
    have hcontinues := hrest last (List.mem_of_getLast? hlast)
    rw [Bytes.not_isContinuation_of_lt hb] at hcontinues
    cases hcontinues

/-- Where nothing is cut off, a backslash at the end of the line may be written back. -/
theorem LeavesCharacters.dropLast_append_backslash (h : LeavesCharacters cs text)
    (hlength : text.length = (cs.flatMap String.utf8EncodeChar).length)
    (hend : Bytes.endsIn (cs.flatMap String.utf8EncodeChar) Ascii.backslash = true) :
    LeavesCharacters cs (text.dropLast ++ [Ascii.backslash]) := by
  obtain ⟨front, pieces, ⟨behind, rfl⟩, hpieces, rfl⟩ := h
  -- No character is behind the cut, as each has a byte.
  obtain rfl : behind = [] := by
    rw [length_flatten_of_isLeftOf hpieces, List.flatMap_append, List.length_append] at hlength
    cases behind with
    | nil => rfl
    | cons c behind =>
      have hpos := c.utf8Size_pos
      rw [List.flatMap_cons, List.length_append, String.length_utf8EncodeChar] at hlength
      omega
  rw [List.append_nil] at hend ⊢
  rcases List.eq_nil_or_concat' front with rfl | ⟨front, c, rfl⟩
  · cases hend
  rw [← List.forall₂_reverse_iff, List.reverse_append, List.reverse_singleton,
    List.singleton_append, List.forall₂_cons_left_iff] at hpieces
  obtain ⟨last, pieces', hlast, hfront, hreverse⟩ := hpieces
  obtain rfl : pieces = pieces'.reverse ++ [last] := by
    rw [← List.reverse_cons, ← hreverse, List.reverse_reverse]
  have hchar : String.utf8EncodeChar c = [Ascii.backslash] := by
    obtain ⟨lead, rest, heq, -, -, -⟩ := Bytes.utf8EncodeChar_eq_cons c
    apply utf8EncodeChar_of_getLast? (by decide)
    rw [Bytes.endsIn, beq_iff_eq, List.flatMap_append, List.flatMap_singleton, List.getLast?_append,
      heq, List.getLast?_eq_some_getLast (List.cons_ne_nil _ _), Option.some_or] at hend
    rw [heq, List.getLast?_eq_some_getLast (List.cons_ne_nil _ _), hend]
  obtain ⟨written, rfl⟩ : ∃ written, last = [written] := by
    rw [← List.length_eq_one_iff, hlast.length_eq, ← String.length_utf8EncodeChar, hchar]
    rfl
  refine ⟨front ++ [c], pieces'.reverse ++ [[Ascii.backslash]], List.prefix_rfl, ?_, ?_⟩
  · rw [← List.forall₂_reverse_iff, List.reverse_reverse] at hfront
    exact List.rel_append hfront (.cons (.inl hchar.symm) .nil)
  · rw [List.flatten_append, List.flatten_append, List.flatten_singleton, List.flatten_singleton,
      List.dropLast_concat]

theorem leavesCharacters_blankLine (index : Nat) (carry : Carry) (cs : List Char) :
    LeavesCharacters cs (blankLine index carry (cs.flatMap String.utf8EncodeChar)).text := by
  have hclosing : carry.mode = .closing →
      (cs.flatMap String.utf8EncodeChar).head? = some Ascii.slash := by
    intro h
    cases carry <;> cases h
  obtain ⟨text, hleaves, htext⟩ := exists_leavesCharacters_scanFrom cs carry.mode hclosing []
  rw [List.reverse_nil, List.nil_append] at htext
  subst htext
  rw [blankLine]
  split_ifs
  · exact leavesCharacters_self cs
  · exact leavesCharacters_self cs
  · unfold closeLine
    dsimp only
    split
    next quote hliteral =>
      split_ifs with hend
      · refine hleaves.dropLast_append_backslash (length_text_of_carry_ne ?_) hend
        simp [hliteral]
      · exact hleaves
    next => exact hleaves

/-- Repairing a text changes nothing. -/
theorem Bytes.IsText.repaired_eq {bytes : Bytes} (h : bytes.IsText) : bytes.repaired = bytes := by
  obtain ⟨s, rfl⟩ := h
  rw [repaired, toText, decode_ofString, String.ofList_toList]

/-- Blanking the lines of a string writes over characters as a whole or not at all, and cuts a line in
front of a character only. So every line is left with the bytes of a string, which need no repair. -/
theorem blankLines_leavesCharacters (source : String) :
    List.Forall₂ (fun raw line => ∃ s : String, raw = Bytes.ofString s ∧
        LeavesCharacters s.toList line.text ∧ line.text.IsText ∧ line.text.repaired = line.text)
      (Bytes.lines (Bytes.ofString source).dropByteOrderMark)
      (blankLines 1 .code (Bytes.lines (Bytes.ofString source).dropByteOrderMark)) := by
  have hraws : ∀ raw ∈ Bytes.lines (Bytes.ofString source).dropByteOrderMark, raw.IsText :=
    fun raw => Bytes.isText_of_mem_lines_ofString source
  generalize Bytes.lines (Bytes.ofString source).dropByteOrderMark = raws at hraws
  generalize (1 : Nat) = index
  generalize Carry.code = carry
  induction raws generalizing index carry with
  | nil => exact .nil
  | cons raw raws ih =>
    rw [List.forall_mem_cons] at hraws
    refine .cons ?_ (ih hraws.2 _ _)
    obtain ⟨s, rfl⟩ := hraws.1
    have hleaves := leavesCharacters_blankLine index carry s.toList
    rw [← Bytes.ofString_eq_flatMap] at hleaves
    exact ⟨s, rfl, hleaves, hleaves.isText, hleaves.isText.repaired_eq⟩

end Line
end BracketLint
