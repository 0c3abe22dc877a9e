import BracketLint.Proofs.Lines.Blanks
import BracketLint.Proofs.Lines.WordPlaces
import BracketLint.Proofs.Text.Utf8

/-!
What words read. A word is cut out of its line as it stands there, so from its place on the line reads
the word, and it ends where the name ends: not behind a later byte that belongs to no name.
-/

namespace BracketLint
open scoped Place

namespace Lines

variable {lines : Lines} {p q : Place}

/-- Whether the line of a word reads the word from its place on. -/
def Spells (lines : Lines) (word : Word) : Prop :=
  Bytes.ofString word.text <+: (lines.text word.place.line).drop word.place.column

theorem spells_empty (place : Place) : lines.Spells ⟨"", place⟩ := List.nil_prefix

section Names

variable {text : Bytes} {column : Nat}

theorem exists_of_isNameByteAt (h : isNameByteAt text column = true) :
    ∃ b, text[column]? = some b ∧ (b = Ascii.colon ∨ Ascii.isWordByte b = true) := by
  rw [isNameByteAt] at h
  split at h
  · cases h
  · next b hb =>
    refine ⟨b, hb, ?_⟩
    split_ifs at h with hcolon
    · exact .inl (beq_iff_eq.mp hcolon)
    · exact .inr h

theorem isNameByteAt_of_isWordByte {b : UInt8} (hb : text[column]? = some b)
    (hword : Ascii.isWordByte b = true) : isNameByteAt text column = true := by
  have hcolon : (b == Ascii.colon) = false := by
    by_contra h
    rw [Bool.not_eq_false, beq_iff_eq] at h
    rw [h] at hword
    cases hword
  rw [isNameByteAt, hb]
  simp only [hcolon, hword, Bool.false_eq_true, if_false]

/-- All bytes of a name are ASCII. -/
theorem lt_of_isWordByte {b : UInt8} (h : Ascii.isWordByte b = true) : b < 0x80 := by
  simp only [Ascii.isWordByte, Ascii.isAlphanumeric, Ascii.isDigit, Bool.or_eq_true,
    Bool.and_eq_true, decide_eq_true_eq, beq_iff_eq, UInt8.le_iff_toNat_le] at h
  rw [UInt8.lt_iff_toNat_lt]
  rcases h with ((⟨-, h⟩ | ⟨-, h⟩) | ⟨-, h⟩) | rfl
  · exact Nat.lt_of_le_of_lt h (by decide)
  · exact Nat.lt_of_le_of_lt h (by decide)
  · exact Nat.lt_of_le_of_lt h (by decide)
  · decide

theorem isNameByteAt_of_nameStart_le {k : Nat} (hle : nameStart text column ≤ k)
    (hlt : k < column) : isNameByteAt text k = true := by
  fun_induction nameStart text column with
  | case1 => exact absurd hlt (Nat.not_lt_zero k)
  | case2 column hname ih =>
    rcases Nat.lt_succ_iff_lt_or_eq.mp hlt with hlt | rfl
    · exact ih hle hlt
    · exact hname
  | case3 => omega

theorem le_nameEnd (text : Bytes) (column : Nat) : column ≤ nameEnd text column := by
  fun_induction nameEnd text column with
  | case1 column _ ih => exact Nat.le_of_succ_le ih
  | case2 => exact Nat.le_refl _

theorem isNameByteAt_of_lt_nameEnd {k : Nat} (hle : column ≤ k) (hlt : k < nameEnd text column) :
    isNameByteAt text k = true := by
  fun_induction nameEnd text column with
  | case1 column hname ih =>
    rcases Nat.eq_or_lt_of_le hle with rfl | hgt
    · exact hname
    · exact ih hgt hlt
  | case2 => omega

/-- A name ends at a byte that belongs to none, or in front of it. -/
theorem nameEnd_le {k : Nat} (hle : column ≤ k) (hk : isNameByteAt text k = false) :
    nameEnd text column ≤ k := by
  by_contra hlt
  rw [isNameByteAt_of_lt_nameEnd hle (Nat.lt_of_not_le hlt)] at hk
  cases hk

end Names

section Slice

variable {text : Bytes} {first last : Nat}

theorem length_slice_le (text : Bytes) (first last : Nat) :
    (slice text first last).length ≤ last - first := List.length_take_le _ _

theorem slice_prefix (text : Bytes) (first last : Nat) :
    slice text first last <+: text.drop first := List.take_prefix _ _

theorem exists_of_mem_slice {b : UInt8} (h : b ∈ slice text first last) :
    ∃ k, first ≤ k ∧ k < last ∧ text[k]? = some b := by
  obtain ⟨k, hk⟩ := List.mem_iff_getElem?.mp h
  have hlength : k < last - first :=
    (List.getElem?_eq_some_iff.mp hk).1.trans_le (length_slice_le text first last)
  rw [slice, List.getElem?_take_of_lt hlength, List.getElem?_drop] at hk
  exact ⟨first + k, by omega, by omega, hk⟩

/-- Bytes of a name are written as they stand on the line. -/
theorem ofString_toWord_slice (h : ∀ k, first ≤ k → k < last → isNameByteAt text k = true) :
    Bytes.ofString (Bytes.toWord (slice text first last)) = slice text first last := by
  apply Bytes.ofString_toWord
  intro b hb
  obtain ⟨k, hfirst, hlast, hk⟩ := exists_of_mem_slice hb
  obtain ⟨b', hb', hname⟩ := exists_of_isNameByteAt (h k hfirst hlast)
  rw [hk, Option.some.injEq] at hb'
  subst hb'
  rcases hname with rfl | hword
  · decide
  · exact lt_of_isWordByte hword

end Slice

section Before

variable (lines)

theorem place_wordBefore_le (p : Place) : (lines.wordBefore p).place ≤ p := by
  rw [wordBefore]
  dsimp only
  split_ifs with hnone
  · exact lines.skipSpaceBack_le p
  · refine le_trans ?_ (lines.skipSpaceBack_le p)
    generalize lines.skipSpaceBack p = last at hnone ⊢
    cases last with
    | front => exact absurd rfl hnone
    | on line column =>
      rw [Place.on_le_on]
      exact .inr ⟨rfl, nameStart_le _ _⟩

/-- The word in front of a position is at the front only if there are but blanks. -/
theorem skipSpaceBack_of_place_wordBefore (h : (lines.wordBefore p).place = .front) :
    lines.skipSpaceBack p = .front := by
  rw [wordBefore] at h
  dsimp only at h
  split_ifs at h
  exact h

variable {lines} in
theorem byteAt_of_lt {line column : Nat} (hline : line < lines.lastIndex)
    (hcolumn : column < (lines.text line).length) :
    (lines.text line)[column]? = some (lines.byteAt (.on line column)) := by
  rw [byteAt, if_neg (Nat.not_le.mpr hline), List.getElem?_eq_getElem hcolumn, Option.getD_some]

variable {lines} in
/-- All bytes up to the last byte of a word are bytes of a name. -/
theorem isNameByteAt_of_lt_succ {line column k : Nat}
    (hword : Ascii.isWordByte (lines.byteAt (.on line column)) = true)
    (hle : nameStart (lines.text line) column ≤ k) (hlt : k < column + 1) :
    isNameByteAt (lines.text line) k = true := by
  rcases Nat.lt_succ_iff_lt_or_eq.mp hlt with hlt | rfl
  · exact isNameByteAt_of_nameStart_le hle hlt
  · obtain ⟨_, _, heq, hline, hcolumn⟩ := exists_of_not_space (not_space_of_isWordByte hword)
    cases heq
    exact isNameByteAt_of_isWordByte (byteAt_of_lt hline hcolumn) hword

theorem spells_wordBefore (p : Place) : lines.Spells (lines.wordBefore p) := by
  rw [wordBefore]
  dsimp only
  split_ifs with hnone
  · exact spells_empty _
  rw [Bool.or_eq_true, not_or, Bool.not_eq_true', Bool.not_eq_false] at hnone
  obtain ⟨line, column, hlast, -⟩ := exists_of_not_space (not_space_of_isWordByte hnone.2)
  rw [hlast] at hnone ⊢
  rw [Spells, Place.line, Place.column,
    ofString_toWord_slice fun k => isNameByteAt_of_lt_succ hnone.2]
  exact slice_prefix _ _ _

variable {lines} in
/-- An empty word stands at the last byte that is no blank. -/
theorem wordBefore_of_text_eq (h : (lines.wordBefore p).text = "") :
    lines.wordBefore p = ⟨"", lines.skipSpaceBack p⟩ := by
  rw [wordBefore] at h ⊢
  dsimp only at h ⊢
  split_ifs at h ⊢ with hnone
  · rfl
  rw [Bool.or_eq_true, not_or, Bool.not_eq_true', Bool.not_eq_false] at hnone
  obtain ⟨line, column, hlast, -, hcolumn⟩ :=
    exists_of_not_space (not_space_of_isWordByte hnone.2)
  rw [hlast] at h hnone
  dsimp only [Place.line, Place.column] at h
  -- Otherwise the word has a byte at least.
  have hslice : slice (lines.text line) (nameStart (lines.text line) column) (column + 1) = [] := by
    rw [← ofString_toWord_slice fun k => isNameByteAt_of_lt_succ hnone.2, h]
    rfl
  have hlength := congrArg List.length hslice
  have hstart := nameStart_le (lines.text line) column
  rw [slice, List.length_take, List.length_drop, List.length_nil] at hlength
  omega

theorem place_nameInFrontOfAngles_lt {angles parens : Nat}
    (h : (lines.nameInFrontOfAngles angles parens p).text ≠ "") :
    (lines.nameInFrontOfAngles angles parens p).place < p := by
  have hstep {p : Place} (hp : p.isFront = false) : lines.prev p < p := by
    apply prev_lt
    rintro rfl
    cases hp
  fun_induction nameInFrontOfAngles lines angles parens p
  case case3 hp _ _ _ _ => exact (lines.place_wordBefore_le _).trans_lt (hstep hp)
  case case6 | case8 | case10 => exact absurd rfl h
  -- An arrow takes two steps, every other byte one.
  case case1 hp _ _ harrow ih =>
    have hfront : (lines.prev _).isFront = false :=
      isFront_eq_false_of_byteAt_ne (by rw [harrow]; decide)
    exact ((ih h).trans (hstep hfront)).trans (hstep hp)
  case case2 hp _ _ _ ih => exact (ih h).trans (hstep hp)
  case case4 hp _ _ _ _ ih => exact (ih h).trans (hstep hp)
  case case5 hp _ _ _ _ ih => exact (ih h).trans (hstep hp)
  case case7 hp _ _ _ _ _ _ ih => exact (ih h).trans (hstep hp)
  case case9 hp _ _ _ _ _ _ ih => exact (ih h).trans (hstep hp)

theorem spells_nameInFrontOfAngles (angles parens : Nat) (p : Place) :
    lines.Spells (lines.nameInFrontOfAngles angles parens p) := by
  fun_induction nameInFrontOfAngles lines angles parens p
  case case3 => exact lines.spells_wordBefore _
  case case6 | case8 | case10 => exact spells_empty _
  case case1 ih | case2 ih | case4 ih | case5 ih | case7 ih | case9 ih => exact ih

end Before

section After

variable (lines)

theorem place_nameAfter (p : Place) : (lines.nameAfter p).place = lines.skipSpaceForward p := by
  rw [nameAfter]
  dsimp only
  split_ifs <;> rfl

theorem spells_nameAfter (p : Place) : lines.Spells (lines.nameAfter p) := by
  rw [nameAfter]
  dsimp only
  split_ifs
  · exact spells_empty _
  · rw [Spells, ofString_toWord_slice fun k => isNameByteAt_of_lt_nameEnd]
    exact slice_prefix _ _ _

theorem length_text_nameAfter (p : Place) :
    (lines.nameAfter p).text.length = (Bytes.ofString (lines.nameAfter p).text).length := by
  rw [nameAfter]
  dsimp only
  split_ifs
  · rfl
  · rw [ofString_toWord_slice fun k => isNameByteAt_of_lt_nameEnd, Bytes.toWord,
      String.length_ofList, List.length_map]

/-- A byte that belongs to no name and is no blank, such as a brace. -/
structure Stops (p : Place) : Prop where
  not_space : isCursorSpace (lines.byteAt p) = false
  ne_colon : lines.byteAt p ≠ Ascii.colon
  not_word : Ascii.isWordByte (lines.byteAt p) = false

variable {lines}

theorem stops_of_openBrace (h : lines.byteAt p = Ascii.openBrace) : lines.Stops p where
  not_space := by rw [h]; rfl
  ne_colon := by rw [h]; decide
  not_word := by rw [h]; rfl

theorem Stops.isNameByteAt {line column : Nat} (h : lines.Stops (.on line column)) :
    Lines.isNameByteAt (lines.text line) column = false := by
  obtain ⟨_, _, heq, hline, hcolumn⟩ := exists_of_not_space h.not_space
  cases heq
  by_contra hname
  obtain ⟨b, hb, hcolon | hword⟩ := exists_of_isNameByteAt (Bool.of_not_eq_false hname)
  · rw [byteAt_of_lt hline hcolumn, Option.some.injEq] at hb
    exact h.ne_colon (hb.trans hcolon)
  · rw [byteAt_of_lt hline hcolumn, Option.some.injEq] at hb
    rw [← hb, h.not_word] at hword
    cases hword

/-- A name that is read in front of such a byte ends there at the latest. -/
theorem behind_nameAfter_le {opened : Place} (hopened : lines.Stops opened) (hle : p ≤ opened) :
    .on (lines.nameAfter p).place.line ((lines.nameAfter p).place.column +
      (Bytes.ofString (lines.nameAfter p).text).length) ≤ opened := by
  have hfirst : lines.skipSpaceForward p ≤ opened := skipSpaceForward_le hopened.not_space hle
  have hstop : lines.skipSpaceForward p < lines.stop :=
    hfirst.trans_lt (lt_stop_of_not_space hopened.not_space)
  obtain ⟨line, column, hplace, -, -⟩ := exists_of_not_space (byteAt_skipSpaceForward hstop)
  rw [nameAfter]
  dsimp only
  rw [if_neg (by rw [(lines.isAtStop_eq_false _).mpr hstop]; exact Bool.false_ne_true),
    ofString_toWord_slice fun k => isNameByteAt_of_lt_nameEnd, hplace]
  dsimp only [Place.line, Place.column]
  rw [hplace] at hfirst
  -- The name stays on its line, so only a byte on that line can end it.
  have hlength := length_slice_le (lines.text line) column (nameEnd (lines.text line) column)
  have hend := le_nameEnd (lines.text line) column
  cases opened with
  | front => exact absurd hfirst (Place.on_not_le_front _ _)
  | on line' column' =>
    rw [Place.on_le_on] at hfirst ⊢
    rcases hfirst with hlt | ⟨rfl, hcolumn⟩
    · exact .inl hlt
    · have := nameEnd_le hcolumn hopened.isNameByteAt
      exact .inr ⟨rfl, by omega⟩

/-- A name that starts with a byte of a word is not empty and stands where it is looked for. -/
theorem nameAfter_of_isWordByte (hword : Ascii.isWordByte (lines.byteAt p) = true) :
    (lines.nameAfter p).text ≠ "" ∧ (lines.nameAfter p).place = p := by
  have hcode : isCursorSpace (lines.byteAt p) = false := not_space_of_isWordByte hword
  have hplace : lines.skipSpaceForward p = p := skipSpaceForward_of_not_space hcode
  refine ⟨?_, by rw [place_nameAfter, hplace]⟩
  obtain ⟨line, column, rfl, hline, hcolumn⟩ := exists_of_not_space hcode
  have hname := isNameByteAt_of_isWordByte (byteAt_of_lt hline hcolumn) hword
  intro hempty
  have hslice : slice (lines.text line) column (nameEnd (lines.text line) column) = [] := by
    rw [← ofString_toWord_slice fun k => isNameByteAt_of_lt_nameEnd]
    rw [nameAfter] at hempty
    dsimp only at hempty
    rw [hplace, if_neg] at hempty
    · dsimp only [Place.line, Place.column] at hempty
      rw [hempty]
      rfl
    · rw [(lines.isAtStop_eq_false _).mpr (lt_stop_of_not_space hcode)]
      exact Bool.false_ne_true
  -- The name has its first byte at least.
  have hend : column + 1 ≤ nameEnd (lines.text line) column := by
    rw [nameEnd, dif_pos hname]
    exact le_nameEnd _ _
  have hlength := congrArg List.length hslice
  rw [slice, List.length_take, List.length_drop, List.length_nil] at hlength
  omega

/-- The name behind a list in angle brackets is read behind the position, or there is no such list. -/
theorem nameBehindAngles_cases (angles parens : Nat) (p : Place) :
    (∃ q, p ≤ q ∧ lines.nameBehindAngles angles parens p = lines.nameAfter q) ∨
      lines.nameBehindAngles angles parens p = ⟨"", lines.stop⟩ := by
  have hstep {p : Place} {word : Word} (hp : lines.isAtStop p = false)
      (h : ∃ q, lines.next p ≤ q ∧ word = lines.nameAfter q) :
      ∃ q, p ≤ q ∧ word = lines.nameAfter q := by
    obtain ⟨q, hle, heq⟩ := h
    exact ⟨q, (lines.lt_next ((lines.isAtStop_eq_false p).mp hp)).le.trans hle, heq⟩
  fun_induction nameBehindAngles lines angles parens p
  case case2 hp _ _ _ _ => exact .inl (hstep hp ⟨_, le_refl _, rfl⟩)
  case case6 | case8 => exact .inr rfl
  case case1 hp _ _ ih => exact ih.imp_left (hstep hp)
  case case3 hp _ _ _ _ ih => exact ih.imp_left (hstep hp)
  case case4 hp _ _ _ _ ih => exact ih.imp_left (hstep hp)
  case case5 hp _ _ _ _ _ ih => exact ih.imp_left (hstep hp)
  case case7 hp _ _ _ _ _ _ ih => exact ih.imp_left (hstep hp)

theorem templateNameAfter_cases (p : Place) :
    (∃ q, p ≤ q ∧ lines.templateNameAfter p = lines.nameAfter q) ∨
      lines.templateNameAfter p = ⟨"", lines.stop⟩ := by
  rw [templateNameAfter]
  have hfirst := lines.le_skipSpaceForward p
  split_ifs
  · refine (nameBehindAngles_cases 0 0 (lines.skipSpaceForward p)).imp_left ?_
    rintro ⟨q, hle, heq⟩
    exact ⟨q, hfirst.trans hle, heq⟩
  · exact .inl ⟨_, hfirst, rfl⟩

theorem le_place_templateNameAfter (h : (lines.templateNameAfter p).place < lines.stop) :
    p ≤ (lines.templateNameAfter p).place := by
  rcases templateNameAfter_cases p with ⟨q, hle, heq⟩ | heq
  · rw [heq, place_nameAfter]
    exact hle.trans (lines.le_skipSpaceForward q)
  · rw [heq] at h
    exact absurd h (lt_irrefl _)

end After

end Lines
end BracketLint
