import Mathlib.Data.List.Basic
import BracketLint.Proofs.Text.Blank
import BracketLint.Proofs.Text.Utf8

/-!
Where the characters of a text start. A character is one byte that continues none and the bytes that
continue it, so the columns between characters are those in front of a byte of the first kind, and
the end of the text. A byte of ASCII is a character of its own: the bytes on either side of it are
texts, and so are the lines of a text.
-/

namespace BracketLint.Bytes

/-- Whether some bytes are those of a string. -/
def IsText (bytes : Bytes) : Prop := ∃ s : String, bytes = ofString s

/-- Whether a column stands between two characters of a text, in front of the first or behind the
last one. -/
def IsBoundary (bytes : Bytes) (column : Nat) : Prop :=
  ∃ front behind : String, bytes = ofString front ++ ofString behind ∧
    (ofString front).length = column

section Character

/-- Bytes that start a character continue none. -/
theorem not_isContinuation_ofNat {n : Nat} (h : n < 0x80 ∨ 0xC0 ≤ n) (hlt : n < 256) :
    isContinuation (UInt8.ofNat n) = false := by
  rw [Bool.eq_false_iff, Ne, isContinuation_iff, toNat_ofNat_of_lt hlt]
  omega

/-- A character is one byte that continues none and bytes that continue it; in front of these there
is no ASCII. -/
theorem utf8EncodeChar_eq_cons (c : Char) :
    ∃ lead rest, String.utf8EncodeChar c = lead :: rest ∧ isContinuation lead = false ∧
      (∀ b ∈ rest, isContinuation b = true) ∧ (lead < 0x80 → rest = []) := by
  have hlong {n : Nat} (hle : 0x80 ≤ n) (hlt : n < 256) : ¬UInt8.ofNat n < 0x80 := by
    rw [UInt8.lt_iff_toNat_lt, toNat_ofNat_of_lt hlt]
    exact Nat.not_lt.mpr hle
  have hmod (n : Nat) : isContinuation (UInt8.ofNat (n % 64 + 128)) = true :=
    (isContinuation_ofNat (Nat.mod_lt n (by decide))).1
  unfold String.utf8EncodeChar
  dsimp only
  generalize c.val.toNat = v
  split_ifs with h₁ h₂ h₃
  · exact ⟨_, _, rfl, not_isContinuation_ofNat (.inl (by omega)) (by omega), by simp, fun _ => rfl⟩
  · refine ⟨_, _, rfl, not_isContinuation_ofNat (.inr (by omega)) (by omega), ?_,
      fun h => absurd h (hlong (by omega) (by omega))⟩
    simpa only [List.mem_singleton, forall_eq] using hmod v
  · refine ⟨_, _, rfl, not_isContinuation_ofNat (.inr (by omega)) (by omega), ?_,
      fun h => absurd h (hlong (by omega) (by omega))⟩
    simpa only [List.mem_cons, List.not_mem_nil, or_false, forall_eq_or_imp, forall_eq] using
      And.intro (hmod (v / 64)) (hmod v)
  · refine ⟨_, _, rfl, not_isContinuation_ofNat (.inr (by omega)) (by omega), ?_,
      fun h => absurd h (hlong (by omega) (by omega))⟩
    simpa only [List.mem_cons, List.not_mem_nil, or_false, forall_eq_or_imp, forall_eq] using
      And.intro (hmod (v / 4096)) (And.intro (hmod (v / 64)) (hmod v))

theorem ofString_ofList_cons (c : Char) (cs : List Char) :
    ofString (String.ofList (c :: cs)) = String.utf8EncodeChar c ++ ofString (String.ofList cs) := by
  rw [ofString_eq_flatMap, ofString_eq_flatMap, String.toList_ofList, String.toList_ofList,
    List.flatMap_cons]

/-- A byte that continues no character starts one. -/
theorem exists_append_of_not_isContinuation {cs : List Char} {column : Nat} {b : UInt8}
    (hb : (ofString (String.ofList cs))[column]? = some b) (hlead : isContinuation b = false) :
    ∃ front behind, cs = front ++ behind ∧ (ofString (String.ofList front)).length = column := by
  induction cs generalizing column with
  | nil => cases hb
  | cons c cs ih =>
    obtain ⟨lead, rest, hchar, -, hrest, -⟩ := utf8EncodeChar_eq_cons c
    rw [ofString_ofList_cons, hchar, List.cons_append] at hb
    cases column with
    | zero => exact ⟨[], c :: cs, rfl, rfl⟩
    | succ column =>
      rw [List.getElem?_cons_succ] at hb
      by_cases hlt : column < rest.length
      · -- Inside the character every byte continues it.
        rw [List.getElem?_append_left hlt] at hb
        have hcontinues := hrest b (List.mem_of_getElem? hb)
        rw [hlead] at hcontinues
        cases hcontinues
      · have hle : rest.length ≤ column := Nat.le_of_not_lt hlt
        rw [List.getElem?_append_right hle] at hb
        obtain ⟨front, behind, rfl, hlength⟩ := ih hb
        refine ⟨c :: front, behind, rfl, ?_⟩
        rw [ofString_ofList_cons, hchar, List.length_append, List.length_cons, hlength]
        omega

end Character

section Text

variable {bytes front behind : Bytes} {column : Nat} {b : UInt8}

theorem isText_nil : IsText [] := ⟨"", rfl⟩

theorem IsText.append (hfront : IsText front) (hbehind : IsText behind) :
    IsText (front ++ behind) := by
  obtain ⟨s, rfl⟩ := hfront
  obtain ⟨t, rfl⟩ := hbehind
  exact ⟨s ++ t, (ofString_append s t).symm⟩

/-- The columns between characters are those in front of a byte that continues none, and the end. -/
theorem IsText.isBoundary_iff (h : IsText bytes) : IsBoundary bytes column ↔
    column = bytes.length ∨ ∃ b, bytes[column]? = some b ∧ isContinuation b = false := by
  constructor
  · rintro ⟨front, behind, rfl, rfl⟩
    cases hchars : behind.toList with
    | nil =>
      left
      rw [ofString_eq_flatMap behind, hchars, List.flatMap_nil, List.append_nil]
    | cons c cs =>
      obtain ⟨lead, rest, hchar, hlead, -, -⟩ := utf8EncodeChar_eq_cons c
      refine .inr ⟨lead, ?_, hlead⟩
      rw [List.getElem?_append_right (Nat.le_refl _), Nat.sub_self, ofString_eq_flatMap behind, hchars,
        List.flatMap_cons, hchar]
      rfl
  · obtain ⟨s, rfl⟩ := h
    rintro (rfl | ⟨b, hb, hlead⟩)
    · exact ⟨s, "", (List.append_nil _).symm, rfl⟩
    · rw [← String.ofList_toList (s := s)] at hb
      obtain ⟨front, behind, hchars, hlength⟩ := exists_append_of_not_isContinuation hb hlead
      refine ⟨String.ofList front, String.ofList behind, ?_, hlength⟩
      rw [← ofString_append, ← String.ofList_append, ← hchars, String.ofList_toList]

theorem not_isContinuation_of_lt (hb : b < 0x80) : isContinuation b = false := by
  rw [isContinuation, decide_eq_false (UInt8.not_le.mpr hb), Bool.false_and]

/-- A byte of ASCII stands between two columns of a text. -/
theorem IsText.isBoundary_of_lt (h : IsText bytes) (hbyte : bytes[column]? = some b) (hb : b < 0x80) :
    IsBoundary bytes column :=
  h.isBoundary_iff.mpr (.inr ⟨b, hbyte, not_isContinuation_of_lt hb⟩)

theorem IsText.isBoundary_length (h : IsText bytes) : IsBoundary bytes bytes.length :=
  h.isBoundary_iff.mpr (.inl rfl)

/-- A byte of ASCII parts a text into two texts. -/
theorem isText_append_cons_iff (hb : b < 0x80) :
    IsText (front ++ b :: behind) ↔ IsText front ∧ IsText behind := by
  constructor
  · intro h
    have hbyte : (front ++ b :: behind)[front.length]? = some b := by
      rw [List.getElem?_append_right (Nat.le_refl _), Nat.sub_self, List.getElem?_cons_zero]
    obtain ⟨s, t, heq, hlength⟩ := h.isBoundary_of_lt hbyte hb
    obtain ⟨rfl, ht⟩ := List.append_inj heq hlength.symm
    refine ⟨⟨s, rfl⟩, ?_⟩
    rw [ofString_eq_flatMap] at ht
    cases hchars : t.toList with
    | nil =>
      rw [hchars] at ht
      cases ht
    | cons c cs =>
      obtain ⟨lead, rest, hchar, -, -, hascii⟩ := utf8EncodeChar_eq_cons c
      rw [hchars, List.flatMap_cons, hchar, List.cons_append, List.cons.injEq] at ht
      rw [hascii (ht.1 ▸ hb), List.nil_append] at ht
      exact ⟨String.ofList cs, by rw [ht.2, ofString_eq_flatMap, String.toList_ofList]⟩
  · rintro ⟨hfront, hbehind⟩
    have hbyte : IsText [b] :=
      ⟨toWord [b], (ofString_toWord (by simpa only [List.mem_singleton, forall_eq] using hb)).symm⟩
    rw [List.append_cons]
    exact (hfront.append hbyte).append hbehind

/-- The next character starts right behind a byte of ASCII. -/
theorem IsText.isBoundary_succ (h : IsText bytes) (hbyte : bytes[column]? = some b) (hb : b < 0x80) :
    IsBoundary bytes (column + 1) := by
  obtain ⟨hlt, rfl⟩ := List.getElem?_eq_some_iff.mp hbyte
  have hsplit : bytes = bytes.take (column + 1) ++ bytes.drop (column + 1) :=
    (List.take_append_drop _ _).symm
  have hcons : bytes = bytes.take column ++ bytes[column] :: bytes.drop (column + 1) := by
    rw [← List.drop_eq_getElem_cons hlt, List.take_append_drop]
  have hboth := h
  rw [hcons, isText_append_cons_iff hb] at hboth
  have hfront : IsText (bytes.take (column + 1)) := by
    rw [List.take_succ_eq_append_getElem hlt, isText_append_cons_iff hb]
    exact ⟨hboth.1, isText_nil⟩
  obtain ⟨s, hs⟩ := hfront
  obtain ⟨t, ht⟩ := hboth.2
  refine ⟨s, t, by rw [← hs, ← ht]; exact hsplit, ?_⟩
  rw [← hs, List.length_take_of_le hlt]

end Text

section Count

/-- The column behind the first characters of a text. -/
def columnBehind (bytes : Bytes) (count : Nat) : Nat :=
  (ofString (String.ofList ((decode bytes).take count))).length

/-- Every character has one byte that continues none. -/
theorem characterCount_ofString (s : String) : characterCount (ofString s) = s.toList.length := by
  rw [ofString_eq_flatMap]
  induction s.toList with
  | nil => rfl
  | cons c cs ih =>
    obtain ⟨lead, rest, hchar, hlead, hrest, -⟩ := utf8EncodeChar_eq_cons c
    have hnone : rest.countP (fun b => !isContinuation b) = 0 := by
      rw [List.countP_eq_zero]
      exact fun b hb => by rw [hrest b hb]; nofun
    rw [characterCount, List.flatMap_cons, hchar, List.countP_append, List.countP_cons, hnone, hlead,
      List.length_cons, ← ih, Nat.add_comm]
    rfl

/-- A text has as many bytes as characters exactly if all of them are ASCII. -/
theorem length_ofString_ofList (cs : List Char) :
    cs.length ≤ (ofString (String.ofList cs)).length ∧
      (cs.length = (ofString (String.ofList cs)).length ↔ ∀ c ∈ cs, c.toNat < 0x80) := by
  induction cs with
  | nil => exact ⟨Nat.le_refl _, iff_of_true rfl nofun⟩
  | cons c cs ih =>
    obtain ⟨hle, hiff⟩ := ih
    have hpos := Char.utf8Size_pos c
    have hone : c.utf8Size = 1 ↔ c.toNat < 0x80 := by
      rw [Char.utf8Size_eq_one_iff]
      exact Nat.lt_succ_iff.symm
    rw [ofString_ofList_cons, List.length_append, String.length_utf8EncodeChar, List.length_cons,
      List.forall_mem_cons, ← hiff, ← hone]
    omega

variable {bytes : Bytes}

theorem IsText.characterCount_eq (h : IsText bytes) :
    characterCount bytes = (decode bytes).length := by
  obtain ⟨s, rfl⟩ := h
  rw [characterCount_ofString, decode_ofString]

theorem IsText.isBoundary_columnBehind (h : IsText bytes) (count : Nat) :
    IsBoundary bytes (columnBehind bytes count) := by
  obtain ⟨s, rfl⟩ := h
  refine ⟨String.ofList (s.toList.take count), String.ofList (s.toList.drop count), ?_, ?_⟩
  · rw [← ofString_append, ← String.ofList_append, List.take_append_drop, String.ofList_toList]
  · rw [columnBehind, decode_ofString]

/-- The number of characters is the column behind them exactly if all of them are ASCII. -/
theorem eq_columnBehind_iff {count : Nat} (h : count ≤ (decode bytes).length) :
    count = columnBehind bytes count ↔ ∀ c ∈ (decode bytes).take count, c.toNat < 0x80 := by
  have hiff := (length_ofString_ofList ((decode bytes).take count)).2
  rwa [List.length_take_of_le h] at hiff

end Count

section Lines

variable {bytes raw : Bytes}

/-- The byte order mark is a character. -/
theorem IsText.dropByteOrderMark (h : IsText bytes) : IsText bytes.dropByteOrderMark := by
  unfold Bytes.dropByteOrderMark
  split
  next a b c rest =>
    split
    next hmark =>
      rw [Bool.and_eq_true, Bool.and_eq_true, beq_iff_eq, beq_iff_eq, beq_iff_eq] at hmark
      obtain ⟨⟨rfl, rfl⟩, rfl⟩ := hmark
      obtain ⟨s, hs⟩ := h
      have hchars := congrArg decode hs
      rw [decode_ofString, decode_three rest (by decide) (by decide) (by decide)] at hchars
      have hmark : String.utf8EncodeChar (Char.ofNat 0xFEFF) = [0xEF, 0xBB, 0xBF] := by decide
      refine ⟨String.ofList (decode rest), ?_⟩
      rw [ofString_eq_flatMap, ← hchars] at hs
      have hrest := congrArg (List.drop 3) hs
      rw [List.flatMap_cons] at hrest
      rw [ofString_eq_flatMap, String.toList_ofList]
      exact hrest
    · exact h
  · exact h

/-- The pieces of a text are texts, and so is what stands in front of its first line feed. -/
theorem exists_splitOnLineFeed_of_isText {front : Bytes} (h : IsText (front ++ bytes)) :
    ∃ first rest, splitOnLineFeed bytes = first :: rest ∧ IsText (front ++ first) ∧
      ∀ piece ∈ rest, IsText piece := by
  induction bytes generalizing front with
  | nil => exact ⟨[], [], rfl, h, by simp⟩
  | cons b bytes ih =>
    rw [splitOnLineFeed]
    split
    next hfeed =>
      obtain rfl := beq_iff_eq.mp hfeed
      obtain ⟨hfront, hbytes⟩ := (isText_append_cons_iff (by decide)).mp h
      obtain ⟨first, rest, hsplit, hfirst, hrest⟩ := @ih [] hbytes
      refine ⟨[], splitOnLineFeed bytes, rfl, by rwa [List.append_nil], ?_⟩
      rw [hsplit, List.forall_mem_cons]
      exact ⟨hfirst, hrest⟩
    · rw [List.append_cons] at h
      obtain ⟨first, rest, hsplit, hfirst, hrest⟩ := ih h
      refine ⟨b :: first, rest, by rw [hsplit]; rfl, ?_, hrest⟩
      rwa [List.append_cons]

theorem IsText.dropCarriageReturn (h : IsText bytes) : IsText bytes.dropCarriageReturn := by
  rw [Bytes.dropCarriageReturn]
  split
  next hend =>
    obtain ⟨front, rfl⟩ := endsIn_iff.mp hend
    rw [List.dropLast_concat]
    exact ((isText_append_cons_iff (by decide)).mp h).1
  · exact h

/-- The lines of a text are texts. -/
theorem IsText.of_mem_lines (h : IsText bytes) (hraw : raw ∈ lines bytes) : IsText raw := by
  obtain ⟨first, rest, hsplit, hfirst, hrest⟩ := @exists_splitOnLineFeed_of_isText bytes [] h
  have hpieces : ∀ piece ∈ splitOnLineFeed bytes, IsText piece := by
    rw [hsplit, List.forall_mem_cons]
    exact ⟨hfirst, hrest⟩
  rw [lines] at hraw
  clear hsplit
  generalize splitOnLineFeed bytes = pieces at hraw hpieces
  fun_induction linesOfPieces pieces with
  | case1 => cases hraw
  | case2 last hlast => cases hraw
  | case3 last hlast => exact hpieces raw hraw
  | case4 piece next pieces ih =>
    rw [List.forall_mem_cons] at hpieces
    rcases List.mem_cons.mp hraw with rfl | hraw
    · exact hpieces.1.dropCarriageReturn
    · exact ih hraw hpieces.2

theorem isText_of_mem_lines_ofString (source : String)
    (hraw : raw ∈ lines (ofString source).dropByteOrderMark) : IsText raw :=
  (IsText.dropByteOrderMark ⟨source, rfl⟩).of_mem_lines hraw

end Lines
end BracketLint.Bytes
