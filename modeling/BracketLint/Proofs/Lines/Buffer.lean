import Mathlib.Data.List.Basic
import BracketLint.Proofs.Place
import BracketLint.Lines.Stretch
import BracketLint.Group.Forest

/-!
The scrubbed lines read as one text, byte after byte with a line feed behind each line. The
positions of a stretch ascend, its bytes are those at its positions, and the brackets of a file are
the bracket bytes of that text.
-/

namespace BracketLint
open scoped Place

/-- The byte of a bracket. -/
def Shape.byte : Shape → (closes : Bool) → UInt8
  | .paren, false => Ascii.openParen
  | .paren, true => Ascii.closeParen
  | .brace, false => Ascii.openBrace
  | .brace, true => Ascii.closeBrace

theorem Bracket.ofByte?_eq_some {b : UInt8} {shape : Shape} {closes : Bool} :
    ofByte? b = some (shape, closes) ↔ b = shape.byte closes := by
  constructor
  · intro h
    simp only [ofByte?, beq_iff_eq] at h
    split_ifs at h with h1 h2 h3 h4 <;> obtain ⟨rfl, rfl⟩ := Prod.mk.inj (Option.some.inj h)
    · exact h1
    · exact h2
    · exact h3
    · exact h4
  · rintro rfl
    cases shape <;> cases closes <;> rfl

/-- The bytes of all brackets. -/
def Shape.bytes : Bytes :=
  [paren.byte false, paren.byte true, brace.byte false, brace.byte true]

theorem Shape.mem_bytes {b : UInt8} : b ∈ bytes ↔ ∃ shape closes, b = byte shape closes := by
  constructor
  · intro h
    simp only [bytes, List.mem_cons, List.not_mem_nil, or_false] at h
    rcases h with h | h | h | h
    · exact ⟨_, _, h⟩
    · exact ⟨_, _, h⟩
    · exact ⟨_, _, h⟩
    · exact ⟨_, _, h⟩
  · rintro ⟨shape, closes, rfl⟩
    cases shape <;> cases closes <;> decide

/-- The bytes that the matching takes for brackets are these. -/
theorem Bracket.isSome_ofByte? {b : UInt8} : (ofByte? b).isSome = true ↔ b ∈ Shape.bytes := by
  simp only [Shape.mem_bytes, Option.isSome_iff_exists, Prod.exists, ofByte?_eq_some]

/-- The bracket at an entry of a stretch, if its byte is one. -/
def Bracket.ofPlaced? (entry : Place × UInt8) : Option Bracket :=
  (ofByte? entry.2).map fun kind => ⟨entry.1, kind.1, kind.2⟩

theorem Bracket.ofPlaced?_eq_some {entry : Place × UInt8} {b : Bracket} :
    ofPlaced? entry = some b ↔ entry = (b.place, b.shape.byte b.closes) := by
  obtain ⟨p, c⟩ := entry
  simp only [ofPlaced?, Option.map_eq_some_iff, Prod.exists, ofByte?_eq_some, Prod.mk.injEq]
  constructor
  · rintro ⟨shape, closes, hc, rfl⟩
    exact ⟨rfl, hc⟩
  · rintro ⟨rfl, hc⟩
    exact ⟨b.shape, b.closes, hc, rfl⟩

theorem Bracket.ofPlaced?_eq_none {entry : Place × UInt8} :
    ofPlaced? entry = none ↔ entry.2 ∉ Shape.bytes := by
  rw [ofPlaced?, Option.map_eq_none_iff, ← isSome_ofByte?, Bool.not_eq_true,
    Option.isSome_eq_false_iff, Option.isNone_iff_eq_none]

namespace Lines

/-- The whole text of a file: the bytes of its lines in order, with a line feed behind each line. -/
def buffer (lines : Lines) : Stretch := lines.stretch (.on 0 0) lines.stop

theorem isAtStop_eq_false (lines : Lines) (p : Place) :
    lines.isAtStop p = false ↔ p < lines.stop := by
  rw [isAtStop, decide_eq_false_iff_not, not_le]

theorem lt_next (lines : Lines) {p : Place} (h : p < lines.stop) : p < lines.next p := by
  cases p with
  | front => rw [Place.lt_iff]; rfl
  | on line column =>
    rw [stop, Place.on_lt_on] at h
    have hl : ¬lines.lastIndex ≤ line := by omega
    by_cases hc : column < (lines.text line).length
    · rw [next, if_neg hl, if_pos hc, Place.on_lt_on]; omega
    · rw [next, if_neg hl, if_neg hc, Place.on_lt_on]; omega

theorem stretch_of_lt (lines : Lines) {first last : Place} (h : first < lines.stop)
    (hl : first < last) :
    lines.stretch first last =
      (first, lines.byteAt first) :: lines.stretch (lines.next first) last := by
  rw [stretch, dif_pos ⟨(lines.isAtStop_eq_false first).mpr h, hl⟩]

theorem stretch_of_not_lt (lines : Lines) {first last : Place}
    (h : ¬(first < lines.stop ∧ first < last)) : lines.stretch first last = [] := by
  rw [stretch, dif_neg (fun hh => h ⟨(lines.isAtStop_eq_false first).mp hh.1, hh.2⟩)]

/-- Every entry of a stretch stands between its ends and holds the byte at its position. -/
theorem mem_stretch (lines : Lines) (first last : Place) :
    ∀ entry ∈ lines.stretch first last,
      first ≤ entry.1 ∧ entry.1 < lines.stop ∧ entry.1 < last ∧ entry.2 = lines.byteAt entry.1 := by
  fun_induction lines.stretch first last with
  | case1 first h ih =>
    have hs := (lines.isAtStop_eq_false first).mp h.1
    intro entry he
    rcases List.mem_cons.mp he with rfl | he
    · exact ⟨le_refl _, hs, h.2, rfl⟩
    · obtain ⟨h1, h2⟩ := ih entry he
      exact ⟨(lines.lt_next hs).le.trans h1, h2⟩
  | case2 first h => intro entry he; simp at he

theorem pairwise_stretch (lines : Lines) (first last : Place) :
    (lines.stretch first last).Pairwise fun a b => a.1 < b.1 := by
  fun_induction lines.stretch first last with
  | case1 first h ih =>
    have hs := (lines.isAtStop_eq_false first).mp h.1
    refine List.Pairwise.cons ?_ ih
    intro entry he
    exact (lines.lt_next hs).trans_le (lines.mem_stretch _ _ entry he).1
  | case2 first h => exact List.Pairwise.nil

/-- Some bytes of a line with their positions, from a column on. -/
def rowFrom (line : Nat) : (column : Nat) → Bytes → Stretch
  | _, [] => []
  | column, b :: rest => (.on line column, b) :: rowFrom line (column + 1) rest

theorem filterMap_rowFrom (line column : Nat) (text : Bytes) :
    (rowFrom line column text).filterMap Bracket.ofPlaced? = bracketsFrom line column text := by
  induction text generalizing column with
  | nil => rfl
  | cons b rest ih =>
    rw [rowFrom, bracketsFrom, List.filterMap_cons, ih]
    cases h : Bracket.ofByte? b with
    | none => simp [Bracket.ofPlaced?, h]
    | some kind => simp [Bracket.ofPlaced?, h]

/-- From a column of a line on, the text holds the rest of that line, a line feed, and the lines
behind it. -/
theorem stretch_row (lines : Lines) {line column : Nat} (hl : line < lines.lastIndex)
    (rest : Bytes) (hr : (lines.text line).drop column = rest)
    (hc : column ≤ (lines.text line).length) :
    lines.stretch (.on line column) lines.stop =
      rowFrom line column rest ++
        (.on line (lines.text line).length, Ascii.lineFeed) ::
          lines.stretch (.on (line + 1) 0) lines.stop := by
  have hnot : ¬lines.lastIndex ≤ line := by omega
  induction rest generalizing column with
  | nil =>
    have hcol : column = (lines.text line).length := by
      have := List.drop_eq_nil_iff.mp hr
      omega
    subst hcol
    have hs : Place.on line (lines.text line).length < lines.stop := by
      rw [stop, Place.on_lt_on]; omega
    rw [lines.stretch_of_lt hs hs, next, if_neg hnot, if_neg (Nat.lt_irrefl _)]
    simp [rowFrom, byteAt, hnot]
  | cons b rest ih =>
    have hlt : column < (lines.text line).length := by
      have := congrArg List.length hr
      simp only [List.length_drop, List.length_cons] at this
      omega
    have hb : (lines.text line)[column]? = some b := by
      rw [← Nat.add_zero column, ← List.getElem?_drop, hr]; rfl
    have hrest : (lines.text line).drop (column + 1) = rest := by
      rw [← List.drop_drop, hr]; rfl
    have hs : Place.on line column < lines.stop := by
      rw [stop, Place.on_lt_on]; omega
    rw [lines.stretch_of_lt hs hs, next, if_neg hnot, if_pos hlt, ih hrest (by omega)]
    simp [rowFrom, byteAt, hnot, hb]

/-- The brackets of the lines from a number on are the bracket bytes of the text from there on. -/
theorem filterMap_stretch (lines : Lines) (count : Nat) {line : Nat}
    (h : line + count = lines.lastIndex) :
    (lines.stretch (.on line 0) lines.stop).filterMap Bracket.ofPlaced? =
      (List.range' line count).flatMap fun line => bracketsFrom line 0 (lines.text line) := by
  induction count generalizing line with
  | zero =>
    have hn : ¬Place.on line 0 < lines.stop := by
      rw [stop, Place.on_lt_on]; omega
    rw [lines.stretch_of_not_lt fun hh => hn hh.1]
    rfl
  | succ count ih =>
    rw [lines.stretch_row (by omega) _ rfl (Nat.zero_le _), List.filterMap_append,
      filterMap_rowFrom, List.filterMap_cons_none rfl, ih (by omega), List.range'_succ,
      List.flatMap_cons, List.drop_zero]

/-- The brackets of a file are the bracket bytes of its text, in order. -/
theorem filterMap_buffer (lines : Lines) :
    lines.buffer.filterMap Bracket.ofPlaced? = lines.brackets := by
  rw [buffer, lines.filterMap_stretch lines.lastIndex (Nat.zero_add _), brackets,
    List.range_eq_range']

theorem pairwise_brackets (lines : Lines) :
    lines.brackets.Pairwise fun a b => a.place < b.place := by
  rw [← filterMap_buffer, List.pairwise_filterMap]
  refine (lines.pairwise_stretch _ _).imp ?_
  intro e e' hlt b hb b' hb'
  rw [Bracket.ofPlaced?_eq_some] at hb hb'
  rwa [hb, hb'] at hlt

/-- A bracket of a file is the byte at its position, and it stands behind the start of the file and
in front of its end. -/
theorem mem_brackets (lines : Lines) {b : Bracket} (h : b ∈ lines.brackets) :
    lines.byteAt b.place = b.shape.byte b.closes ∧ .on 0 0 < b.place ∧ b.place < lines.stop := by
  rw [← filterMap_buffer, List.mem_filterMap] at h
  obtain ⟨entry, he, hb⟩ := h
  rw [Bracket.ofPlaced?_eq_some] at hb
  subst hb
  obtain ⟨h1, h2, -, h3⟩ := lines.mem_stretch _ _ _ he
  refine ⟨h3.symm, lt_of_le_of_ne h1 ?_, h2⟩
  -- Line 0 is empty, so a line feed stands at its start.
  intro h0
  have h0' : lines.byteAt (.on 0 0) = Ascii.lineFeed := by
    simp [byteAt, lastIndex, text, line]
  change b.shape.byte b.closes = lines.byteAt b.place at h3
  rw [← h0, h0'] at h3
  revert h3
  cases b.shape <;> cases b.closes <;> decide

end Lines
end BracketLint
