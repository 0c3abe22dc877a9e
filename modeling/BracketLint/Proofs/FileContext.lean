import BracketLint.FileContext
import BracketLint.Proofs.Text.Pieces

/-!
Offsets of lines and columns. A line of a text starts behind the line feeds of the lines in front of it
and ends at the next line feed, so a text has one line more than it has line feeds. The offset of a
column on a line lies on the line or at its end; a number behind the last line gives an offset behind
the text.
-/

namespace BracketLint

namespace Bytes

/-- The line with a number, counted from one: what stands in front of it are whole lines, each with its
line feed, and no line feed stands on it. -/
structure IsLine (bytes : Bytes) (line start : Nat) (text : Bytes) : Prop where
  exists_append : ∃ front behind, bytes = front ++ text ++ behind ∧ front.length = start ∧
    front.count Ascii.lineFeed + 1 = line ∧ (front = [] ∨ front.getLast? = some Ascii.lineFeed) ∧
    (behind = [] ∨ behind.head? = some Ascii.lineFeed)
  lineFeed_not_mem : Ascii.lineFeed ∉ text

theorem length_splitOnLineFeed (bytes : Bytes) :
    (splitOnLineFeed bytes).length = bytes.count Ascii.lineFeed + 1 := by
  induction bytes with
  | nil => rfl
  | cons b bytes ih =>
    rw [splitOnLineFeed, List.count_cons]
    split
    · rw [List.length_cons, ih]
    · obtain ⟨first, rest, hsplit⟩ := List.exists_cons_of_ne_nil (splitOnLineFeed_ne_nil bytes)
      rw [← ih, hsplit, consToFirst]
      rfl

/-- Up to the first line feed a text is its first piece. -/
theorem splitOnLineFeed_append_of_not_mem {text behind : Bytes} (htext : Ascii.lineFeed ∉ text)
    (hbehind : behind = [] ∨ behind.head? = some Ascii.lineFeed) :
    ∃ rest, splitOnLineFeed (text ++ behind) = text :: rest := by
  induction text with
  | nil =>
    rcases hbehind with rfl | hbehind
    · exact ⟨[], rfl⟩
    · obtain ⟨behind, rfl⟩ := List.head?_eq_some_iff.mp hbehind
      exact ⟨splitOnLineFeed behind, rfl⟩
  | cons b text ih =>
    rw [List.mem_cons, not_or] at htext
    obtain ⟨rest, hrest⟩ := ih htext.2
    refine ⟨rest, ?_⟩
    rw [List.cons_append, splitOnLineFeed, if_neg (by rw [beq_iff_eq]; exact Ne.symm htext.1), hrest]
    rfl

/-- Whole lines leave an empty piece behind them. -/
theorem splitOnLineFeed_of_getLast? {front : Bytes}
    (hfront : front = [] ∨ front.getLast? = some Ascii.lineFeed) :
    ∃ pieces, splitOnLineFeed front = pieces ++ [[]] := by
  rcases hfront with rfl | hfront
  · exact ⟨[], rfl⟩
  · obtain ⟨front, rfl⟩ := List.getLast?_eq_some_iff.mp hfront
    obtain ⟨pieces, last, -, happend⟩ := splitOnLineFeed_append front
    refine ⟨pieces ++ [last], ?_⟩
    have hfeed : splitOnLineFeed [Ascii.lineFeed] = [[], []] := rfl
    rw [happend hfeed, List.append_nil, List.append_assoc]
    rfl

variable {bytes text : Bytes} {line start : Nat}

/-- A line is the piece with its number, and it starts behind the pieces in front of it. -/
theorem IsLine.getElem?_splitOnLineFeed (h : bytes.IsLine line start text) :
    ∃ before, line = before + 1 ∧ (splitOnLineFeed bytes)[before]? = some text ∧
      lengthOfLines ((splitOnLineFeed bytes).take before) = start := by
  obtain ⟨front, behind, rfl, rfl, rfl, hfront, hbehind⟩ := h.exists_append
  obtain ⟨rest, hrest⟩ := splitOnLineFeed_append_of_not_mem h.lineFeed_not_mem hbehind
  obtain ⟨pieces, hpieces⟩ := splitOnLineFeed_of_getLast? hfront
  obtain ⟨pieces', last, hsplit, happend⟩ := splitOnLineFeed_append front
  obtain ⟨rfl, hlast⟩ := List.append_inj' (hsplit.symm.trans hpieces) rfl
  obtain rfl : last = [] := List.singleton_inj.mp hlast
  have hwhole := happend hrest
  rw [← List.append_assoc, List.nil_append] at hwhole
  have hcount : pieces'.length = front.count Ascii.lineFeed := by
    have hlength := length_splitOnLineFeed front
    rw [hsplit, List.length_append, List.length_singleton] at hlength
    exact Nat.succ.inj hlength
  have hstart : lengthOfLines pieces' = front.length := by
    have hlength := lengthOfLines_splitOnLineFeed front
    rw [hsplit, lengthOfLines_append] at hlength
    exact Nat.succ.inj hlength
  refine ⟨pieces'.length, by rw [hcount], ?_, ?_⟩
  · rw [hwhole, List.getElem?_append_right (Nat.le_refl _), Nat.sub_self]
    rfl
  · rw [hwhole, List.take_left, hstart]

/-- Every number up to one more than there are line feeds is that of a line. -/
theorem exists_isLine (hpos : 0 < line) (hle : line ≤ bytes.count Ascii.lineFeed + 1) :
    ∃ start text, bytes.IsLine line start text := by
  induction bytes generalizing line with
  | nil =>
    obtain rfl : line = 1 := Nat.le_antisymm hle hpos
    exact ⟨0, [], ⟨[], [], rfl, rfl, rfl, .inl rfl, .inl rfl⟩, List.not_mem_nil⟩
  | cons b bytes ih =>
    by_cases hb : b = Ascii.lineFeed
    · -- Behind the line feed the lines are counted one further.
      subst hb
      rw [List.count_cons_self] at hle
      obtain ⟨before, rfl⟩ := Nat.exists_eq_add_one_of_ne_zero (Nat.ne_of_gt hpos)
      obtain rfl | hbefore := Nat.eq_zero_or_pos before
      · exact ⟨0, [], ⟨[], _ :: bytes, rfl, rfl, rfl, .inl rfl, .inr rfl⟩, List.not_mem_nil⟩
      · obtain ⟨start, text, ⟨front, behind, rfl, rfl, hcount, hfront, hbehind⟩, hmem⟩ :=
          ih hbefore (Nat.le_of_succ_le_succ hle)
        refine ⟨front.length + 1, text, ⟨Ascii.lineFeed :: front, behind, rfl, rfl, ?_, ?_, hbehind⟩,
          hmem⟩
        · rw [List.count_cons_self, hcount]
        · rcases hfront with rfl | hfront
          · exact .inr rfl
          · rw [List.getLast?_cons, hfront]
            exact .inr rfl
    · rw [List.count_cons_of_ne hb] at hle
      obtain ⟨start, text, ⟨front, behind, rfl, rfl, rfl, hfront, hbehind⟩, hmem⟩ := ih hpos hle
      rcases hfront with rfl | hfront
      · -- The byte stands on the first line.
        refine ⟨0, b :: text, ⟨[], behind, rfl, rfl, rfl, .inl rfl, hbehind⟩, ?_⟩
        rw [List.mem_cons, not_or]
        exact ⟨Ne.symm hb, hmem⟩
      · refine ⟨front.length + 1, text, ⟨b :: front, behind, rfl, rfl, ?_, ?_, hbehind⟩, hmem⟩
        · rw [List.count_cons_of_ne hb]
        · rw [List.getLast?_cons, hfront]
          exact .inr rfl

theorem exists_isLine_iff :
    (∃ start text, bytes.IsLine line start text) ↔
      0 < line ∧ line ≤ bytes.count Ascii.lineFeed + 1 := by
  refine ⟨?_, fun ⟨hpos, hle⟩ => exists_isLine hpos hle⟩
  rintro ⟨start, text, hline⟩
  obtain ⟨before, rfl, hpiece, -⟩ := hline.getElem?_splitOnLineFeed
  have hlt := (List.getElem?_eq_some_iff.mp hpiece).1
  rw [length_splitOnLineFeed] at hlt
  exact ⟨Nat.succ_pos before, hlt⟩

end Bytes

namespace FileContext

/-- The offset of a line and a column. On a line it is where the line starts and as far behind as the
column says, or the end of the line, and so it lies in the text. Line 0 has offset 0, and a number
behind the last line gives the offset behind the end of the text. -/
theorem offset_isLine (file : FileContext) (line column : Nat) :
    (∀ start text, file.content.IsLine line start text →
      file.offset line column = start + min (max column 1 - 1) text.length ∧
        file.offset line column ≤ file.content.length) ∧
    ((∃ start text, file.content.IsLine line start text) ↔
      0 < line ∧ line ≤ file.content.count Ascii.lineFeed + 1) ∧
    (line = 0 → file.offset line column = 0) ∧
    (file.content.count Ascii.lineFeed + 1 < line →
      file.offset line column = file.content.length + 1) := by
  refine ⟨fun start text hline => ?_, Bytes.exists_isLine_iff, ?_, fun hlt => ?_⟩
  · obtain ⟨before, rfl, hpiece, hstart⟩ := hline.getElem?_splitOnLineFeed
    have hcolumn : max column 1 - 1 = column - 1 := by omega
    have hoffset : file.offset (before + 1) column = start + min (column - 1) text.length := by
      rw [offset]
      simp only [hpiece, hstart]
    refine ⟨by rw [hoffset, hcolumn], ?_⟩
    have hbound := Bytes.lengthOfLines_take_add_le hpiece
    have hmin := Nat.min_le_right (column - 1) text.length
    rw [hstart] at hbound
    omega
  · rintro rfl
    rfl
  · obtain ⟨before, rfl⟩ := Nat.exists_eq_add_of_lt (Nat.lt_of_le_of_lt (Nat.zero_le _) hlt)
    rw [Nat.zero_add] at hlt ⊢
    have hlength : (Bytes.splitOnLineFeed file.content).length ≤ before := by
      rw [Bytes.length_splitOnLineFeed]
      exact Nat.le_of_lt_succ hlt
    rw [offset]
    simp only [List.getElem?_eq_none hlength, List.take_of_length_le hlength,
      Bytes.lengthOfLines_splitOnLineFeed]

/-- The second line of a text without line feeds does not exist, and its offset is neither 0 nor in the
text. -/
theorem offset_second_of_two :
    let file := ofFile ⟨"/p/a.cpp"⟩ ⟨"/p"⟩ (Bytes.ofString "ab")
    (¬∃ start text, file.content.IsLine 2 start text) ∧ file.offset 2 1 ≠ 0 ∧
      ¬file.offset 2 1 ≤ file.content.length := by
  intro file
  rw [Bytes.exists_isLine_iff]
  decide +kernel

end FileContext
end BracketLint
