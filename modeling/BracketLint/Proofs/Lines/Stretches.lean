import BracketLint.Proofs.Lines.Words

/-!
Stretches behind blanks and behind names. The bytes between two places are found in steps, but what is
read there may pass a name or some blanks at once. What is left of the stretch then is the stretch from
the place where the name or the blanks end.
-/

namespace BracketLint
open scoped Place

theorem Word.place_le_behind (word : Word) : word.place ≤ word.behind := by
  rw [Word.behind]
  cases word.place with
  | front => exact Place.front_le _
  | on line column =>
    rw [Place.on_le_on]
    exact .inr ⟨rfl, Nat.le_add_right _ _⟩

theorem Word.place_lt_behind (word : Word) (h : word.text ≠ "") : word.place < word.behind := by
  have hlength : word.text.length ≠ 0 := fun hzero => h (String.length_eq_zero_iff.mp hzero)
  rw [Word.behind]
  cases word.place with
  | front => exact lt_of_not_ge (Place.on_not_le_front _ _)
  | on line column =>
    rw [Place.on_lt_on, Place.line, Place.column]
    omega

namespace Lines

variable {lines : Lines} {p q last : Place}

section Induction

theorem stepsAhead_anti (h : p ≤ q) : lines.stepsAhead q ≤ lines.stepsAhead p := by
  cases p with
  | front =>
    cases q with
    | front => exact Nat.le_refl _
    | on line' column' =>
      simp only [stepsAhead]
      omega
  | on line column =>
    cases q with
    | front => exact absurd h (Place.on_not_le_front _ _)
    | on line' column' =>
      rw [Place.on_le_on] at h
      simp only [stepsAhead]
      rcases h with hlt | ⟨rfl, hle⟩
      · have hline := lines.positionsAbove_mono (Nat.succ_le_of_lt hlt)
        rw [Nat.succ_eq_add_one, positionsAbove] at hline
        omega
      · omega

/-- What holds at a position if it holds everywhere from the next one on holds everywhere. -/
theorem beyond_induction (lines : Lines) {motive : Place → Prop}
    (step : ∀ p, (∀ q, lines.isAtStop p = false → lines.next p ≤ q → motive q) → motive p)
    (p : Place) : motive p :=
  step p fun q _ _ => beyond_induction lines step q
termination_by lines.stepsAhead p
decreasing_by
  exact Nat.lt_of_le_of_lt (stepsAhead_anti (by assumption)) (lines.next_decreases (by assumption))

end Induction

section Stretch

/-- A stretch goes on behind some bytes of a line where these end. -/
theorem drop_stretch {line column : Nat} (hline : line < lines.lastIndex) (count : Nat)
    (hcolumn : column + count ≤ (lines.text line).length) :
    (lines.stretch (.on line column) last).drop count =
      lines.stretch (.on line (column + count)) last := by
  induction count generalizing column with
  | zero => rfl
  | succ count ih =>
    have hnext : lines.next (.on line column) = .on line (column + 1) := by
      rw [next, if_neg (by omega), if_pos (by omega)]
    by_cases hlt : .on line column < last
    · have hstop : .on line column < lines.stop := by
        rw [stop, Place.on_lt_on]
        exact .inl hline
      rw [lines.stretch_of_lt hstop hlt, List.drop_succ_cons, hnext, ih (by omega),
        Nat.add_right_comm, Nat.add_assoc]
    · have hbehind : ¬.on line (column + (count + 1)) < last := by
        intro h
        refine hlt (lt_of_le_of_lt ?_ h)
        rw [Place.on_le_on]
        exact .inr ⟨rfl, Nat.le_add_right _ _⟩
      rw [lines.stretch_of_not_lt fun h => hlt h.2, lines.stretch_of_not_lt fun h => hbehind h.2,
        List.drop_nil]

/-- A stretch from a place on without the blanks there is the stretch behind the blanks. -/
theorem skipSpace_stretch (hlast : isCursorSpace (lines.byteAt last) = false) (hle : p ≤ last) :
    (lines.stretch p last).skipSpace = lines.stretch (lines.skipSpaceForward p) last := by
  fun_induction skipSpaceForward lines p with
  | case1 p h ih =>
    have hne : p ≠ last := by
      rintro rfl
      rw [hlast] at h
      cases h.2
    have hstop : p < lines.stop := (lines.isAtStop_eq_false p).mp h.1
    have hlt : p < last := lt_of_le_of_ne hle hne
    rw [lines.stretch_of_lt hstop hlt, Stretch.skipSpace, List.dropWhile_cons, if_pos h.2]
    exact ih (next_le_of_lt hstop (isCanonical_of_not_space hlast) hlt)
  | case2 p h =>
    rcases hle.eq_or_lt with rfl | hlt
    · rw [lines.stretch_of_not_lt fun h => lt_irrefl _ h.2]
      rfl
    · have hstop : p < lines.stop := hlt.trans (lt_stop_of_not_space hlast)
      have hcode : ¬isCursorSpace (lines.byteAt p) = true := fun hspace =>
        h ⟨(lines.isAtStop_eq_false p).mpr hstop, hspace⟩
      rw [lines.stretch_of_lt hstop hlt, Stretch.skipSpace, List.dropWhile_cons, if_neg hcode]

/-- Towards a byte of code in front of its end, a stretch gets shorter. -/
theorem length_stretch_lt (hlast : last ≤ lines.stop) (hlt : p < q) (hq : q < last)
    (hcode : isCursorSpace (lines.byteAt q) = false) :
    (lines.stretch q last).length < (lines.stretch p last).length := by
  induction p using lines.ahead_induction with
  | step p ih =>
    have hstop : p < lines.stop := (hlt.trans hq).trans_le hlast
    have hnext : lines.next p ≤ q := next_le_of_lt hstop (isCanonical_of_not_space hcode) hlt
    rw [lines.stretch_of_lt hstop (hlt.trans hq), List.length_cons, Nat.lt_succ_iff]
    rcases hnext.eq_or_lt with heq | hlt
    · rw [heq]
    · exact (ih ((lines.isAtStop_eq_false p).mpr hstop) hlt).le

variable (hword : Ascii.isWordByte (lines.byteAt p) = true)
include hword

/-- A name with its first byte here ends on this line, behind that byte. -/
theorem exists_behind_nameAfter : ∃ line column length, p = .on line column ∧
    line < lines.lastIndex ∧ column + 1 + length ≤ (lines.text line).length ∧
      (lines.nameAfter p).text.length = length + 1 ∧
        (lines.nameAfter p).behind = .on line (column + 1 + length) := by
  obtain ⟨htext, hplace⟩ := nameAfter_of_isWordByte hword
  obtain ⟨line, column, rfl, hline, hcolumn⟩ :=
    exists_of_not_space (not_space_of_isWordByte hword)
  have hspells := (lines.spells_nameAfter (.on line column)).length_le
  rw [← lines.length_text_nameAfter, hplace, List.length_drop] at hspells
  obtain ⟨length, heq⟩ :=
    Nat.exists_eq_succ_of_ne_zero fun hzero => htext (String.length_eq_zero_iff.mp hzero)
  refine ⟨line, column, length, rfl, hline, ?_, heq, ?_⟩
  · dsimp only [Place.line, Place.column] at hspells
    omega
  · rw [Word.behind, hplace, heq, Place.line, Place.column, Nat.succ_eq_add_one, Nat.add_assoc,
      Nat.add_comm 1]

theorem next_le_behind : lines.next p ≤ (lines.nameAfter p).behind := by
  obtain ⟨line, column, length, rfl, hline, hcolumn, -, hbehind⟩ := exists_behind_nameAfter hword
  rw [hbehind, next, if_neg (by omega), if_pos (by omega), Place.on_le_on]
  exact .inr ⟨rfl, Nat.le_add_right _ _⟩

theorem drop_stretch_name :
    (lines.stretch (lines.next p) last).drop ((lines.nameAfter p).text.length - 1) =
      lines.stretch (lines.nameAfter p).behind last := by
  obtain ⟨line, column, length, rfl, hline, hcolumn, hlength, hbehind⟩ :=
    exists_behind_nameAfter hword
  rw [hbehind, hlength, next, if_neg (by omega), if_pos (by omega), Nat.add_sub_cancel]
  exact drop_stretch hline length hcolumn

end Stretch
end Lines
end BracketLint
