import BracketLint.Proofs.Lines.ByteSearch
import BracketLint.Proofs.Lines.StatementStart

/-!
Skipping blanks. Back from a position the search comes to the last byte that is no blank, forward to
the first one: no such byte lies between the position and the place where the search ends. Bytes that
are no blanks stand on lines, so a search that finds none ends in front of the file or behind it.
-/

namespace BracketLint
open scoped Place

namespace Lines

variable {lines : Lines} {p q : Place}

section Code

theorem exists_of_not_space (h : isCursorSpace (lines.byteAt p) = false) :
    ∃ line column, p = .on line column ∧ line < lines.lastIndex ∧
      column < (lines.text line).length := by
  cases p with
  | front => cases h
  | on line column =>
    rw [byteAt] at h
    split_ifs at h with hline
    · cases h
    -- Behind the end of a line there are line feeds only.
    by_cases hcolumn : column < (lines.text line).length
    · exact ⟨line, column, rfl, Nat.lt_of_not_le hline, hcolumn⟩
    · rw [List.getElem?_eq_none (Nat.le_of_not_lt hcolumn)] at h
      cases h

theorem isCanonical_of_not_space (h : isCursorSpace (lines.byteAt p) = false) :
    lines.IsCanonical p := by
  obtain ⟨line, column, rfl, hline, hcolumn⟩ := exists_of_not_space h
  exact .inl ⟨hline, hcolumn.le⟩

theorem lt_stop_of_not_space (h : isCursorSpace (lines.byteAt p) = false) : p < lines.stop := by
  obtain ⟨line, column, rfl, hline, -⟩ := exists_of_not_space h
  rw [stop, Place.on_lt_on]
  exact .inl hline

theorem ne_front_of_not_space (h : isCursorSpace (lines.byteAt p) = false) : p ≠ .front := by
  rintro rfl
  cases h

/-- A byte of a word is no blank. -/
theorem not_space_of_isWordByte {b : UInt8} (h : Ascii.isWordByte b = true) :
    isCursorSpace b = false := by
  rw [isCursorSpace]
  by_contra hspace
  rw [Bool.not_eq_false] at hspace
  simp only [Bool.or_eq_true, beq_iff_eq] at hspace
  rcases hspace with ((rfl | rfl) | rfl) | rfl <;> cases h

end Code

section Step

theorem isFront_eq_false (h : p ≠ .front) : p.isFront = false := by
  cases p with
  | front => exact absurd rfl h
  | on => rfl

theorem prev_lt (h : p ≠ .front) : lines.prev p < p := by
  match p with
  | .front => exact absurd rfl h
  | .on 0 0 => exact lt_of_not_ge (Place.on_not_le_front _ _)
  | .on (line + 1) 0 =>
    rw [prev, Place.on_lt_on]
    exact .inl (Nat.lt_succ_self line)
  | .on line (column + 1) =>
    rw [prev, Place.on_lt_on]
    exact .inr ⟨rfl, Nat.lt_succ_of_le (Nat.min_le_left column _)⟩

/-- A step back passes over no place of the walk. -/
theorem le_prev (hp : lines.IsCanonical p) (hq : lines.IsCanonical q) (hlt : q < p) :
    q ≤ lines.prev p := by
  by_contra hnot
  have hle : lines.next (lines.prev p) ≤ q := next_le (isCanonical_prev hp) hq (not_le.mp hnot)
  rw [next_prev hp (Place.ne_front_of_lt hlt)] at hle
  exact absurd hlt (not_lt.mpr hle)

/-- From wherever it is taken, a step back passes over no byte that is no blank. -/
theorem le_prev_of_not_space (hq : isCursorSpace (lines.byteAt q) = false) (hlt : q < p) :
    q ≤ lines.prev p := by
  obtain ⟨line, column, rfl, -, hcolumn⟩ := exists_of_not_space hq
  match p with
  | .front => exact absurd hlt (not_lt.mpr (Place.front_le _))
  | .on 0 0 =>
    rw [Place.on_lt_on] at hlt
    omega
  | .on (last + 1) 0 =>
    rw [Place.on_lt_on] at hlt
    rw [prev, Place.on_le_on]
    rcases Nat.lt_or_eq_of_le (Nat.le_of_lt_succ (show line < last + 1 by omega)) with hline | rfl
    · exact .inl hline
    · exact .inr ⟨rfl, Nat.le_of_lt hcolumn⟩
  | .on last (behind + 1) =>
    rw [Place.on_lt_on] at hlt
    rw [prev, Place.on_le_on]
    rcases hlt with hline | ⟨rfl, hlt⟩
    · exact .inl hline
    · exact .inr ⟨rfl, Nat.le_min.mpr ⟨Nat.le_of_lt_succ hlt, Nat.le_of_lt hcolumn⟩⟩

end Step

section SkipSpaceBack

variable (lines) in
theorem skipSpaceBack_le (p : Place) : lines.skipSpaceBack p ≤ p := by
  fun_induction skipSpaceBack lines p with
  | case1 p h ih =>
    have hfront : p ≠ .front := by
      rintro rfl
      cases h.1
    exact ih.trans (prev_lt hfront).le
  | case2 p => exact le_refl p

variable (lines) in
theorem skipSpaceBack_eq_front_or (p : Place) : lines.skipSpaceBack p = .front ∨
    isCursorSpace (lines.byteAt (lines.skipSpaceBack p)) = false := by
  fun_induction skipSpaceBack lines p with
  | case1 p h ih => exact ih
  | case2 p h =>
    cases p with
    | front => exact .inl rfl
    | on line column => exact .inr (Bool.eq_false_iff.mpr fun hspace => h ⟨rfl, hspace⟩)

/-- The search back passes over no byte that is no blank. -/
theorem le_skipSpaceBack (hq : isCursorSpace (lines.byteAt q) = false) (hle : q ≤ p) :
    q ≤ lines.skipSpaceBack p := by
  fun_induction skipSpaceBack lines p with
  | case1 p h ih =>
    have hne : q ≠ p := by
      rintro rfl
      rw [hq] at h
      cases h.2
    exact ih (le_prev_of_not_space hq (lt_of_le_of_ne hle hne))
  | case2 p => exact hle

theorem le_skipSpaceBack_prev (hq : isCursorSpace (lines.byteAt q) = false) (hlt : q < p) :
    q ≤ lines.skipSpaceBack (lines.prev p) :=
  le_skipSpaceBack hq (le_prev_of_not_space hq hlt)

end SkipSpaceBack

section SkipSpaceForward

theorem byteAt_skipSpaceForward (h : lines.skipSpaceForward p < lines.stop) :
    isCursorSpace (lines.byteAt (lines.skipSpaceForward p)) = false := by
  fun_induction skipSpaceForward lines p with
  | case1 p hp ih => exact ih h
  | case2 p hp =>
    exact Bool.eq_false_iff.mpr fun hspace => hp ⟨(lines.isAtStop_eq_false p).mpr h, hspace⟩

/-- The search forward passes over no byte that is no blank. -/
theorem skipSpaceForward_le (hq : isCursorSpace (lines.byteAt q) = false) (hle : p ≤ q) :
    lines.skipSpaceForward p ≤ q := by
  fun_induction skipSpaceForward lines p with
  | case1 p h ih =>
    have hne : p ≠ q := by
      rintro rfl
      rw [hq] at h
      cases h.2
    have hstop : p < lines.stop := (lines.isAtStop_eq_false p).mp h.1
    exact ih (next_le_of_lt hstop (isCanonical_of_not_space hq) (lt_of_le_of_ne hle hne))
  | case2 p => exact hle

theorem skipSpaceForward_of_not_space (h : isCursorSpace (lines.byteAt p) = false) :
    lines.skipSpaceForward p = p :=
  le_antisymm (skipSpaceForward_le h (le_refl p)) (lines.le_skipSpaceForward p)

end SkipSpaceForward

section Stretch

/-- All places of the walk between its ends are in a stretch. -/
theorem mem_stretch_of_le (hq : lines.IsCanonical q) {first last : Place} (hfirst : first ≤ q)
    (hlast : q < last) (hstop : q < lines.stop) : (q, lines.byteAt q) ∈ lines.stretch first last := by
  fun_induction lines.stretch first last with
  | case1 first h ih =>
    rcases hfirst.eq_or_lt with rfl | hlt
    · exact List.mem_cons_self
    · exact List.mem_cons_of_mem _
        (ih (next_le_of_lt ((lines.isAtStop_eq_false first).mp h.1) hq hlt))
  | case2 first h =>
    have hnot : first < lines.stop ∧ first < last :=
      ⟨hfirst.trans_lt hstop, hfirst.trans_lt hlast⟩
    exact absurd ⟨(lines.isAtStop_eq_false first).mpr hnot.1, hnot.2⟩ h

/-- Behind a byte that only blanks part from a position, the search back from in front of that
position ends. -/
theorem skipSpaceBack_prev_eq (hq : isCursorSpace (lines.byteAt q) = false) (hlt : q < p)
    (hblank : ∀ entry ∈ lines.stretch (lines.next q) p, isCursorSpace entry.2 = true) :
    lines.skipSpaceBack (lines.prev p) = q := by
  refine (le_skipSpaceBack_prev hq hlt).antisymm' (not_lt.mp fun hgt => ?_)
  -- The byte found would stand among the blanks.
  have hcode := (lines.skipSpaceBack_eq_front_or (lines.prev p)).resolve_left
    (Place.ne_front_of_lt hgt)
  have hfirst : lines.next q ≤ lines.skipSpaceBack (lines.prev p) :=
    next_le (isCanonical_of_not_space hq) (isCanonical_of_not_space hcode) hgt
  have hlast : lines.skipSpaceBack (lines.prev p) < p :=
    (lines.skipSpaceBack_le _).trans_lt (prev_lt (Place.ne_front_of_lt hlt))
  have hmem := mem_stretch_of_le (isCanonical_of_not_space hcode) hfirst hlast
    (lt_stop_of_not_space hcode)
  have hspace := hblank _ hmem
  rw [hcode] at hspace
  cases hspace

end Stretch

end Lines
end BracketLint
