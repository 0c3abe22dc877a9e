import Mathlib.Order.MinMax
import BracketLint.Proofs.Lines.Buffer

/-!
Where statements start. The scan for the start of a statement passes the stretch from the first line
of the statement up to a position, and what it finds is the place behind the last semicolon or brace
there. A longer stretch has all entries of a shorter one, so the start that is found can only move
forward with the position, and it stays the same as long as the position moves back no further than
that start.
-/

namespace BracketLint
open scoped Place

namespace Place

theorem lt_behind (p : Place) : p < on p.line (p.column + 1) := by
  cases p with
  | front => exact lt_of_not_ge (on_not_le_front _ _)
  | on line column => exact on_lt_on.mpr (.inr ⟨rfl, Nat.lt_succ_self _⟩)

theorem behind_le {line column : Nat} {p : Place} (h : on line column < p) :
    on line (column + 1) ≤ p := by
  cases p with
  | front => exact absurd h (not_lt.mpr (front_le _))
  | on line' column' =>
    rw [on_lt_on] at h
    rw [on_le_on]
    omega

theorem min_eq (p q : Place) : p.min q = Min.min p q := by
  rw [Place.min, min_comm, min_def_lt]

end Place

namespace Lines

variable (lines : Lines)

section FirstLine

theorem firstLine_le (line : Nat) : lines.firstLine line ≤ line := by
  induction line with
  | zero => exact Nat.le_refl _
  | succ line ih =>
    rw [firstLine]
    split
    · exact Nat.le_refl _
    · exact Nat.le_succ_of_le ih

/-- All lines of a statement have the same first line. -/
theorem firstLine_eq_of_le {line line' : Nat} (hfirst : lines.firstLine line' ≤ line)
    (hle : line ≤ line') : lines.firstLine line = lines.firstLine line' := by
  induction line' with
  | zero => rw [Nat.le_zero.mp hle]
  | succ line' ih =>
    rcases Nat.le_succ_iff.mp hle with hle | rfl
    · rw [firstLine] at hfirst ⊢
      split at hfirst
      · omega
      next hend => rw [if_neg hend, ih hfirst hle]
    · rfl

end FirstLine

section SkipSpace

theorem le_skipSpaceForward (p : Place) : p ≤ lines.skipSpaceForward p := by
  fun_induction skipSpaceForward lines p with
  | case1 p h ih => exact (lines.lt_next ((lines.isAtStop_eq_false p).mp h.1)).le.trans ih
  | case2 p => exact le_refl p

/-- A step forward does not pass a later position, unless that stands behind the end of the line: then
both step to the same place. -/
theorem next_le_or_eq {p q : Place} (hp : p < lines.stop) (h : p < q) :
    lines.next p ≤ q ∨ q < lines.stop ∧ lines.byteAt q = Ascii.lineFeed ∧
      lines.next q = lines.next p := by
  cases q with
  | front => exact absurd h (not_lt.mpr (Place.front_le p))
  | on line' column' =>
    cases p with
    | front =>
      left
      rw [next, Place.on_le_on]
      omega
    | on line column =>
      rw [stop, Place.on_lt_on] at hp
      rw [Place.on_lt_on] at h
      have hline : ¬lines.lastIndex ≤ line := by omega
      by_cases hcolumn : column < (lines.text line).length
      · left
        rw [next, if_neg hline, if_pos hcolumn, Place.on_le_on]
        omega
      rcases h with hlt | ⟨rfl, hlt⟩
      · left
        rw [next, if_neg hline, if_neg hcolumn, Place.on_le_on]
        omega
      · right
        have hcolumn' : (lines.text line).length ≤ column' := by omega
        refine ⟨?_, ?_, ?_⟩
        · rw [stop, Place.on_lt_on]
          omega
        · rw [byteAt, if_neg hline, List.getElem?_eq_none hcolumn', Option.getD_none]
        · rw [next, next, if_neg hline, if_neg hline, if_neg hcolumn,
            if_neg (Nat.not_lt.mpr hcolumn')]

theorem skipSpaceForward_mono {p q : Place} (h : p ≤ q) :
    lines.skipSpaceForward p ≤ lines.skipSpaceForward q := by
  fun_induction skipSpaceForward lines p with
  | case1 p hp ih =>
    rcases h.eq_or_lt with rfl | hlt
    · rw [skipSpaceForward.eq_def lines p, dif_pos hp]
    rcases lines.next_le_or_eq ((lines.isAtStop_eq_false p).mp hp.1) hlt with hle | ⟨hq, hfeed, heq⟩
    · exact ih hle
    · have hblank : lines.isAtStop q = false ∧ isCursorSpace (lines.byteAt q) = true :=
        ⟨(lines.isAtStop_eq_false q).mpr hq, by rw [hfeed]; rfl⟩
      rw [skipSpaceForward.eq_def lines q, dif_pos hblank, heq]
  | case2 p => exact h.trans (lines.le_skipSpaceForward q)

end SkipSpace

section Stretch

/-- A longer stretch goes on where a shorter one ends. -/
theorem exists_stretch_append (first : Place) {p q : Place} (h : p ≤ q) :
    ∃ rest, lines.stretch first q = lines.stretch first p ++ rest ∧ ∀ entry ∈ rest, p ≤ entry.1 := by
  fun_induction lines.stretch first p with
  | case1 first hfirst ih =>
    obtain ⟨rest, hrest, hle⟩ := ih
    have hstop := (lines.isAtStop_eq_false first).mp hfirst.1
    exact ⟨rest, by rw [lines.stretch_of_lt hstop (hfirst.2.trans_le h), hrest]; rfl, hle⟩
  | case2 first hfirst =>
    refine ⟨_, rfl, fun entry hentry => ?_⟩
    obtain ⟨hge, hstop, -, -⟩ := lines.mem_stretch first q entry hentry
    by_contra hlt
    have hfirst' := hge.trans_lt (not_le.mp hlt)
    exact hfirst ⟨(lines.isAtStop_eq_false first).mpr (hge.trans_lt hstop), hfirst'⟩

end Stretch

namespace StatementScan

/-- Passes an entry of a stretch. -/
def passEntry (scan : StatementScan) (entry : Place × UInt8) : StatementScan :=
  scan.pass entry.1.line entry.1.column entry.2

/-- Behind some entries the start is the one in front of them, or it stands behind one of them. -/
theorem start_foldl (scan : StatementScan) (entries : Stretch) :
    (entries.foldl passEntry scan).start = scan.start ∨ ∃ entry ∈ entries,
      (entries.foldl passEntry scan).start = .on entry.1.line (entry.1.column + 1) := by
  induction entries generalizing scan with
  | nil => exact .inl rfl
  | cons entry entries ih =>
    rw [List.foldl_cons]
    rcases ih (scan.passEntry entry) with heq | ⟨other, hmem, heq⟩
    · rw [heq]
      have hstep : (scan.passEntry entry).start = scan.start ∨
          (scan.passEntry entry).start = .on entry.1.line (entry.1.column + 1) := by
        rw [passEntry, pass]
        split_ifs
        · exact .inl rfl
        · exact .inl rfl
        · exact .inr rfl
        · exact .inl rfl
      exact hstep.imp_right fun h => ⟨entry, List.mem_cons_self, h⟩
    · exact .inr ⟨other, List.mem_cons_of_mem _ hmem, heq⟩

end StatementScan

section Scan

theorem text_of_lastIndex_le {line : Nat} (h : lines.lastIndex ≤ line) : lines.text line = [] := by
  cases line with
  | zero => rfl
  | succ index =>
    have hsize : lines.physical.size ≤ index := Nat.le_of_succ_le_succ h
    rw [text, Lines.line, Array.getD_eq_getD_getElem?, Array.getElem?_eq_none hsize]
    rfl

/-- The part of a line that lies in front of a position. -/
def lineUpTo (p : Place) (line : Nat) : Bytes :=
  if line == p.line then (lines.text line).take p.column else lines.text line

theorem lineUpTo_prefix (p : Place) (line : Nat) : lines.lineUpTo p line <+: lines.text line := by
  rw [lineUpTo]
  split
  · exact List.take_prefix _ _
  · exact List.prefix_refl _

/-- In front of a position a line goes on up to its end. -/
theorem length_le_of_lineUpTo {line column line' column' : Nat}
    (h : Place.on line column < .on line' column')
    (hend : (lines.lineUpTo (.on line' column') line).length ≤ column) :
    (lines.text line).length ≤ column := by
  rw [Place.on_lt_on] at h
  rw [lineUpTo] at hend
  split at hend
  · next heq =>
    rw [beq_iff_eq] at heq
    simp only [Place.line, Place.column, List.length_take] at heq hend
    omega
  · exact hend

theorem lt_of_lineUpTo {line column line' column' : Nat} (h : line ≤ line')
    (hcolumn : column < (lines.lineUpTo (.on line' column') line).length) :
    Place.on line column < .on line' column' := by
  rw [Place.on_lt_on]
  rw [lineUpTo] at hcolumn
  split at hcolumn
  · next heq =>
    rw [beq_iff_eq] at heq
    simp only [Place.line, Place.column, List.length_take] at heq hcolumn
    omega
  · next heq =>
    rw [beq_iff_eq] at heq
    exact .inl (Nat.lt_of_le_of_ne h heq)

/-- A line makes up the stretch from it to the next line. -/
theorem foldl_stretch_line (scan : StatementScan) {line line' : Nat} (column column' : Nat)
    (h : line ≤ line') :
    let p := Place.on line' column'
    (lines.stretch (.on line column) p).foldl StatementScan.passEntry scan =
      (lines.stretch (.on (line + 1) 0) p).foldl StatementScan.passEntry
        (scan.passBytes line column ((lines.lineUpTo p line).drop column)) := by
  intro p
  generalize hrest : (lines.lineUpTo p line).drop column = rest
  induction rest generalizing column scan with
  | nil =>
    have hend := List.drop_eq_nil_iff.mp hrest
    by_cases hlt : Place.on line column < lines.stop ∧ Place.on line column < p
    · -- Only the line feed is left of the line.
      have hlength := lines.length_le_of_lineUpTo hlt.2 hend
      have hline : ¬lines.lastIndex ≤ line := by
        have hstop := hlt.1
        rw [stop, Place.on_lt_on] at hstop
        omega
      rw [lines.stretch_of_lt hlt.1 hlt.2, next, if_neg hline, if_neg (Nat.not_lt.mpr hlength),
        byteAt, if_neg hline, List.getElem?_eq_none hlength]
      rfl
    · have hnext : ¬(Place.on (line + 1) 0 < lines.stop ∧ Place.on (line + 1) 0 < p) := by
        rw [stop, Place.on_lt_on, Place.on_lt_on] at hlt ⊢
        omega
      rw [lines.stretch_of_not_lt hlt, lines.stretch_of_not_lt hnext]
      rfl
  | cons b rest ih =>
    have hcolumn : column < (lines.lineUpTo p line).length := by
      have hlength := congrArg List.length hrest
      rw [List.length_drop, List.length_cons] at hlength
      omega
    have hb : (lines.lineUpTo p line)[column]? = some b := by
      rw [← Nat.add_zero column, ← List.getElem?_drop, hrest]
      rfl
    have hrest' : (lines.lineUpTo p line).drop (column + 1) = rest := by
      rw [← List.drop_drop, hrest]
      rfl
    have hprefix := lines.lineUpTo_prefix p line
    have htext : (lines.text line)[column]? = some b := by
      obtain ⟨tail, htail⟩ := hprefix
      rw [← htail, List.getElem?_append_left hcolumn, hb]
    have hlength : column < (lines.text line).length := hcolumn.trans_le hprefix.length_le
    have hline : ¬lines.lastIndex ≤ line := by
      intro hle
      rw [lines.text_of_lastIndex_le hle] at hlength
      exact Nat.not_lt_zero _ hlength
    have hstop : Place.on line column < lines.stop := by
      rw [stop, Place.on_lt_on]
      omega
    rw [lines.stretch_of_lt hstop (lines.lt_of_lineUpTo h hcolumn), next, if_neg hline,
      if_pos hlength, byteAt, if_neg hline, htext, List.foldl_cons, ih _ _ hrest']
    rfl

/-- The scan line by line passes the entries of a stretch. -/
theorem foldl_passLine (scan : StatementScan) (line column line' column' : Nat) :
    let p := Place.on line' column'
    (List.range' line (line' + 1 - line)).foldl (lines.passLine (.on line column) p) scan =
      (lines.stretch (.on line column) p).foldl StatementScan.passEntry scan := by
  intro p
  induction hn : line' + 1 - line generalizing line column scan with
  | zero =>
    have hnot : ¬Place.on line column < p := by
      rw [Place.on_lt_on]
      omega
    rw [lines.stretch_of_not_lt fun h => hnot h.2]
    rfl
  | succ n ih =>
    have hfirst : lines.passLine (.on line column) p scan line =
        scan.passBytes line column ((lines.lineUpTo p line).drop column) := by
      rw [passLine, Place.line, Place.column, beq_self_eq_true, if_pos rfl]
      rfl
    -- Behind its first line the stretch starts at the start of each line.
    have hrest (scan : StatementScan) (other : Nat) (hother : other ∈ List.range' (line + 1) n) :
        lines.passLine (.on line column) p scan other =
          lines.passLine (.on (line + 1) 0) p scan other := by
      have hne : other ≠ line := Nat.ne_of_gt (List.mem_range'_1.mp hother).1
      have hcolumn : (if other == (Place.on line column).line then (Place.on line column).column
          else 0) = if other == (Place.on (line + 1) 0).line then (Place.on (line + 1) 0).column
          else 0 := by
        simp [Place.line, Place.column, hne]
      rw [passLine, hcolumn]
      rfl
    rw [List.range'_succ, List.foldl_cons, List.foldl_ext _ _ _ hrest, hfirst,
      ih _ _ _ (by omega), ← lines.foldl_stretch_line scan column column' (by omega)]

end Scan

section Start

/-- The scan from the first position of a statement up to another position. -/
def statementScan (first p : Place) : StatementScan :=
  (lines.stretch first p).foldl StatementScan.passEntry ⟨0, first⟩

/-- The first position of the first line of the statement that a line belongs to. -/
def firstPlace (line : Nat) : Place :=
  .on (lines.firstLine line) (lines.line (lines.firstLine line)).indent

/-- A statement starts behind the last semicolon or brace between its first position and the given
one, blanks aside. -/
theorem statementStart_on (line column : Nat) :
    let p := Place.on line column
    let first := lines.firstPlace line
    lines.statementStart p =
      if p < first then p
      else Min.min (lines.skipSpaceForward (lines.statementScan first p).start) p := by
  intro p first
  have hscan := lines.foldl_passLine ⟨0, first⟩ (lines.firstLine line)
    (lines.line (lines.firstLine line)).indent line column
  rw [← Place.min_eq, statementScan]
  exact hscan ▸ rfl

variable {first p q : Place}

theorem le_start_statementScan (first p : Place) :
    first ≤ (lines.statementScan first p).start := by
  rcases StatementScan.start_foldl ⟨0, first⟩ (lines.stretch first p) with
    heq | ⟨entry, hentry, heq⟩
  · exact (le_of_eq heq.symm)
  · rw [statementScan, heq]
    obtain ⟨hge, -⟩ := lines.mem_stretch first p entry hentry
    exact (hge.trans_lt entry.1.lt_behind).le

/-- The start is not behind the position. -/
theorem start_statementScan_le {line column : Nat} (h : .on line column ≤ p) :
    (lines.statementScan (.on line column) p).start ≤ p := by
  rcases StatementScan.start_foldl ⟨0, .on line column⟩ (lines.stretch (.on line column) p) with
    heq | ⟨entry, hentry, heq⟩
  · exact heq.trans_le h
  · rw [statementScan, heq]
    obtain ⟨hge, -, hlt, -⟩ := lines.mem_stretch _ p entry hentry
    obtain ⟨q, b⟩ := entry
    cases q with
    | front => exact absurd hge (Place.on_not_le_front _ _)
    | on => exact Place.behind_le hlt

/-- Behind a position the scan finds the same start, or one that stands further behind. -/
theorem start_statementScan_eq_or_lt (first : Place) (h : p ≤ q) :
    (lines.statementScan first q).start = (lines.statementScan first p).start ∨
      p < (lines.statementScan first q).start := by
  obtain ⟨rest, hrest, hle⟩ := lines.exists_stretch_append first h
  rw [statementScan, hrest, List.foldl_append]
  refine (StatementScan.start_foldl _ rest).imp_right ?_
  rintro ⟨entry, hentry, heq⟩
  rw [heq]
  exact (hle entry hentry).trans_lt entry.1.lt_behind

end Start

section Interior

theorem statementStart_le (p : Place) : lines.statementStart p ≤ p := by
  cases p with
  | front => exact le_refl _
  | on line column =>
    rw [statementStart_on]
    split_ifs
    · exact le_refl _
    · exact min_le_right _ _

/-- A statement does not start in front of its first line. -/
theorem le_statementStart_on (line column : Nat) :
    .on (lines.firstLine line) 0 ≤ lines.statementStart (.on line column) := by
  have hline := lines.firstLine_le line
  have hp : Place.on (lines.firstLine line) 0 ≤ .on line column := by
    rw [Place.on_le_on]
    omega
  have hfirst : Place.on (lines.firstLine line) 0 ≤ lines.firstPlace line := by
    rw [firstPlace, Place.on_le_on]
    omega
  rw [statementStart_on]
  split_ifs
  · exact hp
  · refine le_min ?_ hp
    exact hfirst.trans ((lines.le_start_statementScan _ _).trans (lines.le_skipSpaceForward _))

theorem firstPlace_eq_of_le {line line' : Nat} (hfirst : lines.firstLine line' ≤ line)
    (hle : line ≤ line') : lines.firstPlace line = lines.firstPlace line' := by
  rw [firstPlace, firstPlace, lines.firstLine_eq_of_le hfirst hle]

theorem statementStart_mono {p q : Place} (h : p ≤ q) :
    lines.statementStart p ≤ lines.statementStart q := by
  cases p with
  | front => exact Place.front_le _
  | on line column =>
  cases q with
  | front => exact absurd h (Place.on_not_le_front _ _)
  | on line' column' =>
  have hline : line ≤ line' := by
    rw [Place.on_le_on] at h
    omega
  rcases Nat.lt_or_ge line (lines.firstLine line') with hlt | hge
  · -- The later position belongs to a later statement.
    have hfirst : Place.on line column ≤ .on (lines.firstLine line') 0 :=
      Place.on_le_on.mpr (.inl hlt)
    exact (lines.statementStart_le _).trans (hfirst.trans (lines.le_statementStart_on line' column'))
  · rw [statementStart_on, statementStart_on, lines.firstPlace_eq_of_le hge hline]
    set first := lines.firstPlace line'
    split_ifs with hp hq hq
    · exact h
    · refine le_min ?_ h
      exact hp.le.trans ((lines.le_start_statementScan _ _).trans (lines.le_skipSpaceForward _))
    · exact absurd (h.trans_lt hq) hp
    · refine min_le_min (lines.skipSpaceForward_mono ?_) h
      rcases lines.start_statementScan_eq_or_lt first h with heq | hlt
      · exact le_of_eq heq.symm
      · exact (lines.start_statementScan_le (not_lt.mp hp)).trans hlt.le

theorem statementStart_idem (p : Place) :
    lines.statementStart (lines.statementStart p) = lines.statementStart p := by
  cases p with
  | front => rfl
  | on line column =>
  rcases (lines.statementStart_le (.on line column)).eq_or_lt with heq | hlt
  · rw [heq, heq]
  have hon := lines.statementStart_on line column
  set p := Place.on line column
  set first := lines.firstPlace line with hfirst
  have hp : ¬p < first := by
    intro h
    rw [hon, if_pos h] at hlt
    exact lt_irrefl p hlt
  rw [hon, if_neg hp] at hlt ⊢
  have hskip := (min_lt_iff.mp hlt).resolve_right (lt_irrefl p)
  rw [min_eq_left hskip.le]
  -- What lies between the start that was found and the first code behind it is blank, so the scan
  -- up to that code finds the same start.
  have hstart := lines.le_skipSpaceForward (lines.statementScan first p).start
  have hge := (lines.le_start_statementScan first p).trans hstart
  have hsame := (lines.start_statementScan_eq_or_lt first hskip.le).resolve_right
    (not_lt.mpr hstart)
  generalize hs : lines.skipSpaceForward (lines.statementScan first p).start = s at *
  cases s with
  | front => exact absurd hge (Place.on_not_le_front _ _)
  | on line' column' =>
    have hfirst' : lines.firstPlace line' = first := by
      rw [hfirst, firstPlace, Place.on_le_on] at hge
      rw [Place.on_lt_on] at hskip
      exact lines.firstPlace_eq_of_le (by omega) (by omega)
    rw [statementStart_on, hfirst', if_neg (not_lt.mpr hge), ← hsame, hs, min_self]

/-- The start of the statement is an interior operator on positions. -/
theorem statementStart_interior :
    (∀ p, lines.statementStart p ≤ p) ∧ Monotone lines.statementStart ∧
      ∀ p, lines.statementStart (lines.statementStart p) = lines.statementStart p :=
  ⟨lines.statementStart_le, fun _ _ => lines.statementStart_mono, lines.statementStart_idem⟩

end Interior
end Lines
end BracketLint
