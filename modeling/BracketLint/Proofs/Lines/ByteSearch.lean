import Mathlib.Order.Bounds.Basic
import BracketLint.Proofs.Lines.Steps

/-!
The search for the first byte of a set. It takes each line as a whole, from a column that may lie
behind the line's end, and yet it finds what a walk in steps finds that looks at one position after
another: the first position of the file that holds such a byte, or the stop if there is none.
-/

namespace BracketLint
open scoped Place

namespace Lines

/-- The first position of a walk from `p` on whose byte is in `set`; the stop if there is none. -/
def firstByStep (lines : Lines) (set : Bytes) (p : Place) : Place :=
  if _h : lines.isAtStop p = false then
    if lines.byteAt p ∈ set then p else firstByStep lines set (lines.next p)
  else lines.stop
termination_by lines.stepsAhead p
decreasing_by exact lines.next_decreases _h

/-- The positions of the file, from `p` on, whose bytes are in `set`. -/
def placesOf (lines : Lines) (set : Bytes) (p : Place) : Set Place :=
  {q | lines.IsCanonical q ∧ p ≤ q ∧ q < lines.stop ∧ lines.byteAt q ∈ set}

/-- What a search for the bytes of `set` from `p` on has to find. -/
def IsFirstOf (lines : Lines) (set : Bytes) (p q : Place) : Prop :=
  IsLeast (lines.placesOf set p) q ∨ lines.placesOf set p = ∅ ∧ q = lines.stop

variable {lines : Lines} {set : Bytes} {p q : Place}

theorem IsFirstOf.unique {q' : Place} (h : lines.IsFirstOf set p q) (h' : lines.IsFirstOf set p q') :
    q = q' := by
  rcases h with h | ⟨hnone, rfl⟩
  · rcases h' with h' | ⟨hnone, -⟩
    · exact h.unique h'
    · rw [hnone] at h
      exact absurd h.1 (Set.notMem_empty q)
  · rcases h' with h' | ⟨-, rfl⟩
    · rw [hnone] at h'
      exact absurd h'.1 (Set.notMem_empty q')
    · rfl

/-- A search may start further on if it passes over none of the positions searched for. -/
theorem IsFirstOf.of_le {p' : Place} (h : lines.IsFirstOf set p' q) (hle : p ≤ p')
    (hpassed : ∀ q ∈ lines.placesOf set p, p' ≤ q) : lines.IsFirstOf set p q := by
  have heq : lines.placesOf set p = lines.placesOf set p' := by
    ext q
    constructor
    · intro hq
      exact ⟨hq.1, hpassed q hq, hq.2.2⟩
    · rintro ⟨hcanonical, hq, hrest⟩
      exact ⟨hcanonical, hle.trans hq, hrest⟩
  rwa [IsFirstOf, heq]

theorem isFirstOf_self (hcanonical : lines.IsCanonical p) (hstop : p < lines.stop)
    (hbyte : lines.byteAt p ∈ set) : lines.IsFirstOf set p p :=
  .inl ⟨⟨hcanonical, le_refl p, hstop, hbyte⟩, fun _ hq => hq.2.1⟩

theorem isFirstOf_stop (hstop : lines.stop ≤ p) : lines.IsFirstOf set p lines.stop := by
  refine .inr ⟨Set.eq_empty_of_forall_notMem fun q hq => ?_, rfl⟩
  exact absurd (hstop.trans hq.2.1) (not_le.mpr hq.2.2.1)

/-- A step forward passes over no place of the walk, also from behind the end of a line. -/
theorem next_le_of_lt (hstop : p < lines.stop) (hq : lines.IsCanonical q) (hlt : p < q) :
    lines.next p ≤ q := by
  by_cases hp : lines.IsCanonical p
  · exact next_le hp hq hlt
  cases p with
  | front => exact absurd trivial hp
  | on line column =>
    rw [stop, Place.on_lt_on] at hstop
    rw [IsCanonical] at hp
    cases q with
    | front => exact absurd hlt (not_lt.mpr (Place.front_le _))
    | on line' column' =>
      rw [IsCanonical] at hq
      rw [Place.on_lt_on] at hlt
      rw [next, if_neg (by omega), if_neg (by omega), Place.on_le_on]
      -- No place of the walk stands on the rest of the line.
      have hline : line ≠ line' := by
        rintro rfl
        omega
      omega

section Search

variable (hset : Ascii.lineFeed ∉ set)
include hset

-- Apart from line feeds, a byte of the file stands on a line.
theorem lt_length_of_byteAt_mem {line column : Nat} (hline : line < lines.lastIndex)
    (hbyte : lines.byteAt (.on line column) ∈ set) : column < (lines.text line).length := by
  by_contra hcolumn
  rw [byteAt, if_neg (Nat.not_le.mpr hline), List.getElem?_eq_none (Nat.le_of_not_lt hcolumn),
    Option.getD_none] at hbyte
  exact hset hbyte

theorem isFirstOf_firstByStep (p : Place) : lines.IsFirstOf set p (lines.firstByStep set p) := by
  fun_induction firstByStep lines set p with
  | case1 p hstop hbyte =>
    rw [isAtStop_eq_false] at hstop
    refine isFirstOf_self ?_ hstop hbyte
    cases p with
    | front => trivial
    | on line column =>
      rw [stop, Place.on_lt_on] at hstop
      have hline : line < lines.lastIndex := by omega
      exact .inl ⟨hline, (lt_length_of_byteAt_mem hset hline hbyte).le⟩
  | case2 p hstop hbyte ih =>
    rw [isAtStop_eq_false] at hstop
    apply ih.of_le (lines.lt_next hstop).le
    intro q hq
    -- The step passes over `p` only, and its byte is none of those searched for.
    apply next_le_of_lt hstop hq.1 (lt_of_le_of_ne hq.2.1 _)
    rintro rfl
    exact hbyte hq.2.2.2
  | case3 p hstop =>
    rw [isAtStop, Bool.not_eq_false, decide_eq_true_eq] at hstop
    exact isFirstOf_stop hstop

/-- What is searched for on a line, from a column on, stands in the rest of that line. -/
theorem exists_getElem?_of_mem_placesOf {line column column' : Nat}
    (hq : .on line column' ∈ lines.placesOf set (.on line column)) :
    column ≤ column' ∧ ∃ b ∈ set, ((lines.text line).drop column)[column' - column]? = some b := by
  obtain ⟨-, hle, hstop, hbyte⟩ := hq
  rw [Place.on_le_on] at hle
  rw [stop, Place.on_lt_on] at hstop
  have hline : line < lines.lastIndex := by omega
  have hcolumn := lt_length_of_byteAt_mem hset hline hbyte
  rw [byteAt, if_neg (Nat.not_le.mpr hline), List.getElem?_eq_getElem hcolumn,
    Option.getD_some] at hbyte
  refine ⟨by omega, _, hbyte, ?_⟩
  rw [List.getElem?_drop, Nat.add_sub_of_le (by omega), List.getElem?_eq_getElem hcolumn]

/-- Where the rest of a line holds no byte of the set, the search may go on with the next line. -/
theorem next_line_le {line column : Nat}
    (hnone : ((lines.text line).drop column).findIdx? set.contains = none) :
    ∀ q ∈ lines.placesOf set (.on line column), .on (line + 1) 0 ≤ q := by
  intro q hq
  cases q with
  | front => exact absurd hq.2.1 (Place.on_not_le_front _ _)
  | on line' column' =>
    have hle := hq.2.1
    have hne : line ≠ line' := by
      rintro rfl
      obtain ⟨-, b, hb, hget⟩ := exists_getElem?_of_mem_placesOf hset hq
      have hnot := List.findIdx?_eq_none_iff.mp hnone b (List.mem_of_getElem? hget)
      rw [List.contains_iff_mem.mpr hb] at hnot
      cases hnot
    rw [Place.on_le_on] at hle ⊢
    omega

/-- The first byte of the set in the rest of a line comes before all others from there on. -/
theorem on_add_le {line column offset : Nat}
    (hfind : ((lines.text line).drop column).findIdx? set.contains = some offset) :
    ∀ q ∈ lines.placesOf set (.on line column), .on line (column + offset) ≤ q := by
  intro q hq
  cases q with
  | front => exact absurd hq.2.1 (Place.on_not_le_front _ _)
  | on line' column' =>
    have hle := hq.2.1
    rw [Place.on_le_on] at hle ⊢
    refine hle.imp_right fun ⟨heq, _⟩ => ⟨heq, ?_⟩
    subst heq
    obtain ⟨hcolumn, b, hb, hget⟩ := exists_getElem?_of_mem_placesOf hset hq
    by_contra hlt
    obtain ⟨_, _, hbefore⟩ := List.findIdx?_eq_some_iff_getElem.mp hfind
    have hnot := hbefore (column' - column) (by omega)
    obtain ⟨hlength, rfl⟩ := List.getElem?_eq_some_iff.mp hget
    exact hnot (List.contains_iff_mem.mpr hb)

theorem isFirstOf_findFrom (line column : Nat) :
    lines.IsFirstOf set (.on line column) (lines.findFrom set line column) := by
  fun_induction findFrom lines set line column with
  | case1 line column hline offset hfind =>
    obtain ⟨hoffset, hbyte, -⟩ := List.findIdx?_eq_some_iff_getElem.mp hfind
    rw [List.length_drop] at hoffset
    rw [List.getElem_drop, List.contains_iff_mem] at hbyte
    -- The offset counts from the column on, and the byte there stands on the line.
    have hcanonical : lines.IsCanonical (.on line (column + offset)) := Or.inl ⟨hline, by omega⟩
    have hstop : Place.on line (column + offset) < lines.stop := by
      rw [stop, Place.on_lt_on]
      exact .inl hline
    have hself : lines.byteAt (.on line (column + offset)) ∈ set := by
      rwa [byteAt, if_neg (Nat.not_le.mpr hline), List.getElem?_eq_getElem (by omega),
        Option.getD_some]
    refine (isFirstOf_self hcanonical hstop hself).of_le ?_ (on_add_le hset hfind)
    rw [Place.on_le_on]
    omega
  | case2 line column hline hfind ih =>
    apply ih.of_le _ (next_line_le hset hfind)
    rw [Place.on_le_on]
    omega
  | case3 line column hline =>
    apply isFirstOf_stop
    rw [stop, Place.on_le_on]
    omega

end Search

/-- The search line by line finds the first position of the file, from the start of the file or from
`p` on, whose byte is in the set, or the stop if there is none. It finds what a walk in steps finds
that looks at each position. -/
theorem findFirstOf_isFirstOf (lines : Lines) (set : Bytes) (p : Place)
    (hset : Ascii.lineFeed ∉ set) :
    lines.IsFirstOf set (max p (.on 0 0)) (lines.findFirstOf set p) ∧
      lines.findFirstOf set p = lines.firstByStep set (max p (.on 0 0)) := by
  have hfirst : lines.IsFirstOf set (max p (.on 0 0)) (lines.findFirstOf set p) := by
    cases p with
    -- The position in front of all lines counts as the start of the file.
    | front =>
      rw [max_eq_right (Place.front_le _)]
      exact isFirstOf_findFrom hset 0 0
    | on line column =>
      have hle : Place.on 0 0 ≤ .on line column := by
        rw [Place.on_le_on]
        omega
      rw [max_eq_left hle]
      exact isFirstOf_findFrom hset line column
  exact ⟨hfirst, hfirst.unique (isFirstOf_firstByStep hset _)⟩

/-- From a column behind the end of line 1, the search goes on with line 2. -/
theorem findFirstOf_isFirstOf_behind_line :
    let lines := (ofRawLines [Bytes.ofString "f(", Bytes.ofString "a)"] .implementation {}).1
    Ascii.lineFeed ∉ [Ascii.closeParen] ∧ lines.IsFirstOf [Ascii.closeParen] (.on 1 9) (.on 2 1) ∧
      lines.firstByStep [Ascii.closeParen] (.on 1 9) = .on 2 1 := by
  intro lines
  have hset : Ascii.lineFeed ∉ [Ascii.closeParen] := by decide
  have hfound : lines.findFirstOf [Ascii.closeParen] (.on 1 9) = .on 2 1 := by decide +kernel
  obtain ⟨hfirst, hstep⟩ := findFirstOf_isFirstOf lines [Ascii.closeParen] (.on 1 9) hset
  rw [hfound] at hfirst hstep
  exact ⟨hset, hfirst, hstep.symm⟩

end Lines
end BracketLint
