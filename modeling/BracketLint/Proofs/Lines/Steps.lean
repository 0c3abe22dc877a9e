import Mathlib.Data.Nat.Find
import Mathlib.Logic.Function.Iterate
import BracketLint.Proofs.Lines.Buffer
import BracketLint.Proofs.Lines.SameCode

/-!
Steps over scrubbed lines. A walk in steps comes to the front, to each byte of a line and to the
place right behind the last one, and to the stop. Among these positions a step forward and a step
back undo one another, and a step forward passes over none of them. So a walk from the front comes to
each of them once, in order, and ends at the stop.
-/

namespace BracketLint
open scoped Place

namespace Lines

variable {lines : Lines} {p q : Place}

/-- The positions that a walk comes to. -/
def IsCanonical (lines : Lines) : Place → Prop
  | .front => True
  | .on line column =>
    line < lines.lastIndex ∧ column ≤ (lines.text line).length ∨ line = lines.lastIndex ∧ column = 0

section Canonical

variable (lines) in
theorem isCanonical_stop : lines.IsCanonical lines.stop := .inr ⟨rfl, rfl⟩

/-- Every line starts at a place of the walk, the empty line behind the file too. -/
theorem isCanonical_on_zero {line : Nat} (h : line ≤ lines.lastIndex) :
    lines.IsCanonical (.on line 0) :=
  (Nat.lt_or_eq_of_le h).imp (fun hlt => ⟨hlt, Nat.zero_le _⟩) fun heq => ⟨heq, rfl⟩

theorem IsCanonical.le_stop (h : lines.IsCanonical p) : p ≤ lines.stop := by
  cases p with
  | front => exact Place.front_le _
  | on line column =>
    rw [IsCanonical] at h
    rw [stop, Place.on_le_on]
    omega

/-- In front of the stop a position is the front, or it stands at a byte or at the end of a line. -/
theorem IsCanonical.cases (h : lines.IsCanonical p) (hstop : p ≠ lines.stop) :
    p = .front ∨ ∃ line < lines.lastIndex,
      (∃ column < (lines.text line).length, p = .on line column) ∨
        p = .on line (lines.text line).length := by
  cases p with
  | front => exact .inl rfl
  | on line column =>
    rcases h with ⟨hline, hcolumn⟩ | ⟨rfl, rfl⟩
    · refine .inr ⟨line, hline, ?_⟩
      rcases Nat.lt_or_eq_of_le hcolumn with hlt | rfl
      · exact .inl ⟨column, hlt, rfl⟩
      · exact .inr rfl
    · exact absurd rfl hstop

end Canonical

section Next

variable {line column : Nat}

theorem next_of_lt (hline : line < lines.lastIndex) (hcolumn : column < (lines.text line).length) :
    lines.next (.on line column) = .on line (column + 1) := by
  rw [next, if_neg (Nat.not_le.mpr hline), if_pos hcolumn]

theorem next_lineEnd (hline : line < lines.lastIndex) :
    lines.next (.on line (lines.text line).length) = .on (line + 1) 0 := by
  rw [next, if_neg (Nat.not_le.mpr hline), if_neg (Nat.lt_irrefl _)]

variable (lines) in
theorem next_stop : lines.next lines.stop = lines.stop := by
  rw [stop, next, if_pos (Nat.le_refl _), stop]

theorem prev_of_le (hcolumn : column ≤ (lines.text line).length) :
    lines.prev (.on line (column + 1)) = .on line column :=
  congrArg (Place.on line) (Nat.min_eq_left hcolumn)

end Next

section Step

theorem isCanonical_next (h : lines.IsCanonical p) : lines.IsCanonical (lines.next p) := by
  by_cases hstop : p = lines.stop
  · rwa [hstop, next_stop, ← hstop]
  rcases h.cases hstop with rfl | ⟨line, hline, ⟨column, hcolumn, rfl⟩ | rfl⟩
  · exact isCanonical_on_zero (Nat.zero_le _)
  · rw [next_of_lt hline hcolumn]
    exact .inl ⟨hline, hcolumn⟩
  · rw [next_lineEnd hline]
    exact isCanonical_on_zero hline

theorem isCanonical_prev (h : lines.IsCanonical p) : lines.IsCanonical (lines.prev p) := by
  match p with
  | .front => trivial
  | .on 0 0 => trivial
  | .on (line + 1) 0 =>
    rw [IsCanonical] at h
    exact .inl ⟨by omega, Nat.le_refl _⟩
  | .on line (column + 1) =>
    rw [IsCanonical] at h
    rw [prev_of_le (by omega)]
    exact .inl (by omega)

/-- A step back undoes a step forward. -/
theorem prev_next (h : lines.IsCanonical p) (hstop : p ≠ lines.stop) :
    lines.prev (lines.next p) = p := by
  rcases h.cases hstop with rfl | ⟨line, hline, ⟨column, hcolumn, rfl⟩ | rfl⟩
  · rfl
  · rw [next_of_lt hline hcolumn, prev_of_le (Nat.le_of_lt hcolumn)]
  · rw [next_lineEnd hline]
    rfl

/-- A step forward undoes a step back. -/
theorem next_prev (h : lines.IsCanonical p) (hfront : p ≠ .front) :
    lines.next (lines.prev p) = p := by
  match p with
  | .front => exact absurd rfl hfront
  | .on 0 0 => rfl
  | .on (line + 1) 0 =>
    rw [IsCanonical] at h
    exact next_lineEnd (by omega)
  | .on line (column + 1) =>
    rw [IsCanonical] at h
    rw [prev_of_le (by omega), next_of_lt (by omega) (by omega)]

/-- A step forward passes over no place of the walk. -/
theorem next_le (h : lines.IsCanonical p) (hq : lines.IsCanonical q) (hlt : p < q) :
    lines.next p ≤ q := by
  have hstop : p ≠ lines.stop := (hlt.trans_le hq.le_stop).ne
  cases q with
  | front => exact absurd hlt (not_lt.mpr (Place.front_le p))
  | on line' column' =>
    rw [IsCanonical] at hq
    rcases h.cases hstop with rfl | ⟨line, hline, ⟨column, hcolumn, rfl⟩ | rfl⟩
    · rw [next, Place.on_le_on]
      omega
    · rw [Place.on_lt_on] at hlt
      rw [next_of_lt hline hcolumn, Place.on_le_on]
      omega
    · rw [Place.on_lt_on] at hlt
      rw [next_lineEnd hline, Place.on_le_on]
      -- Behind the end of a line only the next line has places of the walk.
      rcases hlt with hlt | ⟨rfl, hlt⟩
      · omega
      · omega

end Step

section Walk

/-- The position that the walk from the front comes to with a number of steps. -/
def walked (lines : Lines) (count : Nat) : Place := lines.next^[count] .front

theorem walked_succ (count : Nat) : lines.walked (count + 1) = lines.next (lines.walked count) :=
  Function.iterate_succ_apply' _ _ _

theorem isCanonical_walked (count : Nat) : lines.IsCanonical (lines.walked count) := by
  induction count with
  | zero => trivial
  | succ count ih =>
    rw [walked_succ]
    exact isCanonical_next ih

/-- The walk comes to every place: to the one in front of it, and from there in one step. -/
theorem exists_walked_eq (h : lines.IsCanonical p) : ∃ count, lines.walked count = p := by
  induction p using lines.behind_induction with
  | step p ih =>
    by_cases hfront : p = .front
    · exact ⟨0, hfront.symm⟩
    have hback : p.isFront = false := by
      cases p with
      | front => exact absurd rfl hfront
      | on => rfl
    obtain ⟨count, hcount⟩ := ih _ (lines.prev_decreases hback) (isCanonical_prev h)
    exact ⟨count + 1, by rw [walked_succ, hcount, next_prev h hfront]⟩

/-- Once at the stop, the walk stays there. -/
theorem walked_of_le {count count' : Nat} (h : lines.walked count = lines.stop)
    (hle : count ≤ count') : lines.walked count' = lines.stop := by
  induction hle with
  | refl => exact h
  | step _ ih => rw [walked_succ, ih, next_stop]

/-- Up to its first arrival at the stop the walk goes ahead with every step. -/
theorem walked_lt_walked {count : Nat} (hfirst : ∀ k < count, lines.walked k ≠ lines.stop) :
    ∀ {j k : Nat}, j < k → k ≤ count → lines.walked j < lines.walked k := by
  intro j k hjk hk
  induction hjk with
  | refl =>
    rw [walked_succ]
    exact lines.lt_next ((isCanonical_walked j).le_stop.lt_of_ne (hfirst j hk))
  | @step k _ ih =>
    have hstep : lines.walked k < lines.walked (k + 1) := by
      rw [walked_succ]
      exact lines.lt_next ((isCanonical_walked k).le_stop.lt_of_ne (hfirst k hk))
    exact (ih (Nat.le_of_succ_le hk)).trans hstep

end Walk

/-- Steps forward and back are inverse to one another on the positions that a walk comes to, and a
step forward leads to the next one of them. So the walk from the front comes to each of them exactly
once, in order, and ends at the stop. -/
theorem next_prev_walk (lines : Lines) :
    (∀ p, lines.IsCanonical p →
      lines.IsCanonical (lines.next p) ∧ lines.IsCanonical (lines.prev p)) ∧
    (∀ p, lines.IsCanonical p → p ≠ lines.stop →
      lines.prev (lines.next p) = p ∧ p < lines.next p ∧
        ∀ q, lines.IsCanonical q → p < q → lines.next p ≤ q) ∧
    (∀ p, lines.IsCanonical p → p ≠ .front → lines.next (lines.prev p) = p) ∧
    ∃ count, lines.walked count = lines.stop ∧
      (∀ j k, j < k → k ≤ count → lines.walked j < lines.walked k) ∧
      ∀ p, lines.IsCanonical p ↔ ∃ k ≤ count, lines.walked k = p := by
  refine ⟨fun p hp => ⟨isCanonical_next hp, isCanonical_prev hp⟩, ?_, fun p => next_prev, ?_⟩
  · intro p hp hstop
    exact ⟨prev_next hp hstop, lines.lt_next (hp.le_stop.lt_of_ne hstop),
      fun q hq hlt => next_le hp hq hlt⟩
  -- The walk is taken up to its first arrival at the stop.
  have harrives : ∃ count, lines.walked count = lines.stop := exists_walked_eq lines.isCanonical_stop
  refine ⟨Nat.find harrives, Nat.find_spec harrives, ?_, fun p => ⟨fun hp => ?_, ?_⟩⟩
  · intro j k
    exact walked_lt_walked fun i hi => Nat.find_min harrives hi
  · obtain ⟨k, rfl⟩ := exists_walked_eq hp
    rcases Nat.le_total k (Nat.find harrives) with hle | hle
    · exact ⟨k, hle, rfl⟩
    · exact ⟨_, Nat.le_refl _,
        (Nat.find_spec harrives).trans (walked_of_le (Nat.find_spec harrives) hle).symm⟩
  · rintro ⟨k, -, rfl⟩
    exact isCanonical_walked k

end Lines
end BracketLint
