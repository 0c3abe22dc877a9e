import Mathlib.Order.Basic
import BracketLint.Place

/-!
Positions are linearly ordered: by line, on one line by column, and behind the front. The order is
an instance for those who open the namespace of positions.
-/

namespace BracketLint.Place

theorem le_iff (p q : Place) : p ≤ q ↔ Place.le p q = true := Iff.rfl

theorem lt_iff (p q : Place) : p < q ↔ Place.le q p = false := by
  change (!Place.le q p) = true ↔ _
  rw [Bool.not_eq_true']

theorem on_le_on {l c l' c' : Nat} : on l c ≤ on l' c' ↔ l < l' ∨ l = l' ∧ c ≤ c' := by
  simp [le_iff, Place.le]

theorem on_lt_on {l c l' c' : Nat} : on l c < on l' c' ↔ l < l' ∨ l = l' ∧ c < c' := by
  rw [lt_iff, ← Bool.not_eq_true, ← le_iff, on_le_on]
  omega

theorem front_le (p : Place) : front ≤ p := (le_iff _ _).mpr rfl

theorem on_not_le_front (l c : Nat) : ¬on l c ≤ front := by
  simp [le_iff, Place.le]

scoped instance : LinearOrder Place where
  le_refl p := by
    cases p with
    | front => exact front_le _
    | on l c => rw [on_le_on]; omega
  le_trans p q r hpq hqr := by
    cases p with
    | front => exact front_le _
    | on l c =>
      cases q with
      | front => exact absurd hpq (on_not_le_front _ _)
      | on l' c' =>
        cases r with
        | front => exact absurd hqr (on_not_le_front _ _)
        | on l'' c'' => rw [on_le_on] at *; omega
  le_antisymm p q hpq hqp := by
    cases p with
    | front =>
      cases q with
      | front => rfl
      | on l c => exact absurd hqp (on_not_le_front _ _)
    | on l c =>
      cases q with
      | front => exact absurd hpq (on_not_le_front _ _)
      | on l' c' =>
        rw [on_le_on] at *
        rw [on.injEq]
        omega
  le_total p q := by
    cases p with
    | front => exact Or.inl (front_le _)
    | on l c =>
      cases q with
      | front => exact Or.inr (front_le _)
      | on l' c' => rw [on_le_on, on_le_on]; omega
  lt_iff_le_not_ge p q := by
    rw [lt_iff, ← Bool.not_eq_true, ← le_iff]
    refine ⟨fun h => ⟨?_, h⟩, fun h => h.2⟩
    cases p with
    | front => exact front_le _
    | on l c =>
      cases q with
      | front => exact absurd (front_le _) h
      | on l' c' => rw [on_le_on] at *; omega
  toDecidableLE := inferInstance
  toDecidableEq := inferInstance
  toDecidableLT := inferInstance

theorem ne_front_of_lt {p q : Place} (h : p < q) : q ≠ front := by
  rintro rfl
  exact absurd h (not_lt.mpr (front_le p))

end BracketLint.Place
