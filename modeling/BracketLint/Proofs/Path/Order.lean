import Mathlib.Data.String.Basic
import BracketLint.Path

/-!
The order of paths. Components are compared by their kind and then by their name, and paths by their
components, so only paths with the same components are equal in it.
-/

namespace BracketLint.Path

namespace Component

/-- The name of a component that has one. -/
def nameOrEmpty : Component → String
  | normal name => name
  | _ => ""

theorem compare_eq_compareLex :
    compare = compareLex (compareOn rank) (compareOn nameOrEmpty) := by
  funext a b
  cases a <;> cases b
  case normal.normal x y =>
    have hrank : compareOn rank (normal x) (normal y) = .eq := rfl
    rw [compareLex, hrank, Ordering.eq_then]
    exact (LinearOrder.compare_eq_compareOfLessAndEq x y).symm
  all_goals rfl

theorem ext_rank_nameOrEmpty {a b : Component} (hrank : a.rank = b.rank)
    (hname : a.nameOrEmpty = b.nameOrEmpty) : a = b := by
  cases a <;> cases b
  case normal.normal => exact congrArg normal hname
  all_goals first | rfl | cases hrank

instance : Std.TransCmp compare := by
  rw [compare_eq_compareLex]
  infer_instance

instance : Std.LawfulEqCmp compare where
  compare_self := by
    intro a
    exact Std.ReflCmp.compare_self
  eq_of_compare {a b} h := by
    rw [compare_eq_compareLex, compareLex, Ordering.then_eq_eq] at h
    exact ext_rank_nameOrEmpty (Std.LawfulEqOrd.eq_of_compare h.1)
      (Std.LawfulEqOrd.eq_of_compare h.2)

end Component

theorem compareComponents_eq_compareLex : compareComponents = List.compareLex Component.compare := by
  funext as bs
  induction as generalizing bs with
  | nil => cases bs <;> rfl
  | cons a as ih =>
    cases bs with
    | nil => rfl
    | cons b bs => rw [compareComponents, ih, List.compareLex_cons_cons]

instance : Std.TransCmp compare where
  eq_swap := by
    intro p q
    rw [compare, compare, compareComponents_eq_compareLex]
    exact Std.OrientedCmp.eq_swap
  isLE_trans := by
    intro p q r hpq hqr
    rw [compare, compareComponents_eq_compareLex] at *
    exact Std.TransCmp.isLE_trans hpq hqr

/-- Two paths are equal in the order if they have the same components. -/
theorem compare_eq_eq_iff {p q : Path} : p.compare q = .eq ↔ p.components = q.components := by
  rw [compare, compareComponents_eq_compareLex]
  exact Std.LawfulEqCmp.compare_eq_iff_eq

end BracketLint.Path
