import Mathlib.Algebra.GroupWithZero.Nat
import Mathlib.Data.List.Basic
import BracketLint.Report
import BracketLint.Proofs.Path.Order

/-!
Sorting reports. The sort is stable, so it keeps the violations at each place in the order in which
they were found. Two reports with the same violations at each place, in the same order, are therefore
sorted alike, whatever the order of the places.
-/

namespace BracketLint

namespace Report

section Tied

variable {α : Type} {le : α → α → Bool}

/-- Whether two entries are equal in an order. -/
def tied (le : α → α → Bool) (a b : α) : Bool := le a b && le b a

variable (total : ∀ a b, (le a b || le b a) = true)
include total

theorem tied_self (a : α) : tied le a a = true := by
  have h := total a a
  rw [Bool.or_self] at h
  rw [tied, h, Bool.and_self]

theorem mem_iff_of_filter_tied_eq {l l' : List α}
    (h : ∀ a, l.filter (tied le a) = l'.filter (tied le a)) (a : α) : a ∈ l ↔ a ∈ l' := by
  have hself := tied_self total a
  rw [← and_iff_left (a := a ∈ l) hself, ← and_iff_left (a := a ∈ l') hself,
    ← List.mem_filter, ← List.mem_filter, h a]

/-- A sorted list is determined by the entries at each rank, in their order. -/
theorem eq_of_filter_tied_eq {l l' : List α} (hl : l.Pairwise fun a b => le a b = true)
    (hl' : l'.Pairwise fun a b => le a b = true)
    (h : ∀ a, l.filter (tied le a) = l'.filter (tied le a)) : l = l' := by
  have hmem := mem_iff_of_filter_tied_eq total h
  induction l generalizing l' with
  | nil =>
    symm
    apply List.eq_nil_iff_forall_not_mem.mpr
    intro a ha
    exact List.not_mem_nil ((hmem a).mpr ha)
  | cons a rest ih =>
    cases l' with
    | nil => exact absurd ((hmem a).mp List.mem_cons_self) List.not_mem_nil
    | cons b rest' =>
      have hself (c : α) : le c c = true := (Bool.and_eq_true_iff.mp (tied_self total c)).1
      have hab : le a b = true := by
        rcases List.mem_cons.mp ((hmem b).mpr List.mem_cons_self) with rfl | hb
        · exact hself b
        · exact (List.pairwise_cons.mp hl).1 b hb
      have hba : le b a = true := by
        rcases List.mem_cons.mp ((hmem a).mp List.mem_cons_self) with rfl | ha
        · exact hself a
        · exact (List.pairwise_cons.mp hl').1 a ha
      -- The heads have the same rank, so both are the first entry there.
      have hhead : a = b := by
        have hfilter := h a
        rw [List.filter_cons_of_pos (tied_self total a),
          List.filter_cons_of_pos (by rw [tied, hab, hba, Bool.and_self])] at hfilter
        exact (List.cons.inj hfilter).1
      subst hhead
      have hrest : ∀ c, rest.filter (tied le c) = rest'.filter (tied le c) := by
        intro c
        have hfilter := h c
        rw [List.filter_cons, List.filter_cons] at hfilter
        split at hfilter
        · exact (List.cons.inj hfilter).2
        · exact hfilter
      rw [ih (List.pairwise_cons.mp hl).2 (List.pairwise_cons.mp hl').2 hrest
        (mem_iff_of_filter_tied_eq total hrest)]

variable (trans : ∀ a b c, le a b = true → le b c = true → le a c = true)
include trans

/-- Sorting keeps the entries at each rank as they were. -/
theorem filter_tied_mergeSort (l : List α) (a : α) :
    (l.mergeSort le).filter (tied le a) = l.filter (tied le a) := by
  have hsorted : (l.filter (tied le a)).Pairwise fun b c => le b c = true := by
    apply List.pairwise_of_forall_mem_list
    intro b hb c hc
    have hba : le b a = true := (Bool.and_eq_true_iff.mp (List.mem_filter.mp hb).2).2
    have hac : le a c = true := (Bool.and_eq_true_iff.mp (List.mem_filter.mp hc).2).1
    exact trans b a c hba hac
  have hsublist : (l.filter (tied le a)).Sublist ((l.mergeSort le).filter (tied le a)) := by
    have h := (List.sublist_mergeSort trans total hsorted List.filter_sublist).filter (tied le a)
    simpa only [List.filter_filter, Bool.and_self] using h
  have hlength := ((List.mergeSort_perm l le).filter (tied le a)).length_eq
  exact (hsublist.eq_of_length hlength.symm).symm

/-- Lists with the same entries at each rank, in the same order, are sorted alike. -/
theorem mergeSort_eq_of_filter_tied_eq {l l' : List α}
    (h : ∀ a, l.filter (tied le a) = l'.filter (tied le a)) :
    l.mergeSort le = l'.mergeSort le := by
  apply eq_of_filter_tied_eq total (List.pairwise_mergeSort trans total l)
    (List.pairwise_mergeSort trans total l')
  intro a
  rw [filter_tied_mergeSort total trans, filter_tied_mergeSort total trans, h a]

end Tied

/-- The order of locations: by file, line and column. -/
def compareLocations : Location → Location → Ordering :=
  compareLex (fun l m => l.file.compare m.file)
    (compareLex (compareOn Location.line) (compareOn Location.column))

theorem comesBefore_eq (v w : Violation) :
    comesBefore v w = (compareLocations v.location w.location).isLE := by
  have hne (o : Ordering) : (o != .gt) = o.isLE := by
    cases o <;> rfl
  rw [comesBefore, hne]
  rfl

instance : Std.TransCmp fun l m : Location => l.file.compare m.file where
  eq_swap := Std.OrientedCmp.eq_swap
  isLE_trans := Std.TransCmp.isLE_trans

instance : Std.TransCmp compareLocations := by
  unfold compareLocations
  infer_instance

theorem compareLocations_swap (l m : Location) :
    (compareLocations l m).swap = compareLocations m l :=
  Std.OrientedCmp.eq_swap.symm

theorem comesBefore_total (v w : Violation) : (comesBefore v w || comesBefore w v) = true := by
  rw [comesBefore_eq, comesBefore_eq, ← compareLocations_swap v.location]
  cases compareLocations v.location w.location <;> rfl

theorem comesBefore_trans (u v w : Violation) (huv : comesBefore u v = true)
    (hvw : comesBefore v w = true) : comesBefore u w = true := by
  rw [comesBefore_eq] at huv hvw ⊢
  exact Std.TransCmp.isLE_trans huv hvw

/-- Violations are tied only within one file. -/
theorem components_eq_of_tied {v w : Violation} (h : tied comesBefore v w = true) :
    v.location.file.components = w.location.file.components := by
  rw [tied, Bool.and_eq_true, comesBefore_eq, comesBefore_eq,
    ← compareLocations_swap v.location] at h
  have heq : compareLocations v.location w.location = .eq := by
    revert h
    cases compareLocations v.location w.location <;> simp
  rw [compareLocations, compareLex, Ordering.then_eq_eq] at heq
  exact Path.compare_eq_eq_iff.mp heq.1

/-- Reports with the same violations at each place, in the same order, are sorted alike. -/
theorem sort_eq_of_filter_tied_eq {report other : Report}
    (h : ∀ v, report.violations.filter (tied comesBefore v) =
      other.violations.filter (tied comesBefore v))
    (hchecked : report.filesChecked = other.filesChecked)
    (hskipped : report.filesSkipped = other.filesSkipped) : report.sort = other.sort := by
  rw [sort, sort, mergeSort_eq_of_filter_tied_eq comesBefore_total comesBefore_trans h,
    hchecked, hskipped]

/-- Sorting two reports before they are put together changes nothing once the whole is sorted. -/
theorem sort_append_sort (report other : Report) :
    (report.sort.append other.sort).sort = (report.append other).sort := by
  refine sort_eq_of_filter_tied_eq ?_ rfl rfl
  intro v
  have hsorted (r : Report) : r.sort.violations.filter (tied comesBefore v) =
      r.violations.filter (tied comesBefore v) :=
    filter_tied_mergeSort comesBefore_total comesBefore_trans r.violations v
  rw [append, append, List.filter_append, List.filter_append, hsorted, hsorted]

theorem foldl_append (reports : List Report) (report : Report) :
    reports.foldl append report =
      { violations := report.violations ++ reports.flatMap violations
        filesChecked := report.filesChecked + (reports.map filesChecked).sum
        filesSkipped := report.filesSkipped + (reports.map filesSkipped).sum } := by
  induction reports generalizing report with
  | nil => simp
  | cons first rest ih =>
    rw [List.foldl_cons, ih]
    simp only [append, List.flatMap_cons, List.map_cons, List.sum_cons, List.append_assoc,
      Nat.add_assoc]

end Report
end BracketLint
