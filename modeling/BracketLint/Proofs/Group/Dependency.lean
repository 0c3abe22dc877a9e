import Mathlib.Data.List.Basic
import BracketLint.Group.Verdict
import BracketLint.Proofs.Group.Nesting

/-!
What the decision on a group depends on. A decision asks only for groups in front of its own: for
the group around it and for the one right before it.
-/

namespace BracketLint

/-- However it is answered, an inquiry asks only for groups in front of a number. -/
def Inquiry.AsksBelow {α : Type} (bound : Nat) : Inquiry α → Prop
  | answer _ => True
  | ask id proceed => id < bound ∧ ∀ kind, (proceed kind).AsksBelow bound

namespace GroupTree

theorem lt_of_mem_takeWhile {row : List Nat} (hrow : row.Pairwise (· < ·)) {id sibling : Nat}
    (hid : id ∈ row) (h : sibling ∈ row.takeWhile (· != id)) : sibling < id := by
  induction row with
  | nil => cases hid
  | cons first row ih =>
    rw [List.pairwise_cons] at hrow
    rw [List.takeWhile_cons] at h
    split at h
    case isTrue hne =>
      have hmem : id ∈ row := by
        rcases List.mem_cons.mp hid with rfl | hmem
        · rw [bne_self_eq_false] at hne
          cases hne
        · exact hmem
      rcases List.mem_cons.mp h with rfl | h
      · exact hrow.1 id hmem
      · exact ih hrow.2 hmem h
    case isFalse => cases h

section

variable (lines : Lines) (forest : Forest) (earlyEnd : Bool)

theorem ascending_children_ofForest (id : Nat) :
    ((ofForest lines forest earlyEnd).children id).Pairwise (· < ·) := by
  rw [children_ofForest]
  exact List.Pairwise.filter _ List.pairwise_lt_range

/-- The group right before another one has a smaller number. -/
theorem lt_of_previousSibling? {id sibling : Nat}
    (h : (ofForest lines forest earlyEnd).previousSibling? id = some sibling) : sibling < id := by
  rw [previousSibling?, Option.bind_eq_some_iff] at h
  obtain ⟨parent, hpar, hlast⟩ := h
  exact lt_of_mem_takeWhile (ascending_children_ofForest lines forest earlyEnd parent)
    ((mem_children_ofForest lines forest earlyEnd id parent).mpr hpar) (List.mem_of_getLast? hlast)

end
end GroupTree

namespace Verdict

variable {lines : Lines} {tree : GroupTree} {id parent : Nat} {group : Group}

theorem asksBelow_ofParens (hlt : parent < id) :
    (ofParens lines tree id parent group).AsksBelow id := by
  rw [ofParens]
  split
  · split
    · exact ⟨hlt, fun _ => trivial⟩
    · trivial
  · split
    · trivial
    · exact ⟨hlt, fun _ => trivial⟩

theorem asksBelow_ofBraces (hlt : parent < id)
    (hsibling : ∀ sibling, tree.previousSibling? id = some sibling → sibling < id) :
    (ofBraces lines tree id parent group).AsksBelow id := by
  rw [ofBraces]
  refine ⟨hlt, fun around => ?_⟩
  cases hhead : ofBraceHead? lines tree parent group around with
  | some verdict =>
    simp only [hhead]
    trivial
  | none =>
    simp only [hhead]
    split
    · trivial
    · rename_i sibling hask
      refine ⟨hsibling sibling ?_, fun kind => ?_⟩
      · split at hask
        · exact (Option.filter_eq_some_iff.mp hask).1
        · cases hask
      · dsimp only
        cases bodyBehind? kind <;> trivial

/-- The decision on a group of a tree asks only for groups in front of it. -/
theorem asksBelow_inquiry (lines : Lines) (forest : Forest) (earlyEnd : Bool) (id : Nat) :
    (inquiry lines (.ofForest lines forest earlyEnd) id).AsksBelow id := by
  rw [inquiry]
  split
  · trivial
  · rename_i group hg
    split
    · trivial
    · rename_i parent hpar
      have hlt : parent < id := by
        rcases Nat.eq_zero_or_pos id with rfl | hpos
        · rw [GroupTree.eq_fileGroup_of_group?_zero hg] at hpar
          cases hpar
        · obtain ⟨p, hlt, hp⟩ := GroupTree.parent_lt_of_group? lines forest earlyEnd hpos hg
          rw [hpar, Option.some.injEq] at hp
          exact hp ▸ hlt
      split
      · exact asksBelow_ofParens hlt
      · exact asksBelow_ofBraces hlt fun _ => GroupTree.lt_of_previousSibling? lines forest earlyEnd

end Verdict
end BracketLint
