import BracketLint.Proofs.Group.Ancestors

/-!
The groups side by side with a group. They stand in the order of their numbers among the children of
their parent, so a group is right behind the one right before it, and of the groups side by side with
it those with smaller numbers close before it opens.
-/

namespace BracketLint
open scoped Place

theorem find?_reverse_append {α : Type} {p : α → Bool} {front behind : List α} {a : α}
    (hfront : ∀ b ∈ front, p b = true) (ha : p a = false) (hbehind : ∀ b ∈ behind, p b = false) :
    (front ++ a :: behind).reverse.find? p = front.getLast? := by
  have hskipped : (behind.reverse ++ [a]).find? p = none := by
    apply List.find?_eq_none.mpr
    intro b hb
    rw [List.mem_append, List.mem_reverse, List.mem_singleton] at hb
    rcases hb with hb | rfl
    · rw [hbehind b hb]
      exact Bool.false_ne_true
    · rw [ha]
      exact Bool.false_ne_true
  rw [List.reverse_append, List.reverse_cons, List.find?_append, hskipped, Option.none_or,
    List.getLast?_eq_head?_reverse]
  -- The first of the others is found at once.
  cases hrow : front.reverse with
  | nil => rfl
  | cons b row =>
    have hb : b ∈ front := by
      rw [← List.mem_reverse, hrow]
      exact List.mem_cons_self
    rw [List.find?_cons_of_pos (hfront b hb), List.head?_cons]

namespace GroupTree

variable {lines : Lines} {tree : GroupTree} {id before parent : Nat}

section Split

variable {front behind : List Nat} (hparent : tree.parent? id = some parent)
  (hsplit : tree.children parent = front ++ id :: behind) (hfront : id ∉ front)
include hparent hsplit hfront

theorem previousSibling?_of_split : tree.previousSibling? id = front.getLast? := by
  have hne : ∀ other ∈ front, (other != id) = true := by
    intro other hother
    exact bne_iff_ne.mpr fun heq => hfront (heq ▸ hother)
  rw [previousSibling?, hparent, Option.bind_some, hsplit, List.takeWhile_append_of_pos hne,
    List.takeWhile_cons_of_neg (by simp), List.append_nil]

theorem nextSibling?_of_split : tree.nextSibling? id = behind.head? := by
  have hne : ∀ other ∈ front, (other != id) = true := by
    intro other hother
    exact bne_iff_ne.mpr fun heq => hfront (heq ▸ hother)
  rw [nextSibling?, hparent, Option.bind_some, hsplit, List.dropWhile_append_of_pos hne,
    List.dropWhile_cons_of_neg (by simp), List.tail_cons]

end Split

section WellNested

variable (hnested : tree.WellNested lines)
include hnested

/-- Of two groups side by side the one with the smaller number closes before the other one opens. -/
theorem WellNested.closed_lt_opened {group group' : Group} (hlt : before < id)
    (hgroup : tree.group? before = some group) (hgroup' : tree.group? id = some group')
    (hparent : tree.parent? before = tree.parent? id) : group.closed < group'.opened := by
  rw [parent?_eq hgroup, parent?_eq hgroup'] at hparent
  apply hnested.disjoint before id group group' hgroup hgroup' hparent
  exact hnested.ascending before id group group' hlt hgroup hgroup'

variable (hordered : ∀ id, (tree.children id).Pairwise (· < ·))
include hordered

theorem WellNested.exists_split (hparent : tree.parent? id = some parent) :
    ∃ front behind, tree.children parent = front ++ id :: behind ∧
      (∀ other ∈ front, other < id) ∧ ∀ other ∈ behind, id < other := by
  have hmem : id ∈ tree.children parent := (hnested.mem_children id parent).mpr hparent
  obtain ⟨front, behind, hsplit⟩ := List.append_of_mem hmem
  have hpairwise := hordered parent
  rw [hsplit, List.pairwise_append, List.pairwise_cons] at hpairwise
  obtain ⟨-, ⟨hbehind, -⟩, hfront⟩ := hpairwise
  exact ⟨front, behind, hsplit, fun other hother => hfront other hother id List.mem_cons_self,
    hbehind⟩

/-- The group right before another one is side by side with it and closes before it opens. -/
theorem WellNested.exists_of_previousSibling? {group : Group} (hgroup : tree.group? id = some group)
    (hbefore : tree.previousSibling? id = some before) :
    ∃ group', tree.group? before = some group' ∧ before < id ∧
      tree.parent? before = tree.parent? id ∧ group'.closed < group.opened := by
  obtain ⟨parent, hparent, hlast⟩ := Option.bind_eq_some_iff.mp hbefore
  have hmem : before ∈ tree.children parent :=
    List.takeWhile_subset _ (List.mem_of_getLast? hlast)
  have hlt : before < id := by
    apply lt_of_mem_takeWhile (hordered parent) _ (List.mem_of_getLast? hlast)
    exact (hnested.mem_children id parent).mpr hparent
  have hsame : tree.parent? before = tree.parent? id := by
    rw [(hnested.mem_children before parent).mp hmem, hparent]
  have hbound : before < tree.size := hlt.trans (lt_size_of_group? hgroup)
  have hgroup' : tree.group? before = some tree.groups[before] := Array.getElem?_eq_getElem hbound
  exact ⟨_, hgroup', hlt, hsame, hnested.closed_lt_opened hlt hgroup' hgroup hsame⟩

/-- A group is right behind the one right before it. -/
theorem WellNested.nextSibling?_of_previousSibling?
    (hbefore : tree.previousSibling? id = some before) : tree.nextSibling? before = some id := by
  obtain ⟨parent, hparent, -⟩ := Option.bind_eq_some_iff.mp hbefore
  obtain ⟨front, behind, hsplit, hfront, -⟩ := hnested.exists_split hordered hparent
  rw [previousSibling?_of_split hparent hsplit fun hid => Nat.lt_irrefl id (hfront id hid)]
    at hbefore
  obtain ⟨front', rfl⟩ := List.getLast?_eq_some_iff.mp hbefore
  rw [List.append_assoc, List.singleton_append] at hsplit
  have hmem : before ∈ tree.children parent := by
    rw [hsplit]
    exact List.mem_append_right front' List.mem_cons_self
  have hnot : before ∉ front' := by
    have hpairwise := hordered parent
    rw [hsplit, List.pairwise_append] at hpairwise
    intro hdouble
    exact Nat.lt_irrefl before (hpairwise.2.2 before hdouble before List.mem_cons_self)
  rw [nextSibling?_of_split ((hnested.mem_children before parent).mp hmem) hsplit hnot]
  rfl

/-- The last group side by side with another one that closes before it opens is the one right before
it. -/
theorem WellNested.find?_closed_lt {group : Group} (hgroup : tree.group? id = some group)
    (hparent : tree.parent? id = some parent) :
    ((tree.children parent).reverse.find? fun sibling =>
      (tree.group? sibling).any fun other => other.closed < group.opened) =
        tree.previousSibling? id := by
  obtain ⟨front, behind, hsplit, hfront, hbehind⟩ := hnested.exists_split hordered hparent
  have hsame (other : Nat) (hother : other ∈ front ++ id :: behind) :
      tree.parent? other = tree.parent? id := by
    rw [← hsplit] at hother
    rw [(hnested.mem_children other parent).mp hother, hparent]
  rw [previousSibling?_of_split hparent hsplit fun hid => Nat.lt_irrefl id (hfront id hid), hsplit]
  apply find?_reverse_append
  · intro other hother
    have hlt := hfront other hother
    have hbound : other < tree.size := hlt.trans (lt_size_of_group? hgroup)
    have hgroup' : tree.group? other = some tree.groups[other] := Array.getElem?_eq_getElem hbound
    have hclosed := hnested.closed_lt_opened hlt hgroup' hgroup
      (hsame other (List.mem_append_left _ hother))
    rw [hgroup', Option.any_some]
    exact decide_eq_true hclosed
  · have hle := hnested.opened_le_closed hgroup
    rw [hgroup, Option.any_some]
    exact decide_eq_false hle.not_gt
  · intro other hother
    cases hgroup' : tree.group? other with
    | none => rfl
    | some group' =>
      have hopened : group.opened < group'.opened :=
        hnested.ascending id other group group' (hbehind other hother) hgroup hgroup'
      have hlt : group.opened < group'.closed :=
        hopened.trans_le (hnested.opened_le_closed hgroup')
      rw [Option.any_some]
      exact decide_eq_false hlt.not_gt

end WellNested

end GroupTree
end BracketLint
