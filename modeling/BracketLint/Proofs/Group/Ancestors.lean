import BracketLint.Proofs.Group.Innermost

/-!
The groups around a group. They form a chain: of any two of them one lies around the other, and what
stands between a group and one around it lies inside the outer one. In a well nested tree the groups
around a group take up at least its lines.
-/

namespace BracketLint
open scoped Place

theorem Place.line_le_of_le {p q : Place} (h : p ≤ q) : p.line ≤ q.line := by
  cases p with
  | front => exact Nat.zero_le _
  | on line column =>
    cases q with
    | front => exact absurd h (on_not_le_front _ _)
    | on line' column' =>
      rw [on_le_on] at h
      change line ≤ line'
      omega

namespace GroupTree

variable {lines : Lines} {tree : GroupTree} {id outer outer' : Nat}

/-- What holds of a group with no other one around it, and of every group if it holds of the one right
around it, holds of all groups. -/
theorem outwards_induction (tree : GroupTree) {motive : Nat → Prop}
    (outermost : ∀ id, tree.ancestors id = [] → motive id)
    (inside : ∀ id parent, tree.ancestors id = parent :: tree.ancestors parent →
      motive parent → motive id) (id : Nat) : motive id := by
  induction id using ancestors.induct tree with
  | case1 id parent hparent hlt ih =>
    exact inside id parent (Forest.ancestors_of_parent? hparent hlt) ih
  | case2 id parent hparent hlt =>
    apply outermost
    rw [ancestors, hparent]
    exact if_neg hlt
  | case3 id hparent =>
    apply outermost
    rw [ancestors, hparent]

/-- From a group to one around it: what stands in front of the outer one lies inside it. -/
theorem exists_between (h : outer ∈ tree.ancestors id) :
    ∃ inner, tree.ancestors id = inner ++ outer :: tree.ancestors outer ∧
      ∀ between ∈ inner, outer ∈ tree.ancestors between := by
  fun_induction ancestors tree id with
  | case1 id parent hparent hlt ih =>
    rcases List.mem_cons.mp h with rfl | h
    · exact ⟨[], rfl, fun between hbetween => absurd hbetween List.not_mem_nil⟩
    · obtain ⟨inner, hinner, hbetween⟩ := ih h
      exact ⟨parent :: inner, by rw [hinner]; rfl, List.forall_mem_cons.mpr ⟨h, hbetween⟩⟩
  | case2 => cases h
  | case3 => cases h

theorem mem_ancestors_of_mem_cons {inner : Nat} (h : id ∈ inner :: tree.ancestors inner)
    (houter : outer ∈ tree.ancestors id) : outer ∈ tree.ancestors inner := by
  rcases List.mem_cons.mp h with rfl | h
  · exact houter
  · exact mem_ancestors_of_mem h houter

theorem not_mem_ancestors_of_mem (h : outer ∈ tree.ancestors id) : id ∉ tree.ancestors outer :=
  fun h' => Nat.lt_asymm (depth_lt_of_mem_ancestors h) (depth_lt_of_mem_ancestors h')

/-- Of two groups around a group one lies around the other, or they are the same. -/
theorem ancestors_total (h : outer ∈ id :: tree.ancestors id)
    (h' : outer' ∈ id :: tree.ancestors id) :
    outer = outer' ∨ outer ∈ tree.ancestors outer' ∨ outer' ∈ tree.ancestors outer := by
  rcases List.mem_cons.mp h with rfl | h
  · exact (List.mem_cons.mp h').imp Eq.symm .inr
  rcases List.mem_cons.mp h' with rfl | h'
  · exact .inr (.inl h)
  -- The other one stands between `id` and `outer`, is that group, or lies around it.
  obtain ⟨inner, hinner, hbetween⟩ := exists_between h
  rw [hinner, List.mem_append, List.mem_cons] at h'
  rcases h' with h' | rfl | h'
  · exact .inr (.inl (hbetween outer' h'))
  · exact .inl rfl
  · exact .inr (.inr h')

section WellNested

variable (hnested : tree.WellNested lines)
include hnested

theorem WellNested.opened_injective {group group' : Group} (hgroup : tree.group? id = some group)
    (hgroup' : tree.group? outer = some group') (heq : group.opened = group'.opened) :
    id = outer := by
  rcases Nat.lt_trichotomy id outer with hlt | heq' | hgt
  · exact absurd heq (hnested.ascending id outer group group' hlt hgroup hgroup').ne
  · exact heq'
  · exact absurd heq (hnested.ascending outer id group' group hgt hgroup' hgroup).ne'

theorem WellNested.opened_ne_front {group : Group} (hgroup : tree.group? id = some group) :
    group.opened ≠ .front := by
  rcases Nat.eq_zero_or_pos id with rfl | hpos
  · obtain ⟨file, hfile, -, hopened, -⟩ := hnested.root
    obtain rfl := Option.some.inj (hgroup.symm.trans hfile)
    rw [hopened]
    exact Place.noConfusion
  · intro hfront
    have hbyte := (hnested.brackets id group hpos hgroup).1
    rw [hfront, Lines.byteAt] at hbyte
    revert hbyte
    cases group.shape <;> decide

theorem WellNested.opened_le_closed {group : Group} (hgroup : tree.group? id = some group) :
    group.opened ≤ group.closed := by
  rcases Nat.eq_zero_or_pos id with rfl | hpos
  · obtain ⟨file, hfile, -, hopened, hclosed⟩ := hnested.root
    obtain rfl := Option.some.inj (hgroup.symm.trans hfile)
    rw [hopened, hclosed, Lines.stop, Place.on_le_on]
    omega
  · obtain ⟨parent, hlt, hparent⟩ := hnested.parent_lt id group hpos hgroup
    have hsize : parent < tree.size := Nat.lt_trans hlt (lt_size_of_group? hgroup)
    have haround : tree.group? parent = some tree.groups[parent] :=
      Array.getElem?_eq_getElem hsize
    exact (hnested.inside_parent id group parent _ hgroup hparent haround).2.1.le

/-- A group around another one is a group of the tree, and its brackets stand outside. -/
theorem WellNested.exists_around {group : Group} (hgroup : tree.group? id = some group)
    (houter : outer ∈ tree.ancestors id) :
    ∃ around, tree.group? outer = some around ∧ around.opened ≤ group.opened ∧
      group.closed ≤ around.closed := by
  have hle := hnested.opened_le_closed hgroup
  -- Both brackets are positions of the group, and so of all groups around it.
  have hfirst : tree.containsAt group.opened id = true :=
    containsAt_iff.mpr ⟨group, hgroup, le_refl _, hle⟩
  have hlast : tree.containsAt group.closed id = true :=
    containsAt_iff.mpr ⟨group, hgroup, hle, le_refl _⟩
  obtain ⟨around, haround, hopened, -⟩ :=
    containsAt_iff.mp (hnested.containsAt_of_mem_ancestors hfirst houter)
  obtain ⟨around', haround', -, hclosed⟩ :=
    containsAt_iff.mp (hnested.containsAt_of_mem_ancestors hlast houter)
  obtain rfl := Option.some.inj (haround.symm.trans haround')
  exact ⟨around, haround, hopened, hclosed⟩

/-- Of two groups that share a position, one lies around the other, or they are the same. -/
theorem WellNested.ancestors_total_of_containsAt
    (hordered : ∀ id, (tree.children id).Pairwise (· < ·)) {p : Place}
    (h : tree.containsAt p id = true) (h' : tree.containsAt p outer = true) :
    id = outer ∨ id ∈ tree.ancestors outer ∨ outer ∈ tree.ancestors id := by
  obtain ⟨hfirst, hlast⟩ := hnested.containsAt_zero_iff.mp (hnested.containsAt_zero h)
  have hiff (id : Nat) : tree.containsAt p id = true ↔
      id = tree.groupAt p ∨ id ∈ tree.ancestors (tree.groupAt p) :=
    hnested.containsAt_iff_groupAt hordered hfirst hlast
  apply ancestors_total
  · exact List.mem_cons.mpr ((hiff id).mp h)
  · exact List.mem_cons.mpr ((hiff outer).mp h')

/-- The innermost group at the opening bracket of a group is that group. -/
theorem WellNested.groupAt_opened (hordered : ∀ id, (tree.children id).Pairwise (· < ·))
    {group : Group} (hgroup : tree.group? id = some group) : tree.groupAt group.opened = id := by
  have hcontains : tree.containsAt group.opened id = true :=
    containsAt_iff.mpr ⟨group, hgroup, le_refl _, hnested.opened_le_closed hgroup⟩
  obtain ⟨hfirst, hlast⟩ := hnested.containsAt_zero_iff.mp (hnested.containsAt_zero hcontains)
  have hiff (other : Nat) : tree.containsAt group.opened other = true ↔
      other = tree.groupAt group.opened ∨ other ∈ tree.ancestors (tree.groupAt group.opened) :=
    hnested.containsAt_iff_groupAt hordered hfirst hlast
  rcases (hiff id).mp hcontains with heq | hinside
  · exact heq.symm
  -- A group inside opens behind the bracket and does not contain it.
  obtain ⟨inner, hinner, hle, -⟩ := containsAt_iff.mp ((hiff _).mpr (.inl rfl))
  obtain ⟨around, haround, hopened, -⟩ := hnested.exists_around hinner hinside
  obtain rfl := Option.some.inj (hgroup.symm.trans haround)
  exact (hnested.opened_injective hgroup hinner (le_antisymm hopened hle)).symm

end WellNested

end GroupTree
end BracketLint
