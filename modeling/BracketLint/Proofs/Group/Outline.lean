import BracketLint.Proofs.Group.Ancestors

/-!
The outline of a tree: the depths of its groups in the order of their numbers. The group around another
one is the last one in front of it that lies less deep, so the outline determines the tree.
-/

namespace BracketLint.GroupTree
open scoped Place

variable {lines lines' : Lines} {tree tree' : GroupTree} {id parent between : Nat}

section WellNested

variable (hnested : tree.WellNested lines)
include hnested

theorem WellNested.parent?_zero : tree.parent? 0 = none := by
  obtain ⟨group, hgroup, hparent, -⟩ := hnested.root
  rw [parent?_eq hgroup, hparent]

theorem WellNested.exists_of_parent? (hparent : tree.parent? id = some parent) :
    parent < id ∧ tree.depth id = tree.depth parent + 1 ∧
      ∃ group around, tree.group? id = some group ∧ tree.group? parent = some around ∧
        around.opened < group.opened ∧ group.opened < around.closed := by
  obtain ⟨group, hgroup, hfield⟩ := Option.bind_eq_some_iff.mp hparent
  have hpos : 0 < id := by
    rcases Nat.eq_zero_or_pos id with rfl | hpos
    · rw [hnested.parent?_zero] at hparent
      cases hparent
    · exact hpos
  obtain ⟨other, hlt, hother⟩ := hnested.parent_lt id group hpos hgroup
  obtain rfl := Option.some.inj (hother.symm.trans hfield)
  have hbound : other < tree.size := hlt.trans (lt_size_of_group? hgroup)
  have haround : tree.group? other = some tree.groups[other] := Array.getElem?_eq_getElem hbound
  obtain ⟨hopened, hbetween, hclosed⟩ :=
    hnested.inside_parent id group other _ hgroup hfield haround
  refine ⟨hlt, ?_, group, _, hgroup, haround, hopened, hbetween.trans hclosed⟩
  rw [depth, Forest.ancestors_of_parent? hparent hlt]
  rfl

/-- What is numbered between a group and the one around it lies inside the latter. -/
theorem WellNested.mem_ancestors_of_between (hordered : ∀ id, (tree.children id).Pairwise (· < ·))
    (hparent : tree.parent? id = some parent) (hlt : parent < between) (hlt' : between < id) :
    parent ∈ tree.ancestors between := by
  obtain ⟨-, -, group, around, hgroup, haround, -, hinside⟩ := hnested.exists_of_parent? hparent
  have hbound : between < tree.size := hlt'.trans (lt_size_of_group? hgroup)
  have hmiddle : tree.group? between = some tree.groups[between] :=
    Array.getElem?_eq_getElem hbound
  -- The group between opens in front of the one inside, and so in front of the closing bracket.
  have hbehind := hnested.ascending _ _ _ _ hlt haround hmiddle
  have hfront := (hnested.ascending _ _ _ _ hlt' hmiddle hgroup).trans hinside
  have hshared : tree.containsAt tree.groups[between].opened parent = true :=
    containsAt_iff.mpr ⟨around, haround, hbehind.le, hfront.le⟩
  have hown : tree.containsAt tree.groups[between].opened between = true :=
    containsAt_iff.mpr ⟨_, hmiddle, le_refl _, hnested.opened_le_closed hmiddle⟩
  rcases hnested.ancestors_total_of_containsAt hordered hshared hown with heq | hmem | hmem
  · exact absurd heq hlt.ne
  · exact hmem
  · obtain ⟨outer, houter, hle, -⟩ := hnested.exists_around haround hmem
    obtain rfl := Option.some.inj (hmiddle.symm.trans houter)
    exact absurd hle hbehind.not_ge

end WellNested

section SameDepths

variable (hnested : tree.WellNested lines) (hnested' : tree'.WellNested lines')
  (hordered : ∀ id, (tree.children id).Pairwise (· < ·))
  (hdepth : ∀ id < tree.size, tree.depth id = tree'.depth id)
include hnested hnested' hordered hdepth

theorem WellNested.parent_le_of_depth_eq {parent' : Nat} (hparent : tree.parent? id = some parent)
    (hparent' : tree'.parent? id = some parent') : parent' ≤ parent := by
  by_contra hlt
  obtain ⟨-, -, group, -, hgroup, -⟩ := hnested.exists_of_parent? hparent
  obtain ⟨hlt', hdepth', -⟩ := hnested'.exists_of_parent? hparent'
  have hsize := lt_size_of_group? hgroup
  -- It would lie inside the other parent, and so as deep as the group at least.
  have hinside := hnested.mem_ancestors_of_between hordered hparent (Nat.lt_of_not_le hlt) hlt'
  have hdeeper := depth_lt_of_mem_ancestors hinside
  have hhere := (hnested.exists_of_parent? hparent).2.1
  have hsame := hdepth id hsize
  have hsame' := hdepth parent' (hlt'.trans hsize)
  omega

/-- Two trees with groups of the same depths have the same parents. -/
theorem WellNested.parent?_eq_of_depth_eq
    (hordered' : ∀ id, (tree'.children id).Pairwise (· < ·)) (hsize : tree.size = tree'.size)
    (hid : id < tree.size) : tree.parent? id = tree'.parent? id := by
  rcases Nat.eq_zero_or_pos id with rfl | hpos
  · rw [hnested.parent?_zero, hnested'.parent?_zero]
  obtain ⟨parent, -, hparent, -⟩ := hnested.exists_parent hpos hid
  obtain ⟨parent', -, hparent', -⟩ := hnested'.exists_parent hpos (hsize ▸ hid)
  have hdepth' : ∀ id < tree'.size, tree'.depth id = tree.depth id := fun id hid =>
    (hdepth id (hsize ▸ hid)).symm
  rw [hparent, hparent', Nat.le_antisymm
    (hnested'.parent_le_of_depth_eq hnested hordered' hdepth' hparent' hparent)
    (hnested.parent_le_of_depth_eq hnested' hordered hdepth hparent hparent')]

end SameDepths

end BracketLint.GroupTree
