import Mathlib.Data.List.Basic
import BracketLint.Group.Tree
import BracketLint.Proofs.Group.Search

/-!
The numbering of the groups. The groups of a forest take up a row of numbers, each group in front of
those inside it, so the children of a group are exactly the groups that name it as their parent, the
walk passes the numbers in order, and the groups around a group are as many as its depth in the
forest.
-/

namespace BracketLint

namespace Forest

/-- The groups of a forest stand in a tree from the number `first` on, with `parent` around them. -/
def Placed (tree : GroupTree) (parent first : Nat) : Forest → Prop
  | empty => True
  | group shape opened closed inside behind =>
    (∃ word start, tree.group? first = some
      { shape, opened, closed, word, statementStart := start, parent := some parent
        children := inside.roots (first + 1) }) ∧
    inside.Placed tree first (first + 1) ∧
    behind.Placed tree parent (first + 1 + inside.size)

theorem length_toGroups (lines : Lines) (forest : Forest) :
    ∀ parent first, (forest.toGroups lines parent first).length = forest.size := by
  induction forest with
  | empty => intro _ _; rfl
  | group shape opened closed inside behind ih ih₁ =>
    intro parent first
    rw [toGroups, List.length_cons, List.length_append, ih, ih₁, size]
    omega

theorem placed_of_getElem? (lines : Lines) {tree : GroupTree} (forest : Forest) :
    ∀ parent first, (∀ k group, (forest.toGroups lines parent first)[k]? = some group →
      tree.group? (first + k) = some group) → forest.Placed tree parent first := by
  induction forest with
  | empty => intro _ _ _; trivial
  | group shape opened closed inside behind ih ih₁ =>
    intro parent first h
    rw [toGroups] at h
    refine ⟨⟨_, _, h 0 _ rfl⟩, ih _ _ ?_, ih₁ _ _ ?_⟩
    · intro k g hg
      have hk : k < (inside.toGroups lines first (first + 1)).length :=
        (List.getElem?_eq_some_iff.mp hg).1
      rw [show first + 1 + k = first + (k + 1) by omega]
      apply h (k + 1) g
      rwa [List.getElem?_cons_succ, List.getElem?_append_left hk]
    · intro k g hg
      rw [show first + 1 + inside.size + k = first + (inside.size + k + 1) by omega]
      apply h (inside.size + k + 1) g
      rw [List.getElem?_cons_succ, List.getElem?_append_right (by rw [length_toGroups]; omega),
        length_toGroups, Nat.add_sub_cancel_left]
      exact hg

/-- The numbers of the groups of a forest, with `first` the number of the first one. -/
def row (first : Nat) (forest : Forest) : List Nat := List.range' first forest.size

theorem mem_row {forest : Forest} {first id : Nat} :
    id ∈ forest.row first ↔ first ≤ id ∧ id < first + forest.size :=
  List.mem_range'_1

theorem row_group (shape : Shape) (opened closed : Place) (inside behind : Forest) (first : Nat) :
    (group shape opened closed inside behind).row first =
      first :: (inside.row (first + 1) ++ behind.row (first + 1 + inside.size)) := by
  rw [row, row, row, size, Nat.add_assoc, Nat.add_comm 1, List.range'_succ, List.range'_append_1]

theorem mem_row_group {shape : Shape} {opened closed : Place} {inside behind : Forest}
    {first id : Nat} :
    id ∈ (group shape opened closed inside behind).row first ↔
      id = first ∨ id ∈ inside.row (first + 1) ∨ id ∈ behind.row (first + 1 + inside.size) := by
  rw [row_group, List.mem_cons, List.mem_append]

end Forest

namespace GroupTree

theorem parent?_eq {tree : GroupTree} {id : Nat} {group : Group} (h : tree.group? id = some group) :
    tree.parent? id = group.parent := by
  rw [parent?, h]; rfl

theorem children_eq {tree : GroupTree} {id : Nat} {group : Group}
    (h : tree.group? id = some group) : tree.children id = group.children := by
  rw [children, h]; rfl

/-- The numbers of a row that name a group as their parent. -/
def childrenAmong (tree : GroupTree) (parent : Nat) (row : List Nat) : List Nat :=
  row.filter fun id => tree.parent? id = some parent

theorem childrenAmong_append (tree : GroupTree) (parent : Nat) (row row₁ : List Nat) :
    tree.childrenAmong parent (row ++ row₁) =
      tree.childrenAmong parent row ++ tree.childrenAmong parent row₁ :=
  List.filter_append ..

theorem childrenAmong_cons_of_eq {tree : GroupTree} {parent id : Nat}
    (h : tree.parent? id = some parent) (row : List Nat) :
    tree.childrenAmong parent (id :: row) = id :: tree.childrenAmong parent row :=
  List.filter_cons_of_pos (decide_eq_true h)

theorem childrenAmong_cons_of_ne {tree : GroupTree} {parent id : Nat}
    (h : tree.parent? id ≠ some parent) (row : List Nat) :
    tree.childrenAmong parent (id :: row) = tree.childrenAmong parent row :=
  List.filter_cons_of_neg (by simpa using h)

end GroupTree

namespace Forest

variable {tree : GroupTree}

/-- The parent of a group among those placed is the group around all of them or one of them in front
of it. -/
theorem Placed.parent? {forest : Forest} : ∀ {parent first : Nat}, forest.Placed tree parent first →
    ∀ id ∈ forest.row first, ∃ p, tree.parent? id = some p ∧ (p = parent ∨ first ≤ p ∧ p < id) := by
  induction forest with
  | empty => intro _ _ _ id hid; exact absurd hid List.not_mem_nil
  | group shape opened closed inside behind ih ih₁ =>
    intro parent first h id hid
    obtain ⟨⟨word, start, hg⟩, hin, hbe⟩ := h
    rcases mem_row_group.mp hid with heq | hid | hid
    · exact ⟨parent, heq ▸ GroupTree.parent?_eq hg, Or.inl rfl⟩
    · obtain ⟨p, hp, hor⟩ := ih hin id hid
      have hrow := mem_row.mp hid
      exact ⟨p, hp, Or.inr (by omega)⟩
    · obtain ⟨p, hp, hor⟩ := ih₁ hbe id hid
      have hrow := mem_row.mp hid
      exact ⟨p, hp, by omega⟩

/-- A group that is neither around the groups placed nor one of them has no child among them. -/
theorem Placed.childrenAmong_eq_nil {forest : Forest} {parent first : Nat}
    (h : forest.Placed tree parent first) {id : Nat} (hp : id ≠ parent)
    (hr : id ∉ forest.row first) :
    tree.childrenAmong id (forest.row first) = [] := by
  rw [GroupTree.childrenAmong, List.filter_eq_nil_iff]
  intro child hc
  obtain ⟨p, hpar, hor⟩ := h.parent? child hc
  rw [mem_row] at hr hc
  rw [hpar, decide_eq_true_eq, Option.some.injEq]
  omega

/-- The groups side by side are those among the groups placed that name the group around them. -/
theorem Placed.roots_eq {forest : Forest} : ∀ {parent first : Nat},
    forest.Placed tree parent first → parent < first →
      forest.roots first = tree.childrenAmong parent (forest.row first) := by
  induction forest with
  | empty => intro _ _ _ _; rfl
  | group shape opened closed inside behind _ ih₁ =>
    intro parent first h hlt
    obtain ⟨⟨word, start, hg⟩, hin, hbe⟩ := h
    have hout : parent ∉ inside.row (first + 1) := by rw [mem_row]; omega
    rw [roots, row_group, GroupTree.childrenAmong_cons_of_eq (GroupTree.parent?_eq hg),
      GroupTree.childrenAmong_append, hin.childrenAmong_eq_nil (Nat.ne_of_lt hlt) hout,
      List.nil_append, ih₁ hbe (by omega)]

/-- The children of a group placed are those of the groups placed that name it as their parent. -/
theorem Placed.children_eq {forest : Forest} : ∀ {parent first : Nat},
    forest.Placed tree parent first → parent < first →
      ∀ id ∈ forest.row first, tree.children id = tree.childrenAmong id (forest.row first) := by
  induction forest with
  | empty => intro _ _ _ _ id hid; exact absurd hid List.not_mem_nil
  | group shape opened closed inside behind ih ih₁ =>
    intro parent first h hlt id hid
    obtain ⟨⟨word, start, hg⟩, hin, hbe⟩ := h
    have hrow := mem_row.mp hid
    have hne : tree.parent? first ≠ some id := by
      rw [GroupTree.parent?_eq hg, ne_eq, Option.some.injEq]
      omega
    rw [row_group, GroupTree.childrenAmong_cons_of_ne hne, GroupTree.childrenAmong_append]
    -- Only the part of the row that the group stands in, or that inside it, holds its children.
    rcases mem_row_group.mp hid with rfl | hid | hid
    · have hout : id ∉ behind.row (id + 1 + inside.size) := by rw [mem_row]; omega
      rw [GroupTree.children_eq hg, hbe.childrenAmong_eq_nil (Nat.ne_of_gt hlt) hout,
        List.append_nil]
      exact hin.roots_eq (Nat.lt_succ_self _)
    · have hrow := mem_row.mp hid
      have hout : id ∉ behind.row (first + 1 + inside.size) := by rw [mem_row]; omega
      rw [hbe.childrenAmong_eq_nil (by omega) hout, List.append_nil]
      exact ih hin (Nat.lt_succ_self _) id hid
    · have hrow := mem_row.mp hid
      have hout : id ∉ inside.row (first + 1) := by rw [mem_row]; omega
      rw [hin.childrenAmong_eq_nil (by omega) hout, List.nil_append]
      exact ih₁ hbe (by omega) id hid

theorem Placed.walk_eq {forest : Forest} : ∀ {parent first : Nat} (id : Nat),
    forest.Placed tree parent first → id < first → first + forest.size ≤ tree.size →
      ((forest.roots first).flatMap fun child =>
        if id < child ∧ child < tree.size then tree.walkFrom child else []) = forest.row first := by
  induction forest with
  | empty => intro _ _ _ _ _ _; rfl
  | group shape opened closed inside behind ih ih₁ =>
    intro parent first id h hid hsize
    obtain ⟨⟨word, start, hg⟩, hin, hbe⟩ := h
    rw [size] at hsize
    have hhead : tree.walkFrom first = first :: inside.row (first + 1) := by
      rw [GroupTree.walkFrom, GroupTree.children_eq hg,
        ih first hin (Nat.lt_succ_self _) (by omega)]
    rw [roots, List.flatMap_cons, if_pos ⟨hid, by omega⟩, hhead,
      ih₁ id hbe (by omega) (by omega), row_group]
    rfl

theorem ancestors_of_parent? {id parent : Nat} (h : tree.parent? id = some parent)
    (hlt : parent < id) : tree.ancestors id = parent :: tree.ancestors parent := by
  rw [GroupTree.ancestors, h]
  exact if_pos hlt

/-- No group placed has more groups around it than its depth in the forest allows. -/
theorem Placed.depth_le {forest : Forest} : ∀ {parent first : Nat},
    forest.Placed tree parent first → parent < first →
      ∀ id ∈ forest.row first, tree.depth id ≤ tree.depth parent + forest.height := by
  induction forest with
  | empty => intro _ _ _ _ id hid; exact absurd hid List.not_mem_nil
  | group shape opened closed inside behind ih ih₁ =>
    intro parent first h hlt id hid
    obtain ⟨⟨word, start, hg⟩, hin, hbe⟩ := h
    have hfirst : tree.depth first = tree.depth parent + 1 := by
      rw [GroupTree.depth, ancestors_of_parent? (GroupTree.parent?_eq hg) hlt]
      rfl
    rw [height]
    rcases mem_row_group.mp hid with rfl | hid | hid
    · omega
    · have hd := ih hin (Nat.lt_succ_self _) id hid
      omega
    · have hd := ih₁ hbe (by omega) id hid
      omega

end Forest

namespace GroupTree

variable (lines : Lines) (forest : Forest) (earlyEnd : Bool)

theorem size_ofForest : (ofForest lines forest earlyEnd).size = 1 + forest.size := by
  simp [size, ofForest, Forest.length_toGroups, Nat.add_comm]

theorem range_size_ofForest :
    List.range (ofForest lines forest earlyEnd).size = 0 :: forest.row 1 := by
  rw [size_ofForest, List.range_eq_range', Nat.add_comm 1, List.range'_succ, Forest.row]

theorem group?_ofForest (id : Nat) :
    (ofForest lines forest earlyEnd).group? id =
      (fileGroup lines (forest.roots 1) :: forest.toGroups lines 0 1)[id]? := by
  rw [group?, ofForest, List.getElem?_toArray]

/-- The groups of a tree's forest stand in it from number 1 on, below the group of the file. -/
theorem placed_ofForest : forest.Placed (ofForest lines forest earlyEnd) 0 1 := by
  apply forest.placed_of_getElem? lines
  intro k group hg
  rw [group?_ofForest, Nat.add_comm, List.getElem?_cons_succ]
  exact hg

theorem parent?_ofForest_zero : (ofForest lines forest earlyEnd).parent? 0 = none := by
  rw [parent?_eq (group?_ofForest lines forest earlyEnd 0)]
  rfl

/-- Every other group has a parent with a smaller number. -/
theorem parent?_ofForest {id : Nat} (h0 : 0 < id)
    (h : id < (ofForest lines forest earlyEnd).size) :
    ∃ p, (ofForest lines forest earlyEnd).parent? id = some p ∧ p < id := by
  rw [size_ofForest] at h
  obtain ⟨p, hp, hor⟩ :=
    (placed_ofForest lines forest earlyEnd).parent? id (Forest.mem_row.mpr ⟨h0, h⟩)
  exact ⟨p, hp, by omega⟩

/-- The children of a group are the groups that name it as their parent, in the order of their
numbers. -/
theorem children_ofForest (id : Nat) :
    (ofForest lines forest earlyEnd).children id =
      (ofForest lines forest earlyEnd).childrenAmong id
        (List.range (ofForest lines forest earlyEnd).size) := by
  have hplaced := placed_ofForest lines forest earlyEnd
  have hroot : (ofForest lines forest earlyEnd).parent? 0 ≠ some id := by
    rw [parent?_ofForest_zero]
    exact Option.some_ne_none id |>.symm
  rw [range_size_ofForest, childrenAmong_cons_of_ne hroot]
  rcases Nat.eq_zero_or_pos id with rfl | hpos
  · rw [children_eq (group?_ofForest lines forest earlyEnd 0)]
    exact hplaced.roots_eq Nat.zero_lt_one
  · by_cases hi : id ∈ forest.row 1
    · exact hplaced.children_eq Nat.zero_lt_one id hi
    · have hle : 1 + forest.size ≤ id := by
        rw [Forest.mem_row] at hi
        omega
      rw [hplaced.childrenAmong_eq_nil (Nat.ne_of_gt hpos) hi, children, group?_ofForest,
        List.getElem?_eq_none]
      · rfl
      · rw [List.length_cons, Forest.length_toGroups]
        omega

theorem walk_ofForest :
    (ofForest lines forest earlyEnd).walk =
      List.range (ofForest lines forest earlyEnd).size := by
  have hplaced := placed_ofForest lines forest earlyEnd
  rw [walk, walkFrom, children_eq (group?_ofForest lines forest earlyEnd 0)]
  change 0 :: (forest.roots 1).flatMap _ = _
  rw [hplaced.walk_eq 0 Nat.zero_lt_one (Nat.le_of_eq (size_ofForest ..).symm),
    range_size_ofForest]

theorem depth_ofForest_le {id : Nat} (h : id < (ofForest lines forest earlyEnd).size) :
    (ofForest lines forest earlyEnd).depth id ≤ forest.height := by
  have hroot : (ofForest lines forest earlyEnd).depth 0 = 0 := by
    rw [depth, ancestors, parent?_ofForest_zero]
    rfl
  rcases Nat.eq_zero_or_pos id with rfl | hpos
  · rw [hroot]
    exact Nat.zero_le _
  · rw [size_ofForest] at h
    have hd := (placed_ofForest lines forest earlyEnd).depth_le Nat.zero_lt_one id
      (Forest.mem_row.mpr ⟨hpos, h⟩)
    rwa [hroot, Nat.zero_add] at hd

end GroupTree
end BracketLint
