import Mathlib.Data.List.Nodup
import BracketLint.Proofs.Group.Arena
import BracketLint.Proofs.Lines.Buffer

/-!
The tree of the brackets of a file is well nested, however malformed the file is: the groups lie in
their parents and beside each other without overlap, they stand at brackets of their own shape, and
they are numbered in the order in which they open.
-/

namespace BracketLint
open scoped Place

namespace Forest

variable {tree : GroupTree}

/-- The brackets of some groups stand one behind the other. -/
def Ascending (forest : Forest) : Prop := forest.word.Pairwise fun a b => a.place < b.place

theorem Ascending.of_group {shape : Shape} {opened closed : Place} {inside behind : Forest}
    (h : (group shape opened closed inside behind).Ascending) :
    opened < closed ∧ (∀ b ∈ inside.word, opened < b.place ∧ b.place < closed) ∧
      (∀ b ∈ behind.word, closed < b.place) ∧ inside.Ascending ∧ behind.Ascending := by
  rw [Ascending, word, List.pairwise_cons, List.pairwise_append, List.pairwise_cons] at h
  obtain ⟨hopen, hin, ⟨hclose, hbe⟩, hcross⟩ := h
  refine ⟨?_, ?_, hclose, hin, hbe⟩
  · exact hopen ⟨closed, shape, true⟩ (by simp)
  · intro b hb
    exact ⟨hopen b (List.mem_append_left _ hb), hcross b hb _ List.mem_cons_self⟩

/-- A group placed stands at two brackets of the forest that have its shape. -/
theorem Placed.mem_word {forest : Forest} : ∀ {parent first : Nat},
    forest.Placed tree parent first → ∀ id ∈ forest.row first, ∀ group, tree.group? id = some group →
      ⟨group.opened, group.shape, false⟩ ∈ forest.word ∧
        ⟨group.closed, group.shape, true⟩ ∈ forest.word := by
  induction forest with
  | empty => intro _ _ _ id hid; exact absurd hid List.not_mem_nil
  | group shape opened closed inside behind ih ih₁ =>
    intro parent first h id hid g hg
    obtain ⟨⟨word, start, hfirst⟩, hin, hbe⟩ := h
    rw [Forest.word]
    rcases mem_row_group.mp hid with rfl | hid | hid
    · obtain rfl := Option.some.inj (hfirst.symm.trans hg)
      exact ⟨by simp, by simp⟩
    · obtain ⟨ho, hc⟩ := ih hin id hid g hg
      exact ⟨by simp [ho], by simp [hc]⟩
    · obtain ⟨ho, hc⟩ := ih₁ hbe id hid g hg
      exact ⟨by simp [ho], by simp [hc]⟩

theorem Placed.opened_lt_closed {forest : Forest} : ∀ {parent first : Nat},
    forest.Placed tree parent first → forest.Ascending →
      ∀ id ∈ forest.row first, ∀ group, tree.group? id = some group →
        group.opened < group.closed := by
  induction forest with
  | empty => intro _ _ _ _ id hid; exact absurd hid List.not_mem_nil
  | group shape opened closed inside behind ih ih₁ =>
    intro parent first h ha id hid g hg
    obtain ⟨⟨word, start, hfirst⟩, hin, hbe⟩ := h
    obtain ⟨hlt, -, -, hain, habe⟩ := ha.of_group
    rcases mem_row_group.mp hid with rfl | hid | hid
    · obtain rfl := Option.some.inj (hfirst.symm.trans hg)
      exact hlt
    · exact ih hin hain id hid g hg
    · exact ih₁ hbe habe id hid g hg

/-- Of two groups placed the one with the smaller number opens first, and the other one lies behind
it or inside it. -/
theorem Placed.laminar {forest : Forest} : ∀ {parent first : Nat},
    forest.Placed tree parent first → forest.Ascending →
      ∀ id ∈ forest.row first, ∀ id' ∈ forest.row first, ∀ group group', id < id' →
        tree.group? id = some group → tree.group? id' = some group' →
        group.opened < group'.opened ∧
          (group.closed < group'.opened ∨ group'.closed < group.closed) := by
  induction forest with
  | empty => intro _ _ _ _ id hid; exact absurd hid List.not_mem_nil
  | group shape opened closed inside behind ih ih₁ =>
    intro parent first h ha id hid id' hid' g g' hlt hg hg'
    obtain ⟨⟨word, start, hfirst⟩, hin, hbe⟩ := h
    obtain ⟨hopen, hwin, hwbe, hain, habe⟩ := ha.of_group
    have hrow := mem_row.mp hid
    rcases mem_row_group.mp hid' with rfl | hid' | hid'
    · omega
    · obtain ⟨ho, hc⟩ := hin.mem_word id' hid' g' hg'
      rcases mem_row_group.mp hid with rfl | hid | hid
      · obtain rfl := Option.some.inj (hfirst.symm.trans hg)
        exact ⟨(hwin _ ho).1, Or.inr (hwin _ hc).2⟩
      · exact ih hin hain id hid id' hid' g g' hlt hg hg'
      · rw [mem_row] at hid hid'
        omega
    · have hbehind : closed < g'.opened := hwbe _ (hbe.mem_word id' hid' g' hg').1
      rcases mem_row_group.mp hid with rfl | hid | hid
      · obtain rfl := Option.some.inj (hfirst.symm.trans hg)
        exact ⟨hopen.trans hbehind, Or.inl hbehind⟩
      · obtain ⟨ho, hc⟩ := hin.mem_word id hid g hg
        exact ⟨(hwin _ ho).2.trans hbehind, Or.inl ((hwin _ hc).2.trans hbehind)⟩
      · exact ih₁ hbe habe id hid id' hid' g g' hlt hg hg'

/-- A group placed lies inside its parent, if that is one of the groups placed. -/
theorem Placed.inside_parent {forest : Forest} : ∀ {parent first : Nat},
    forest.Placed tree parent first → parent < first → forest.Ascending →
      ∀ id ∈ forest.row first, ∀ around ∈ forest.row first, ∀ group group',
        tree.group? id = some group → tree.parent? id = some around →
        tree.group? around = some group' →
        group'.opened < group.opened ∧ group.closed < group'.closed := by
  induction forest with
  | empty => intro _ _ _ _ _ id hid; exact absurd hid List.not_mem_nil
  | group shape opened closed inside behind ih ih₁ =>
    intro parent first h hlt ha id hid around haround g g' hg hpar hg'
    obtain ⟨⟨word, start, hfirst⟩, hin, hbe⟩ := h
    obtain ⟨-, hwin, -, hain, habe⟩ := ha.of_group
    have hrow := mem_row.mp haround
    rcases mem_row_group.mp hid with rfl | hid | hid
    · rw [GroupTree.parent?_eq hfirst, Option.some.injEq] at hpar
      omega
    · rcases mem_row_group.mp haround with rfl | haround | haround
      · obtain ⟨ho, hc⟩ := hin.mem_word id hid g hg
        obtain rfl := Option.some.inj (hfirst.symm.trans hg')
        exact ⟨(hwin _ ho).1, (hwin _ hc).2⟩
      · exact ih hin (Nat.lt_succ_self _) hain id hid around haround g g' hg hpar hg'
      · obtain ⟨p, hp, hor⟩ := hin.parent? id hid
        rw [hpar, Option.some.injEq] at hp
        rw [mem_row] at hid haround
        omega
    · -- The parent lies in the part of the row behind, as the groups there have no other parent.
      obtain ⟨p, hp, hor⟩ := hbe.parent? id hid
      rw [hpar, Option.some.injEq] at hp
      have haround : around ∈ behind.row (first + 1 + inside.size) := by
        rw [mem_row] at hid ⊢
        omega
      exact ih₁ hbe (by omega) habe id hid around haround g g' hg hpar hg'

/-- Of two groups placed side by side the one with the smaller number closes before the other one
opens. -/
theorem Placed.closed_lt_opened {forest : Forest} : ∀ {parent first : Nat},
    forest.Placed tree parent first → parent < first → forest.Ascending →
      ∀ id ∈ forest.row first, ∀ id' ∈ forest.row first, ∀ group group', id < id' →
        tree.group? id = some group → tree.group? id' = some group' →
        tree.parent? id = tree.parent? id' → group.closed < group'.opened := by
  induction forest with
  | empty => intro _ _ _ _ _ id hid; exact absurd hid List.not_mem_nil
  | group shape opened closed inside behind ih ih₁ =>
    intro parent first h hlt ha id hid id' hid' g g' hlt' hg hg' hpar
    obtain ⟨⟨word, start, hfirst⟩, hin, hbe⟩ := h
    obtain ⟨-, -, hwbe, hain, habe⟩ := ha.of_group
    have hrow := mem_row.mp hid
    rcases mem_row_group.mp hid' with rfl | hid' | hid'
    · omega
    · -- What lies inside the first group is side by side only with what lies there too.
      obtain ⟨p, hp, hor⟩ := hin.parent? id' hid'
      rcases mem_row_group.mp hid with rfl | hid | hid
      · rw [GroupTree.parent?_eq hfirst, hp, Option.some.injEq] at hpar
        omega
      · exact ih hin (Nat.lt_succ_self _) hain id hid id' hid' g g' hlt' hg hg' hpar
      · rw [mem_row] at hid hid'
        omega
    · rcases mem_row_group.mp hid with rfl | hid | hid
      · obtain rfl := Option.some.inj (hfirst.symm.trans hg)
        exact hwbe _ (hbe.mem_word id' hid' g' hg').1
      · obtain ⟨p, hp, hor⟩ := hin.parent? id hid
        obtain ⟨p', hp', hor'⟩ := hbe.parent? id' hid'
        rw [hp, hp', Option.some.injEq] at hpar
        rw [mem_row] at hid
        omega
      · exact ih₁ hbe (by omega) habe id hid id' hid' g g' hlt' hg hg' hpar

end Forest

/-- The groups of a tree are numbered in the order in which they open, and lie in one another and
beside one another without overlap, at brackets of their own shape. -/
structure GroupTree.WellNested (lines : Lines) (tree : GroupTree) : Prop where
  /-- Group 0 is the whole file. -/
  root : ∃ group, tree.group? 0 = some group ∧ group.parent = none ∧
    group.opened = .on 0 0 ∧ group.closed = lines.stop
  /-- Every other group has a parent, and the parent has a smaller number. -/
  parent_lt : ∀ id group, 0 < id → tree.group? id = some group →
    ∃ parent < id, group.parent = some parent
  /-- A group is a child of its parent and of no other group, and the children of a group are groups
  of the tree. -/
  mem_children : ∀ id parent, id ∈ tree.children parent ↔ tree.parent? id = some parent
  /-- Among the children of its parent a group is the only one with its opening position. -/
  children_at : ∀ id group parent, tree.group? id = some group → group.parent = some parent →
    ((tree.children parent).filter fun child =>
      (tree.group? child).any (·.opened == group.opened)) = [id]
  /-- A group lies inside its parent. -/
  inside_parent : ∀ id group parent around, tree.group? id = some group →
    group.parent = some parent → tree.group? parent = some around →
    around.opened < group.opened ∧ group.opened < group.closed ∧ group.closed < around.closed
  /-- A group stands at two brackets of its shape. -/
  brackets : ∀ id group, 0 < id → tree.group? id = some group →
    lines.byteAt group.opened = group.shape.byte false ∧
      lines.byteAt group.closed = group.shape.byte true
  /-- Of two groups side by side the one that opens first closes before the other one opens. -/
  disjoint : ∀ id id' group group', tree.group? id = some group → tree.group? id' = some group' →
    group.parent = group'.parent → group.opened < group'.opened → group.closed < group'.opened
  /-- The groups open in the order of their numbers. -/
  ascending : ∀ id id' group group', id < id' → tree.group? id = some group →
    tree.group? id' = some group' → group.opened < group'.opened
  /-- The walk visits the groups in the order of their numbers. -/
  walk_eq : tree.walk = List.range tree.size
  /-- No group lies too deep. -/
  depth_le : ∀ id, tree.depth id ≤ 256

namespace GroupTree

/-- A row without repetitions holds one number at most that a test picks out. -/
theorem filter_eq_singleton {row : List Nat} (hn : row.Nodup) {id : Nat} (hid : id ∈ row)
    {P : Nat → Bool} (h : ∀ x ∈ row, P x = true ↔ x = id) : row.filter P = [id] := by
  have hfilter : row.filter P = row.filter (· == id) := by
    apply List.filter_congr
    intro x hx
    rw [Bool.eq_iff_iff, h x hx, beq_iff_eq]
  rw [hfilter, List.filter_beq, List.count_eq_one_of_mem hn hid]
  rfl

section

variable (lines : Lines) (forest : Forest) (earlyEnd : Bool)

theorem lt_size_of_group? {tree : GroupTree} {id : Nat} {group : Group}
    (h : tree.group? id = some group) : id < tree.size :=
  (Array.getElem?_eq_some_iff.mp h).1

/-- The groups of a tree other than the group of the file are those placed behind it. -/
theorem mem_row_of_group? {id : Nat} {group : Group} (hpos : 0 < id)
    (h : (ofForest lines forest earlyEnd).group? id = some group) : id ∈ forest.row 1 := by
  have hsize := lt_size_of_group? h
  rw [size_ofForest] at hsize
  exact Forest.mem_row.mpr ⟨hpos, hsize⟩

theorem parent_lt_of_group? {id : Nat} {group : Group} (hpos : 0 < id)
    (h : (ofForest lines forest earlyEnd).group? id = some group) :
    ∃ parent < id, group.parent = some parent := by
  obtain ⟨p, hp, hlt⟩ := parent?_ofForest lines forest earlyEnd hpos (lt_size_of_group? h)
  exact ⟨p, hlt, by rw [← parent?_eq h, hp]⟩

theorem mem_children_ofForest (id parent : Nat) :
    id ∈ (ofForest lines forest earlyEnd).children parent ↔
      (ofForest lines forest earlyEnd).parent? id = some parent := by
  rw [children_ofForest, childrenAmong, List.mem_filter, decide_eq_true_eq, List.mem_range]
  refine ⟨fun h => h.2, fun h => ⟨?_, h⟩⟩
  rw [parent?, Option.bind_eq_some_iff] at h
  obtain ⟨group, hg, -⟩ := h
  exact lt_size_of_group? hg

theorem nodup_children_ofForest (id : Nat) :
    ((ofForest lines forest earlyEnd).children id).Nodup := by
  rw [children_ofForest]
  exact List.Nodup.filter _ List.nodup_range

end

section

variable {lines : Lines} {forest : Forest} {earlyEnd : Bool}

theorem ascending_of_sublist (h : List.Sublist forest.word lines.brackets) : forest.Ascending :=
  lines.pairwise_brackets.sublist h

theorem mem_brackets_of_group? (h : List.Sublist forest.word lines.brackets) {id : Nat}
    {group : Group} (hpos : 0 < id) (hg : (ofForest lines forest earlyEnd).group? id = some group) :
    ⟨group.opened, group.shape, false⟩ ∈ lines.brackets ∧
      ⟨group.closed, group.shape, true⟩ ∈ lines.brackets := by
  obtain ⟨ho, hc⟩ := (placed_ofForest lines forest earlyEnd).mem_word id
    (mem_row_of_group? lines forest earlyEnd hpos hg) group hg
  exact ⟨h.subset ho, h.subset hc⟩

theorem eq_fileGroup_of_group?_zero {group : Group}
    (hg : (ofForest lines forest earlyEnd).group? 0 = some group) :
    group = fileGroup lines (forest.roots 1) := by
  rw [group?_ofForest, List.getElem?_cons_zero, Option.some.injEq] at hg
  exact hg.symm

theorem opened_lt_opened_of_lt (h : List.Sublist forest.word lines.brackets) {id id' : Nat}
    {group group' : Group} (hlt : id < id')
    (hg : (ofForest lines forest earlyEnd).group? id = some group)
    (hg' : (ofForest lines forest earlyEnd).group? id' = some group') :
    group.opened < group'.opened := by
  rcases Nat.eq_zero_or_pos id with rfl | hpos
  · rw [eq_fileGroup_of_group?_zero hg]
    exact (lines.mem_brackets (mem_brackets_of_group? h hlt hg').1).2.1
  · have hrow := mem_row_of_group? lines forest earlyEnd hpos hg
    have hrow' := mem_row_of_group? lines forest earlyEnd (Nat.lt_trans hpos hlt) hg'
    exact ((placed_ofForest lines forest earlyEnd).laminar (ascending_of_sublist h)
      id hrow id' hrow' group group' hlt hg hg').1

theorem closed_ne_closed (h : List.Sublist forest.word lines.brackets) {id id' : Nat}
    {group group' : Group} (hpos : 0 < id) (hlt : id < id')
    (hg : (ofForest lines forest earlyEnd).group? id = some group)
    (hg' : (ofForest lines forest earlyEnd).group? id' = some group') :
    group.closed ≠ group'.closed := by
  have hplaced := placed_ofForest lines forest earlyEnd
  have hasc := ascending_of_sublist h
  have hrow := mem_row_of_group? lines forest earlyEnd hpos hg
  have hrow' := mem_row_of_group? lines forest earlyEnd (Nat.lt_trans hpos hlt) hg'
  have hlam := (hplaced.laminar hasc id hrow id' hrow' group group' hlt hg hg').2
  have hopen := hplaced.opened_lt_closed hasc id' hrow' group' hg'
  rcases hlam with hbehind | hinside
  · exact (hbehind.trans hopen).ne
  · exact hinside.ne'

theorem inside_parent_of_group? (h : List.Sublist forest.word lines.brackets) {id parent : Nat}
    {group around : Group} (hg : (ofForest lines forest earlyEnd).group? id = some group)
    (hpar : group.parent = some parent)
    (haround : (ofForest lines forest earlyEnd).group? parent = some around) :
    around.opened < group.opened ∧ group.opened < group.closed ∧
      group.closed < around.closed := by
  have hplaced := placed_ofForest lines forest earlyEnd
  have hasc := ascending_of_sublist h
  rcases Nat.eq_zero_or_pos id with rfl | hpos
  · rw [eq_fileGroup_of_group?_zero hg] at hpar
    cases hpar
  · have hrow := mem_row_of_group? lines forest earlyEnd hpos hg
    have hlt := hplaced.opened_lt_closed hasc id hrow group hg
    rcases Nat.eq_zero_or_pos parent with rfl | hpos'
    · obtain ⟨ho, hc⟩ := mem_brackets_of_group? h hpos hg
      rw [eq_fileGroup_of_group?_zero haround]
      exact ⟨(lines.mem_brackets ho).2.1, hlt, (lines.mem_brackets hc).2.2⟩
    · have hrow' := mem_row_of_group? lines forest earlyEnd hpos' haround
      obtain ⟨h1, h2⟩ := hplaced.inside_parent Nat.zero_lt_one hasc id hrow parent hrow' group
        around hg ((parent?_eq hg).trans hpar) haround
      exact ⟨h1, hlt, h2⟩

theorem closed_lt_opened_of_siblings (h : List.Sublist forest.word lines.brackets) {id id' : Nat}
    {group group' : Group} (hg : (ofForest lines forest earlyEnd).group? id = some group)
    (hg' : (ofForest lines forest earlyEnd).group? id' = some group')
    (hpar : group.parent = group'.parent) (hopen : group.opened < group'.opened) :
    group.closed < group'.opened := by
  have hlt : id < id' := by
    by_contra hn
    rcases Nat.eq_or_lt_of_le (Nat.le_of_not_lt hn) with rfl | hgt
    · rw [hg, Option.some.injEq] at hg'
      subst hg'
      exact lt_irrefl _ hopen
    · exact lt_asymm hopen (opened_lt_opened_of_lt h hgt hg' hg)
  rcases Nat.eq_zero_or_pos id with rfl | hpos
  · obtain ⟨p, -, hp⟩ := parent_lt_of_group? lines forest earlyEnd hlt hg'
    rw [eq_fileGroup_of_group?_zero hg, hp] at hpar
    cases hpar
  · have hrow := mem_row_of_group? lines forest earlyEnd hpos hg
    have hrow' := mem_row_of_group? lines forest earlyEnd (Nat.lt_trans hpos hlt) hg'
    exact (placed_ofForest lines forest earlyEnd).closed_lt_opened Nat.zero_lt_one
      (ascending_of_sublist h) id hrow id' hrow' group group' hlt hg hg'
      (by rw [parent?_eq hg, parent?_eq hg', hpar])

theorem filter_children_opened (h : List.Sublist forest.word lines.brackets) {id parent : Nat}
    {group : Group} (hg : (ofForest lines forest earlyEnd).group? id = some group)
    (hpar : group.parent = some parent) :
    (((ofForest lines forest earlyEnd).children parent).filter fun child =>
      ((ofForest lines forest earlyEnd).group? child).any (·.opened == group.opened)) = [id] := by
  apply filter_eq_singleton (nodup_children_ofForest lines forest earlyEnd parent)
  · rw [mem_children_ofForest, parent?_eq hg, hpar]
  · intro child _
    rw [Option.any_eq_true]
    constructor
    · rintro ⟨g, hchild, heq⟩
      rw [beq_iff_eq] at heq
      rcases Nat.lt_trichotomy child id with hlt | rfl | hgt
      · exact absurd heq (opened_lt_opened_of_lt h hlt hchild hg).ne
      · rfl
      · exact absurd heq (opened_lt_opened_of_lt h hgt hg hchild).ne'
    · rintro rfl
      exact ⟨group, hg, beq_self_eq_true _⟩

theorem depth_ofForest_le_of_height {limit : Nat} (hheight : forest.height ≤ limit) (id : Nat) :
    (ofForest lines forest earlyEnd).depth id ≤ limit := by
  by_cases hid : id < (ofForest lines forest earlyEnd).size
  · exact Nat.le_trans (depth_ofForest_le lines forest earlyEnd hid) hheight
  · have hnone : (ofForest lines forest earlyEnd).parent? id = none := by
      rw [parent?, group?, Array.getElem?_eq_none (Nat.le_of_not_lt hid)]
      rfl
    rw [depth, ancestors, hnone]
    exact Nat.zero_le _

/-- The tree of a forest is well nested if the brackets of the forest stand in the file in their order
and the forest is not too high. -/
theorem wellNested_ofForest (h : List.Sublist forest.word lines.brackets)
    (hheight : forest.height ≤ Forest.nestingLimit) :
    (ofForest lines forest earlyEnd).WellNested lines where
  root := ⟨_, group?_ofForest .., rfl, rfl, rfl⟩
  parent_lt _ _ hpos hg := parent_lt_of_group? _ _ _ hpos hg
  mem_children := mem_children_ofForest _ _ _
  children_at _ _ _ hg hpar := filter_children_opened h hg hpar
  inside_parent _ _ _ _ hg hpar haround := inside_parent_of_group? h hg hpar haround
  brackets id group hpos hg := by
    obtain ⟨ho, hc⟩ := mem_brackets_of_group? h hpos hg
    exact ⟨(lines.mem_brackets ho).1, (lines.mem_brackets hc).1⟩
  disjoint _ _ _ _ hg hg' hpar hopen := closed_lt_opened_of_siblings h hg hg' hpar hopen
  ascending _ _ _ _ hlt hg hg' := opened_lt_opened_of_lt h hlt hg hg'
  walk_eq := walk_ofForest _ _ _
  depth_le id := depth_ofForest_le_of_height hheight id

end

/-- The tree of any file is well nested. -/
theorem wellNested_build (lines : Lines) : (build lines).1.WellNested lines :=
  wellNested_ofForest (Forest.word_ofBrackets_sublist _) (Forest.height_ofBrackets_le _)

end GroupTree
end BracketLint
