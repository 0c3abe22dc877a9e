import Mathlib.Data.List.MinMax
import BracketLint.Proofs.Group.Dependency
import BracketLint.Proofs.Group.Nesting

/-!
The group at a position. The search for it walks from the group of the file inwards, each time into
the last child that opens at or before the position. In a well nested tree this child is the only one
that can contain the position, so the walk comes to every group that does, and it ends at the
innermost one.
-/

namespace BracketLint
open scoped Place

namespace GroupTree

variable {lines : Lines} {tree : GroupTree} {p : Place} {id outer : Nat}

/-- Whether a group contains a position. -/
def containsAt (tree : GroupTree) (p : Place) (id : Nat) : Bool :=
  (tree.group? id).any (·.contains p)

/-- The deepest of the groups that contain a position, found by looking at all groups. -/
def deepestAt? (tree : GroupTree) (p : Place) : Option Nat :=
  ((List.range tree.size).filter (tree.containsAt p)).argmax tree.depth

theorem containsAt_iff : tree.containsAt p id = true ↔
    ∃ group, tree.group? id = some group ∧ group.opened ≤ p ∧ p ≤ group.closed := by
  simp only [containsAt, Option.any_eq_true, Group.contains, Bool.and_eq_true, decide_eq_true_eq]

theorem lt_size_of_containsAt (hcontains : tree.containsAt p id = true) : id < tree.size := by
  obtain ⟨group, hgroup, -⟩ := containsAt_iff.mp hcontains
  exact lt_size_of_group? hgroup

section Ancestors

/-- The groups around a group go on with those around any of them. -/
theorem exists_ancestors_eq (h : outer ∈ tree.ancestors id) :
    ∃ inner, tree.ancestors id = inner ++ outer :: tree.ancestors outer := by
  fun_induction ancestors tree id with
  | case1 id parent hparent hlt ih =>
    rcases List.mem_cons.mp h with rfl | h
    · exact ⟨[], rfl⟩
    · obtain ⟨inner, hinner⟩ := ih h
      exact ⟨parent :: inner, by rw [hinner]; rfl⟩
  | case2 => cases h
  | case3 => cases h

theorem depth_lt_of_mem_ancestors (h : outer ∈ tree.ancestors id) :
    tree.depth outer < tree.depth id := by
  obtain ⟨inner, hinner⟩ := exists_ancestors_eq h
  rw [depth, depth, hinner, List.length_append, List.length_cons]
  omega

theorem mem_ancestors_of_mem {inner : Nat} (h : id ∈ tree.ancestors inner)
    (houter : outer ∈ tree.ancestors id) : outer ∈ tree.ancestors inner := by
  obtain ⟨front, hfront⟩ := exists_ancestors_eq h
  rw [hfront]
  exact List.mem_append_right _ (List.mem_cons_of_mem _ houter)

end Ancestors

section Search

/-- The search ends at the group where it starts or at one inside it. -/
theorem eq_or_mem_ancestors_findFrom (hparent : ∀ id parent, id ∈ tree.children parent →
    tree.parent? id = some parent) (id : Nat) :
    id = tree.findFrom p id ∨ id ∈ tree.ancestors (tree.findFrom p id) := by
  fun_induction findFrom tree p id with
  | case1 id child hfind hchild ih =>
    have hmem : child ∈ tree.children id := List.mem_reverse.mp (List.mem_of_find?_eq_some hfind)
    have hinside : id ∈ tree.ancestors child := by
      rw [Forest.ancestors_of_parent? (hparent child id hmem) hchild.1]
      exact List.mem_cons_self
    refine .inr ?_
    rcases ih with heq | hanc
    · rwa [← heq]
    · exact mem_ancestors_of_mem hanc hinside
  | case2 id => exact .inl rfl
  | case3 id => exact .inl rfl

/-- The search leaves the group where it starts only for a group that contains the position. -/
theorem findFrom_eq_or_containsAt (tree : GroupTree) (p : Place) (id : Nat) :
    tree.findFrom p id = id ∨ tree.containsAt p (tree.findFrom p id) = true := by
  fun_induction findFrom tree p id with
  | case1 id child hfind hchild ih =>
    refine .inr ?_
    rcases ih with heq | hcontains
    · rw [heq]
      exact hchild.2.2
    · exact hcontains
  | case2 id => exact .inl rfl
  | case3 id => exact .inl rfl

end Search

section WellNested

variable (hnested : tree.WellNested lines)
include hnested

/-- The groups of the tree other than that of the file are the children of a group in front of them. -/
theorem WellNested.exists_parent (hpos : 0 < id) (hid : id < tree.size) :
    ∃ parent < id, tree.parent? id = some parent ∧ id ∈ tree.children parent := by
  have hgroup : tree.group? id = some tree.groups[id] := Array.getElem?_eq_getElem hid
  obtain ⟨parent, hlt, hparent⟩ := hnested.parent_lt id _ hpos hgroup
  have hparent' : tree.parent? id = some parent := (parent?_eq hgroup).trans hparent
  exact ⟨parent, hlt, hparent', (hnested.mem_children id parent).mpr hparent'⟩

/-- A position in a group lies in the group around it too. -/
theorem WellNested.containsAt_parent {parent : Nat} (hparent : tree.parent? id = some parent)
    (hcontains : tree.containsAt p id = true) : tree.containsAt p parent = true := by
  obtain ⟨group, hgroup, hopened, hclosed⟩ := containsAt_iff.mp hcontains
  have hchild := (hnested.mem_children id parent).mpr hparent
  rw [parent?_eq hgroup] at hparent
  cases haround : tree.group? parent with
  | none =>
    rw [children, haround] at hchild
    cases hchild
  | some around =>
    obtain ⟨hopen, -, hclose⟩ := hnested.inside_parent id group parent around hgroup hparent haround
    exact containsAt_iff.mpr
      ⟨around, haround, hopen.le.trans hopened, hclosed.trans hclose.le⟩

theorem WellNested.containsAt_of_mem_ancestors (hcontains : tree.containsAt p id = true)
    (houter : outer ∈ tree.ancestors id) : tree.containsAt p outer = true := by
  fun_induction ancestors tree id with
  | case1 id parent hparent hlt ih =>
    have haround := hnested.containsAt_parent hparent hcontains
    rcases List.mem_cons.mp houter with rfl | houter
    · exact haround
    · exact ih haround houter
  | case2 => cases houter
  | case3 => cases houter

theorem WellNested.containsAt_zero_iff :
    tree.containsAt p 0 = true ↔ .on 0 0 ≤ p ∧ p ≤ lines.stop := by
  obtain ⟨file, hfile, -, hopened, hclosed⟩ := hnested.root
  rw [containsAt_iff, hfile, ← hopened, ← hclosed]
  constructor
  · rintro ⟨group, hgroup, hle⟩
    obtain rfl := Option.some.inj hgroup
    exact hle
  · exact fun hle => ⟨file, rfl, hle⟩

/-- All groups lie in the group of the file. -/
theorem WellNested.containsAt_zero (hcontains : tree.containsAt p id = true) :
    tree.containsAt p 0 = true := by
  induction id using Nat.strongRecOn with
  | ind id ih =>
    rcases Nat.eq_zero_or_pos id with rfl | hpos
    · exact hcontains
    · obtain ⟨parent, hlt, hparent, -⟩ :=
        hnested.exists_parent hpos (lt_size_of_containsAt hcontains)
      exact ih parent hlt (hnested.containsAt_parent hparent hcontains)

variable (hordered : ∀ id, (tree.children id).Pairwise (· < ·))
include hordered

/-- Of the children of a group only the last one that opens at or before a position can contain it, so
the search goes on in the child that does. -/
theorem WellNested.findFrom_of_child {child : Nat} (hchild : child ∈ tree.children id)
    (hlt : id < child) (hcontains : tree.containsAt p child = true) :
    tree.findFrom p id = tree.findFrom p child := by
  obtain ⟨group, hgroup, hopened, hclosed⟩ := containsAt_iff.mp hcontains
  have hfind : ((tree.children id).reverse.find? fun other =>
      (tree.group? other).any fun group => group.opened ≤ p) = some child := by
    obtain ⟨behind, before, hsplit⟩ := List.append_of_mem (List.mem_reverse.mpr hchild)
    refine List.find?_eq_some_iff_append.mpr ⟨?_, behind, before, hsplit, fun other hother => ?_⟩
    · rw [hgroup]
      exact decide_eq_true hopened
    -- A child behind this one opens behind the end of this one.
    have hother' : other ∈ tree.children id := by
      rw [← List.mem_reverse, hsplit]
      exact List.mem_append_left _ hother
    have hnumber : child < other := by
      have hpairwise := List.pairwise_reverse.mpr (hordered id)
      rw [hsplit] at hpairwise
      exact (List.pairwise_append.mp hpairwise).2.2 other hother child List.mem_cons_self
    have hparent (i : Nat) (hi : i ∈ tree.children id) := (hnested.mem_children i id).mp hi
    cases hsome : tree.group? other with
    | none => rfl
    | some group' =>
      have hsame : group.parent = group'.parent := by
        rw [← parent?_eq hgroup, ← parent?_eq hsome, hparent child hchild, hparent other hother']
      have hbehind : group.closed < group'.opened := hnested.disjoint child other group group' hgroup
        hsome hsame (hnested.ascending child other group group' hnumber hgroup hsome)
      have hnot : ¬group'.opened ≤ p := not_le.mpr (hclosed.trans_lt hbehind)
      simpa using hnot
  rw [findFrom, hfind]
  exact if_pos ⟨hlt, lt_size_of_containsAt hcontains, hcontains⟩

/-- The search for a position comes to every group that contains it. -/
theorem WellNested.groupAt_eq_findFrom (hcontains : tree.containsAt p id = true) :
    tree.groupAt p = tree.findFrom p id := by
  induction id using Nat.strongRecOn with
  | ind id ih =>
    rcases Nat.eq_zero_or_pos id with rfl | hpos
    · rfl
    · obtain ⟨parent, hlt, hparent, hchild⟩ :=
        hnested.exists_parent hpos (lt_size_of_containsAt hcontains)
      rw [ih parent hlt (hnested.containsAt_parent hparent hcontains),
        hnested.findFrom_of_child hordered hchild hlt hcontains]

/-- The groups that contain a position of the file are the one that the search finds and those around
it. -/
theorem WellNested.containsAt_iff_groupAt (hfirst : .on 0 0 ≤ p) (hlast : p ≤ lines.stop) :
    tree.containsAt p id = true ↔ id = tree.groupAt p ∨ id ∈ tree.ancestors (tree.groupAt p) := by
  have hfile : tree.containsAt p 0 = true := hnested.containsAt_zero_iff.mpr ⟨hfirst, hlast⟩
  have hfound : tree.containsAt p (tree.groupAt p) = true := by
    rcases findFrom_eq_or_containsAt tree p 0 with hroot | hcontains
    · rw [groupAt, hroot]
      exact hfile
    · exact hcontains
  constructor
  · intro hcontains
    rw [hnested.groupAt_eq_findFrom hordered hcontains]
    exact eq_or_mem_ancestors_findFrom
      (fun child parent => (hnested.mem_children child parent).mp) id
  · rintro (rfl | houter)
    · exact hfound
    · exact hnested.containsAt_of_mem_ancestors hfound houter

/-- Of the groups that contain a position of the file, all but the one that the search finds are less
deep. -/
theorem WellNested.deepestAt?_eq (hfirst : .on 0 0 ≤ p) (hlast : p ≤ lines.stop) :
    tree.deepestAt? p = some (tree.groupAt p) := by
  have hiff (id : Nat) : tree.containsAt p id = true ↔
      id = tree.groupAt p ∨ id ∈ tree.ancestors (tree.groupAt p) :=
    hnested.containsAt_iff_groupAt hordered hfirst hlast
  have hdepth : ∀ id ∈ (List.range tree.size).filter (tree.containsAt p),
      id = tree.groupAt p ∨ tree.depth id < tree.depth (tree.groupAt p) := by
    intro id hid
    exact ((hiff id).mp (List.mem_filter.mp hid).2).imp_right depth_lt_of_mem_ancestors
  refine List.argmax_eq_some_iff.mpr ⟨List.mem_filter.mpr ⟨?_, ?_⟩, fun id hid => ?_, ?_⟩
  · have hfound := (hiff _).mpr (.inl rfl)
    exact List.mem_range.mpr (lt_size_of_containsAt hfound)
  · exact (hiff _).mpr (.inl rfl)
  · rcases hdepth id hid with rfl | hlt
    · exact Nat.le_refl _
    · exact hlt.le
  · intro id hid hle
    obtain rfl := (hdepth id hid).resolve_right (Nat.not_lt.mpr hle)
    exact Nat.le_refl _

end WellNested

/-- The search finds the innermost group that contains a position of the file: the groups that contain
the position are that one and those around it, so it is the deepest of them. For the front and for
positions behind the file it finds the group of the file. -/
theorem groupAt_build (lines : Lines) (p : Place) :
    let tree := (build lines).1
    (.on 0 0 ≤ p → p ≤ lines.stop →
      (∀ id, tree.containsAt p id = true ↔
        id = tree.groupAt p ∨ id ∈ tree.ancestors (tree.groupAt p)) ∧
      tree.deepestAt? p = some (tree.groupAt p)) ∧
    (p = .front ∨ lines.stop < p → tree.groupAt p = 0) := by
  intro tree
  have hnested : tree.WellNested lines :=
    wellNested_ofForest (Forest.word_ofBrackets_sublist _) (Forest.height_ofBrackets_le _)
  have hordered (id : Nat) : (tree.children id).Pairwise (· < ·) :=
    ascending_children_ofForest lines _ _ id
  refine ⟨fun hfirst hlast => ⟨fun id => ?_, ?_⟩, fun hout => ?_⟩
  · exact hnested.containsAt_iff_groupAt hordered hfirst hlast
  · exact hnested.deepestAt?_eq hordered hfirst hlast
  · refine (findFrom_eq_or_containsAt tree p 0).resolve_right fun hcontains => ?_
    obtain ⟨hfirst, hlast⟩ := hnested.containsAt_zero_iff.mp (hnested.containsAt_zero hcontains)
    rcases hout with rfl | hbehind
    · exact Place.on_not_le_front 0 0 hfirst
    · exact absurd hlast (not_le.mpr hbehind)

end GroupTree
end BracketLint
