import Mathlib.Data.List.Basic
import BracketLint.Proofs.Group.Nesting

/-!
Bracket words. The matching reports nothing on exactly the files whose brackets form a correctly
nested word that is not too deep, and then the groups are the pairs of brackets that match in that
word.
-/

namespace BracketLint
open scoped Place

/-- Correctly nested words of bracket bytes with at most `limit` brackets open at a time. -/
inductive Nested : (limit : Nat) → Bytes → Prop
  | nil {limit} : Nested limit []
  | group {limit inside behind} (shape : Shape) :
    Nested limit inside → Nested (limit + 1) behind →
    Nested (limit + 1) (shape.byte false :: (inside ++ shape.byte true :: behind))

/-- The brackets at two positions match: the word between them is correctly nested. -/
def Stretch.Matched (brackets : Stretch) (shape : Shape) (opened closed : Place) : Prop :=
  ∃ front inside behind limit,
    brackets =
      front ++ (opened, shape.byte false) :: (inside ++ (closed, shape.byte true) :: behind) ∧
    Nested limit (inside.map (·.2))

/-- The bracket bytes of a file, each with its position. -/
def Lines.bracketBytes (lines : Lines) : Stretch :=
  lines.buffer.filter fun entry => entry.2 ∈ Shape.bytes

/-- The position and the byte of a bracket. -/
def Bracket.entry (b : Bracket) : Place × UInt8 := (b.place, b.shape.byte b.closes)

theorem Shape.byte_inj {shape shape' : Shape} {closes closes' : Bool}
    (h : shape.byte closes = shape'.byte closes') : shape = shape' ∧ closes = closes' := by
  have hread := Bracket.ofByte?_eq_some.mpr h.symm
  rw [Bracket.ofByte?_eq_some.mpr rfl, Option.some.injEq, Prod.mk.injEq] at hread
  exact ⟨hread.1.symm, hread.2.symm⟩

theorem Bracket.eq_of_entry_eq {b : Bracket} {place : Place} {shape : Shape} {closes : Bool}
    (h : b.entry = (place, shape.byte closes)) : b = ⟨place, shape, closes⟩ := by
  obtain ⟨p, s, c⟩ := b
  rw [entry, Prod.mk.injEq] at h
  obtain ⟨rfl, hbyte⟩ := h
  obtain ⟨rfl, rfl⟩ := Shape.byte_inj hbyte
  rfl

theorem Lines.bracketBytes_eq (lines : Lines) :
    lines.bracketBytes = lines.brackets.map Bracket.entry := by
  rw [bracketBytes, ← filterMap_buffer]
  induction lines.buffer with
  | nil => rfl
  | cons entry rest ih =>
    rw [List.filter_cons, List.filterMap_cons, ih]
    cases hbracket : Bracket.ofPlaced? entry with
    | none =>
      rw [decide_eq_false (Bracket.ofPlaced?_eq_none.mp hbracket)]
      rfl
    | some b =>
      have hentry : entry = b.entry := Bracket.ofPlaced?_eq_some.mp hbracket
      have hmem : entry.2 ∈ Shape.bytes := Shape.mem_bytes.mpr ⟨b.shape, b.closes, by rw [hentry]; rfl⟩
      rw [decide_eq_true hmem, hentry]
      rfl

namespace Forest

/-- The word of some groups is correctly nested, and not deeper than the groups. -/
theorem nested_word (groups : Forest) :
    ∀ limit, groups.height ≤ limit → Nested limit ((groups.word.map Bracket.entry).map (·.2)) := by
  induction groups with
  | empty => intro _ _; exact .nil
  | group shape opened closed inside behind ih ih₁ =>
    intro limit h
    rw [height, Nat.max_le] at h
    cases limit with
    | zero => omega
    | succ limit =>
      have hgroup := Nested.group shape (ih limit (by omega)) (ih₁ (limit + 1) h.2)
      simpa [word, Bracket.entry] using hgroup

/-- Brackets that form a correctly nested word are those of some groups. -/
theorem exists_word_of_nested {limit : Nat} {bytes : Bytes} (h : Nested limit bytes) :
    ∀ brackets : List Bracket, (brackets.map Bracket.entry).map (·.2) = bytes →
      ∃ groups : Forest, groups.word = brackets ∧ groups.height ≤ limit := by
  induction h with
  | nil =>
    intro brackets hb
    rw [List.map_eq_nil_iff, List.map_eq_nil_iff] at hb
    exact ⟨.empty, hb.symm, Nat.zero_le _⟩
  | @group limit inside behind shape _ _ ih ih₁ =>
    intro brackets hb
    rw [List.map_map, List.map_eq_cons_iff] at hb
    obtain ⟨a, rest, rfl, ha, hrest⟩ := hb
    rw [List.map_eq_append_iff] at hrest
    obtain ⟨inner, rest, rfl, hinner, hrest⟩ := hrest
    rw [List.map_eq_cons_iff] at hrest
    obtain ⟨c, outer, rfl, hc, houter⟩ := hrest
    obtain ⟨groups, rfl, hheight⟩ := ih inner (by rw [List.map_map]; exact hinner)
    obtain ⟨groups₁, rfl, hheight₁⟩ := ih₁ outer (by rw [List.map_map]; exact houter)
    obtain ⟨opened, s, side⟩ := a
    obtain ⟨closed, s', side'⟩ := c
    obtain ⟨rfl, rfl⟩ := Shape.byte_inj ha
    obtain ⟨rfl, rfl⟩ := Shape.byte_inj hc
    exact ⟨.group _ opened closed groups groups₁, rfl, by rw [height]; omega⟩

/-- Two words of groups, each with a closing bracket behind it, agree if they start one list. -/
theorem word_append_closer_inj (groups : Forest) :
    ∀ {groups' : Forest} {b c : Bracket} {rest rest' : List Bracket}, b.closes = true →
      c.closes = true → groups.word ++ b :: rest = groups'.word ++ c :: rest' →
        groups = groups' ∧ b = c ∧ rest = rest' := by
  induction groups with
  | empty =>
    intro groups' b c rest rest' hb hc h
    cases groups' with
    | empty => exact ⟨rfl, List.cons.inj h⟩
    | group shape opened closed inside behind =>
      -- No group's word starts with a closing bracket.
      obtain ⟨rfl, -⟩ := List.cons.inj h
      cases hb
  | group shape opened closed inside behind ih ih₁ =>
    intro groups' b c rest rest' hb hc h
    cases groups' with
    | empty =>
      obtain ⟨rfl, -⟩ := List.cons.inj h
      cases hc
    | group shape' opened' closed' inside' behind' =>
      simp only [word, List.cons_append, List.append_assoc, List.cons.injEq, Bracket.mk.injEq] at h
      obtain ⟨⟨rfl, rfl, -⟩, htail⟩ := h
      obtain ⟨rfl, hclose, hrest⟩ := ih rfl rfl htail
      obtain ⟨rfl, hbc⟩ := ih₁ hb hc hrest
      cases hclose
      exact ⟨rfl, hbc⟩

/-- Some group of a forest has these brackets. -/
def Holds (shape : Shape) (opened closed : Place) : Forest → Prop
  | empty => False
  | group shape' opened' closed' inside behind =>
    (shape' = shape ∧ opened' = opened ∧ closed' = closed) ∨
      inside.Holds shape opened closed ∨ behind.Holds shape opened closed

/-- A group that a forest holds is the word of some groups between two brackets. -/
theorem Holds.exists_split {shape : Shape} {opened closed : Place} {groups : Forest}
    (h : groups.Holds shape opened closed) :
    ∃ front inside behind, groups.word =
      front ++ ⟨opened, shape, false⟩ :: (word inside ++ ⟨closed, shape, true⟩ :: behind) := by
  induction groups with
  | empty => exact h.elim
  | group shape' opened' closed' inside behind ih ih₁ =>
    rcases h with ⟨rfl, rfl, rfl⟩ | h | h
    · exact ⟨[], inside, behind.word, rfl⟩
    · obtain ⟨front, inner, rest, hsplit⟩ := ih h
      refine ⟨⟨opened', shape', false⟩ :: front, inner,
        rest ++ ⟨closed', shape', true⟩ :: behind.word, ?_⟩
      simp [word, hsplit]
    · obtain ⟨front, inner, rest, hsplit⟩ := ih₁ h
      refine ⟨⟨opened', shape', false⟩ :: (inside.word ++ ⟨closed', shape', true⟩ :: front), inner,
        rest, ?_⟩
      simp [word, hsplit]

/-- Behind an opening bracket of a forest's word come the groups inside and the bracket that closes
the group. -/
theorem exists_holds_of_split (groups : Forest) :
    ∀ {shape : Shape} {opened : Place} {front behind : List Bracket},
      groups.word = front ++ ⟨opened, shape, false⟩ :: behind →
        ∃ inside closed rest, behind = word inside ++ ⟨closed, shape, true⟩ :: rest ∧
          groups.Holds shape opened closed := by
  induction groups with
  | empty => intro shape opened front behind h; simp [word] at h
  | group shape' opened' closed' inside after ih ih₁ =>
    intro shape opened front behind h
    rw [word] at h
    cases front with
    | nil =>
      simp only [List.nil_append, List.cons.injEq, Bracket.mk.injEq] at h
      obtain ⟨⟨rfl, rfl, -⟩, rfl⟩ := h
      exact ⟨inside, closed', after.word, rfl, Or.inl ⟨rfl, rfl, rfl⟩⟩
    | cons b front =>
      obtain ⟨-, h⟩ := List.cons.inj h
      -- The bracket stands behind the group or inside it; its closing bracket opens nothing.
      rcases List.append_eq_append_iff.mp h with ⟨front', -, hrest⟩ | ⟨behind', hin, hrest⟩
      · cases front' with
        | nil => simp at hrest
        | cons b' front' =>
          obtain ⟨-, hafter⟩ := List.cons.inj hrest
          obtain ⟨inner, closed, rest, hb, hholds⟩ := ih₁ hafter
          exact ⟨inner, closed, rest, hb, Or.inr (Or.inr hholds)⟩
      · cases behind' with
        | nil => simp at hrest
        | cons b' behind' =>
          obtain ⟨rfl, rfl⟩ := List.cons.inj hrest
          obtain ⟨inner, closed, rest, rfl, hholds⟩ := ih hin
          exact ⟨inner, closed, rest ++ ⟨closed', shape', true⟩ :: after.word, by simp,
            Or.inr (Or.inl hholds)⟩

theorem exists_holds_of_closer (groups : Forest) {shape : Shape} {closed : Place}
    (h : ⟨closed, shape, true⟩ ∈ groups.word) : ∃ opened, groups.Holds shape opened closed := by
  induction groups with
  | empty => simp [word] at h
  | group shape' opened' closed' inside behind ih ih₁ =>
    simp only [word, List.mem_cons, List.mem_append, Bracket.mk.injEq, Bool.true_eq_false,
      and_false, false_or] at h
    rcases h with h | ⟨rfl, rfl, -⟩ | h
    · obtain ⟨opened, hholds⟩ := ih h
      exact ⟨opened, Or.inr (Or.inl hholds)⟩
    · exact ⟨opened', Or.inl ⟨rfl, rfl, rfl⟩⟩
    · obtain ⟨opened, hholds⟩ := ih₁ h
      exact ⟨opened, Or.inr (Or.inr hholds)⟩

/-- The groups of a forest are the groups listed with their numbers. -/
theorem holds_iff_mem_toGroups (lines : Lines) (groups : Forest) {shape : Shape}
    {opened closed : Place} :
    ∀ parent first, groups.Holds shape opened closed ↔
      ∃ group ∈ groups.toGroups lines parent first,
        group.shape = shape ∧ group.opened = opened ∧ group.closed = closed := by
  induction groups with
  | empty => intro parent first; simp [Holds, toGroups]
  | group shape' opened' closed' inside behind ih ih₁ =>
    intro parent first
    rw [Holds, ih first (first + 1), ih₁ parent (first + 1 + inside.size)]
    simp [toGroups, or_and_right, exists_or]

/-- Brackets match in the word of a forest exactly if they are those of one of its groups. -/
theorem matched_iff_holds (groups : Forest) {shape : Shape} {opened closed : Place} :
    Stretch.Matched (groups.word.map Bracket.entry) shape opened closed ↔
      groups.Holds shape opened closed := by
  constructor
  · rintro ⟨front, inside, behind, limit, hsplit, hnested⟩
    rw [List.map_eq_append_iff] at hsplit
    obtain ⟨front', rest, hword, -, hrest⟩ := hsplit
    rw [List.map_eq_cons_iff] at hrest
    obtain ⟨a, rest, rfl, ha, hrest⟩ := hrest
    rw [List.map_eq_append_iff] at hrest
    obtain ⟨inside', rest, rfl, rfl, hrest⟩ := hrest
    rw [List.map_eq_cons_iff] at hrest
    obtain ⟨c, behind', rfl, hc, -⟩ := hrest
    rw [Bracket.eq_of_entry_eq ha, Bracket.eq_of_entry_eq hc] at hword
    -- The brackets between the two are those of some groups, so the group ends at the second one.
    obtain ⟨between, rfl, -⟩ := exists_word_of_nested hnested inside' rfl
    obtain ⟨inner, closed', rest, heq, hholds⟩ := groups.exists_holds_of_split hword
    obtain ⟨-, hclose, -⟩ := between.word_append_closer_inj rfl rfl heq
    cases hclose
    exact hholds
  · intro h
    obtain ⟨front, inside, behind, hsplit⟩ := h.exists_split
    refine ⟨front.map Bracket.entry, inside.word.map Bracket.entry, behind.map Bracket.entry,
      inside.height, ?_, inside.nested_word _ (Nat.le_refl _)⟩
    simp [hsplit, Bracket.entry]

end Forest

/-- The groups of a tree, that of the file apart, are the pairs of brackets that match in a file,
and each bracket belongs to one of them. -/
structure GroupTree.PairsBrackets (lines : Lines) (tree : GroupTree) : Prop where
  /-- There is a group at two positions exactly if brackets of its shape match there. -/
  group_iff : ∀ (shape : Shape) (opened closed : Place),
    (∃ id group, 0 < id ∧ tree.group? id = some group ∧
      group.shape = shape ∧ group.opened = opened ∧ group.closed = closed) ↔
    lines.bracketBytes.Matched shape opened closed
  /-- Every opening bracket opens one group. -/
  opens : ∀ (shape : Shape) (opened : Place), (opened, shape.byte false) ∈ lines.bracketBytes →
    ∃! id, 0 < id ∧ ∃ group, tree.group? id = some group ∧ group.opened = opened
  /-- Every closing bracket closes one group. -/
  closes : ∀ (shape : Shape) (closed : Place), (closed, shape.byte true) ∈ lines.bracketBytes →
    ∃! id, 0 < id ∧ ∃ group, tree.group? id = some group ∧ group.closed = closed

namespace GroupTree

variable {lines : Lines} {forest : Forest} {earlyEnd : Bool}

theorem holds_iff_group? (lines : Lines) (earlyEnd : Bool) {shape : Shape} {opened closed : Place} :
    forest.Holds shape opened closed ↔
      ∃ id group, 0 < id ∧ (ofForest lines forest earlyEnd).group? id = some group ∧
        group.shape = shape ∧ group.opened = opened ∧ group.closed = closed := by
  rw [forest.holds_iff_mem_toGroups lines 0 1]
  constructor
  · rintro ⟨group, hmem, hgroup⟩
    obtain ⟨k, hk⟩ := List.mem_iff_getElem?.mp hmem
    exact ⟨k + 1, group, Nat.succ_pos k, by rw [group?_ofForest]; exact hk, hgroup⟩
  · rintro ⟨id, group, hpos, hg, hgroup⟩
    obtain ⟨k, rfl⟩ := Nat.exists_eq_succ_of_ne_zero (Nat.ne_of_gt hpos)
    rw [group?_ofForest, List.getElem?_cons_succ] at hg
    exact ⟨group, List.mem_of_getElem? hg, hgroup⟩

/-- A forest that takes up all brackets of a file pairs them. -/
theorem pairsBrackets_ofForest (h : forest.word = lines.brackets) :
    (ofForest lines forest earlyEnd).PairsBrackets lines := by
  have hsub : List.Sublist forest.word lines.brackets := h ▸ List.Sublist.refl _
  have hmem {place : Place} {shape : Shape} {side : Bool}
      (hb : (place, shape.byte side) ∈ lines.bracketBytes) :
      ⟨place, shape, side⟩ ∈ forest.word := by
    rw [lines.bracketBytes_eq, List.mem_map] at hb
    obtain ⟨b, hb, hentry⟩ := hb
    rwa [h, ← Bracket.eq_of_entry_eq hentry]
  refine ⟨?_, ?_, ?_⟩
  · intro shape opened closed
    rw [← holds_iff_group? lines earlyEnd, lines.bracketBytes_eq, ← h, forest.matched_iff_holds]
  · intro shape opened hb
    obtain ⟨front, behind, hsplit⟩ := List.append_of_mem (hmem hb)
    obtain ⟨-, closed, -, -, hholds⟩ := forest.exists_holds_of_split hsplit
    obtain ⟨id, group, hpos, hg, -, ho, -⟩ := (holds_iff_group? lines earlyEnd).mp hholds
    refine ⟨id, ⟨hpos, group, hg, ho⟩, ?_⟩
    rintro id' ⟨-, group', hg', ho'⟩
    rcases Nat.lt_trichotomy id' id with hlt | heq | hgt
    · exact absurd (ho'.trans ho.symm) (opened_lt_opened_of_lt hsub hlt hg' hg).ne
    · exact heq
    · exact absurd (ho'.trans ho.symm) (opened_lt_opened_of_lt hsub hgt hg hg').ne'
  · intro shape closed hb
    obtain ⟨opened, hholds⟩ := forest.exists_holds_of_closer (hmem hb)
    obtain ⟨id, group, hpos, hg, -, -, hc⟩ := (holds_iff_group? lines earlyEnd).mp hholds
    refine ⟨id, ⟨hpos, group, hg, hc⟩, ?_⟩
    rintro id' ⟨hpos', group', hg', hc'⟩
    rcases Nat.lt_trichotomy id' id with hlt | heq | hgt
    · exact absurd (hc'.trans hc.symm) (closed_ne_closed hsub hpos' hlt hg' hg)
    · exact heq
    · exact absurd (hc.trans hc'.symm) (closed_ne_closed hsub hpos hgt hg hg')

/-- The brackets of a file are matched without a report exactly if they form a correctly nested
word with at most 256 of them open at a time. Then the matching comes to the end of the file, and
the groups are the pairs of brackets that match. -/
theorem build_reports_nothing_iff (lines : Lines) :
    ((build lines).2 = [] ↔ Nested 256 (lines.bracketBytes.map (·.2))) ∧
      ((build lines).2 = [] →
        (build lines).1.earlyEnd = false ∧ (build lines).1.PairsBrackets lines) := by
  have hword (h : (build lines).2 = []) :=
    Forest.word_ofBrackets_of_diagnostics_eq_nil lines.brackets h
  refine ⟨⟨?_, ?_⟩, ?_⟩
  · intro h
    rw [lines.bracketBytes_eq, ← (hword h).1]
    exact Forest.nested_word _ _ (Forest.height_ofBrackets_le _)
  · intro h
    rw [lines.bracketBytes_eq] at h
    obtain ⟨groups, hgroups, hheight⟩ := Forest.exists_word_of_nested h lines.brackets rfl
    rw [build, ← hgroups, groups.ofBrackets_word hheight]
  · intro h
    exact ⟨(hword h).2, pairsBrackets_ofForest (hword h).1⟩

end GroupTree
end BracketLint
