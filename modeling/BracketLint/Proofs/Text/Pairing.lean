import Mathlib.Data.List.Basic
import BracketLint.Text.Bytes

/-!
Brackets in pairs. A walk over brackets ends at the last one if the brackets that it passes leave one
of those open and never close all; read from either end, that says the same of a list. A text has two
kinds of angle brackets that need not belong to a list: signs of comparison and tips of arrows.
-/

namespace BracketLint

section Brackets

/-- Whether a walk over brackets, with `depth` of them open, ends at the last one. -/
def closesLast (opener : UInt8) (depth : Nat) : Bytes → Bool
  | [] => false
  | b :: rest =>
    if b == opener then closesLast opener (depth + 1) rest
    else if depth - 1 == 0 then rest.isEmpty
    else closesLast opener (depth - 1) rest

/-- Brackets in pairs: as many close as open, and nowhere have more closed than opened. -/
structure IsPaired (opener closer : UInt8) (brackets : Bytes) : Prop where
  count_eq : brackets.count opener = brackets.count closer
  count_le : ∀ n, (brackets.take n).count closer ≤ (brackets.take n).count opener

/-- A list in angle brackets: the first one opens it and the last one closes it. -/
def IsAngleList (brackets : Bytes) : Prop :=
  ∃ inner, brackets = Ascii.less :: (inner ++ [Ascii.greater]) ∧
    IsPaired Ascii.less Ascii.greater inner

variable {opener closer : UInt8} {brackets : Bytes}

theorem IsPaired.reverse (h : IsPaired opener closer brackets) :
    IsPaired closer opener brackets.reverse where
  count_eq := by
    rw [List.count_reverse, List.count_reverse]
    exact h.count_eq.symm
  count_le n := by
    -- What stands behind a place closes what stands in front of it.
    have hsplit (b : UInt8) : brackets.count b = (brackets.take (brackets.length - n)).count b +
        (brackets.drop (brackets.length - n)).count b := by
      rw [← List.count_append, List.take_append_drop]
    have hfront := h.count_le (brackets.length - n)
    have hall := h.count_eq
    rw [List.take_reverse, List.count_reverse, List.count_reverse]
    rw [hsplit opener, hsplit closer] at hall
    omega

/-- Whether some brackets, behind `depth` open ones, leave one of these open and never close all. -/
structure LeavesOne (opener closer : UInt8) (depth : Nat) (brackets : Bytes) : Prop where
  count_eq : brackets.count opener + depth = brackets.count closer + 1
  count_lt : ∀ n, (brackets.take n).count closer < (brackets.take n).count opener + depth

section LeavesOne

variable {depth : Nat} (hne : opener ≠ closer) (hdepth : 0 < depth)

theorem leavesOne_one_iff : LeavesOne opener closer 1 brackets ↔ IsPaired opener closer brackets :=
  ⟨fun h => ⟨Nat.succ.inj h.count_eq, fun n => Nat.le_of_lt_succ (h.count_lt n)⟩,
    fun h => ⟨congrArg Nat.succ h.count_eq, fun n => Nat.lt_succ_of_le (h.count_le n)⟩⟩

include hdepth in
theorem leavesOne_nil_iff : LeavesOne opener closer depth [] ↔ depth = 1 := by
  constructor
  · intro h
    have hcount := h.count_eq
    rw [List.count_nil, List.count_nil] at hcount
    omega
  · rintro rfl
    exact ⟨rfl, fun n => by rw [List.take_nil]; exact hdepth⟩

include hne hdepth in
theorem leavesOne_opener_cons_iff : LeavesOne opener closer depth (opener :: brackets) ↔
    LeavesOne opener closer (depth + 1) brackets := by
  constructor
  · rintro ⟨hcount, hlt⟩
    rw [List.count_cons_self, List.count_cons_of_ne hne] at hcount
    refine ⟨by omega, fun n => ?_⟩
    have hnext := hlt (n + 1)
    rw [List.take_succ_cons, List.count_cons_self, List.count_cons_of_ne hne] at hnext
    omega
  · rintro ⟨hcount, hlt⟩
    refine ⟨by rw [List.count_cons_self, List.count_cons_of_ne hne]; omega, fun n => ?_⟩
    cases n with
    | zero => exact Nat.lt_add_left _ hdepth
    | succ n =>
      have hprev := hlt n
      rw [List.take_succ_cons, List.count_cons_self, List.count_cons_of_ne hne]
      omega

include hne hdepth in
theorem leavesOne_closer_cons_iff : LeavesOne opener closer depth (closer :: brackets) ↔
    depth ≠ 1 ∧ LeavesOne opener closer (depth - 1) brackets := by
  constructor
  · rintro ⟨hcount, hlt⟩
    rw [List.count_cons_self, List.count_cons_of_ne hne.symm] at hcount
    have hnext (n : Nat) := hlt (n + 1)
    simp only [List.take_succ_cons, List.count_cons_self, List.count_cons_of_ne hne.symm] at hnext
    have hfirst := hnext 0
    rw [List.take_zero, List.count_nil, List.count_nil] at hfirst
    exact ⟨by omega, by omega, fun n => by have := hnext n; omega⟩
  · rintro ⟨hdepth', hcount, hlt⟩
    refine ⟨by rw [List.count_cons_self, List.count_cons_of_ne hne.symm]; omega, fun n => ?_⟩
    cases n with
    | zero => exact Nat.lt_add_left _ hdepth
    | succ n =>
      have hprev := hlt n
      rw [List.take_succ_cons, List.count_cons_self, List.count_cons_of_ne hne.symm]
      omega

end LeavesOne

theorem closesLast_iff (hne : opener ≠ closer) {depth : Nat} (hdepth : 0 < depth)
    (hmem : ∀ b ∈ brackets, b = opener ∨ b = closer) :
    closesLast opener depth brackets = true ↔
      ∃ inner, brackets = inner ++ [closer] ∧ LeavesOne opener closer depth inner := by
  induction brackets generalizing depth with
  | nil =>
    refine ⟨fun h => (Bool.false_ne_true h).elim, ?_⟩
    rintro ⟨inner, heq, -⟩
    exact absurd (List.append_eq_nil_iff.mp heq.symm).2 (List.cons_ne_nil _ _)
  | cons b rest ih =>
    rw [List.forall_mem_cons] at hmem
    -- The closing bracket at the end is the first one, or it comes behind the first one.
    have hlast : (∃ inner, b :: rest = inner ++ [closer] ∧ LeavesOne opener closer depth inner) ↔
        (b = closer ∧ rest = []) ∧ depth = 1 ∨ ∃ inner, rest = inner ++ [closer] ∧
          LeavesOne opener closer depth (b :: inner) := by
      rw [← leavesOne_nil_iff hdepth]
      constructor
      · rintro ⟨_ | ⟨b', inner⟩, heq, hleaves⟩
        · exact .inl ⟨List.cons.inj heq, hleaves⟩
        · obtain ⟨rfl, hbehind⟩ := List.cons.inj heq
          exact .inr ⟨inner, hbehind, hleaves⟩
      · rintro (⟨⟨rfl, rfl⟩, hleaves⟩ | ⟨inner, rfl, hleaves⟩)
        · exact ⟨[], rfl, hleaves⟩
        · exact ⟨b :: inner, rfl, hleaves⟩
    rw [hlast]
    obtain ⟨rfl | rfl, hrest⟩ := hmem
    -- An opening bracket moves the depth up, a closing one moves it down or ends the walk.
    · rw [closesLast, if_pos (beq_self_eq_true _), ih (Nat.succ_pos depth) hrest]
      simp only [hne, leavesOne_opener_cons_iff hne hdepth, false_and, false_or]
    · have hother : (b == opener) = false := beq_eq_false_iff_ne.mpr hne.symm
      rw [closesLast, if_neg (Bool.eq_false_iff.mp hother)]
      simp only [leavesOne_closer_cons_iff hne hdepth]
      split_ifs with hdepth'
      · obtain rfl : depth = 1 := by rw [beq_iff_eq] at hdepth'; omega
        simp
      · rw [beq_iff_eq] at hdepth'
        rw [ih (Nat.pos_of_ne_zero hdepth') hrest]
        have hmany : depth ≠ 1 := by omega
        simp [hmany]

theorem isAngleList_iff {inner : Bytes} {b : UInt8} :
    IsAngleList (Ascii.less :: (inner ++ [b])) ↔
      b = Ascii.greater ∧ IsPaired Ascii.less Ascii.greater inner := by
  constructor
  · rintro ⟨inner', heq, hpaired⟩
    obtain ⟨rfl, hlast⟩ := List.append_inj' (List.cons.inj heq).2 rfl
    exact ⟨(List.cons.inj hlast).1, hpaired⟩
  · rintro ⟨rfl, hpaired⟩
    exact ⟨inner, rfl, hpaired⟩

/-- With one bracket open, a walk ends at the last bracket if those in front of that one are paired. -/
theorem closesLast_one_iff (hne : opener ≠ closer) {inner : Bytes}
    (hmem : ∀ b ∈ inner, b = opener ∨ b = closer) :
    closesLast opener 1 (inner ++ [closer]) = true ↔ IsPaired opener closer inner := by
  have hall : ∀ b ∈ inner ++ [closer], b = opener ∨ b = closer := by
    rw [List.forall_mem_append]
    exact ⟨hmem, fun b hb => .inr (List.mem_singleton.mp hb)⟩
  rw [closesLast_iff hne Nat.one_pos hall]
  constructor
  · rintro ⟨inner', heq, hleaves⟩
    obtain ⟨rfl, -⟩ := List.append_inj' heq rfl
    exact leavesOne_one_iff.mp hleaves
  · exact fun h => ⟨inner, rfl, leavesOne_one_iff.mpr h⟩

/-- A walk back that starts with nothing open ends at the first bracket if that is the only one, or if
they make up a list. -/
theorem closesLast_reverse_iff {rest : Bytes}
    (hmem : ∀ b ∈ rest, b = Ascii.less ∨ b = Ascii.greater) :
    closesLast Ascii.greater 0 (Ascii.less :: rest).reverse = true ↔
      rest = [] ∨ IsAngleList (Ascii.less :: rest) := by
  rw [List.reverse_cons]
  rcases List.eq_nil_or_concat rest with rfl | ⟨inner, b, rfl⟩
  · exact ⟨fun _ => .inl rfl, fun _ => rfl⟩
  rw [List.concat_eq_append] at hmem ⊢
  rw [List.forall_mem_append, List.forall_mem_singleton] at hmem
  have hnil : inner ++ [b] ≠ [] := List.append_ne_nil_of_right_ne_nil _ (List.cons_ne_nil _ _)
  rw [List.reverse_append, List.reverse_singleton, List.singleton_append, List.cons_append,
    isAngleList_iff]
  simp only [hnil, false_or]
  rcases hmem.2 with rfl | rfl
  · -- A walk stops at an opening bracket that comes first.
    have hstop : (inner.reverse ++ [Ascii.less]).isEmpty = false := by
      rw [List.isEmpty_eq_false_iff]
      exact List.append_ne_nil_of_right_ne_nil _ (List.cons_ne_nil _ _)
    have hwalk : closesLast Ascii.greater 0 (Ascii.less :: (inner.reverse ++ [Ascii.less])) =
        (inner.reverse ++ [Ascii.less]).isEmpty := rfl
    rw [hwalk, hstop]
    exact ⟨fun h => absurd h Bool.false_ne_true, fun h => absurd h.1 (by decide)⟩
  · have hwalk : closesLast Ascii.greater 0 (Ascii.greater :: (inner.reverse ++ [Ascii.less])) =
        closesLast Ascii.greater 1 (inner.reverse ++ [Ascii.less]) := rfl
    have hback : ∀ b ∈ inner.reverse, b = Ascii.greater ∨ b = Ascii.less :=
      fun b hb => (hmem.1 b (List.mem_reverse.mp hb)).symm
    rw [hwalk, closesLast_one_iff (by decide) hback]
    exact ⟨fun h => ⟨rfl, inner.reverse_reverse ▸ h.reverse⟩, fun h => h.2.reverse⟩

end Brackets

namespace Bytes

/-- The angle brackets outside of parentheses, with `parens` of these open in front of the text. -/
def outerAngles (parens : Nat) : Bytes → Bytes
  | [] => []
  | b :: rest =>
    if (b == Ascii.less && parens == 0) || (b == Ascii.greater && parens == 0) then
      b :: outerAngles parens rest
    else if b == Ascii.openParen then outerAngles (parens + 1) rest
    else if b == Ascii.closeParen then outerAngles (parens - 1) rest
    else outerAngles parens rest

/-- The angle brackets that are no tips of arrows, with `before` the byte in front of the text. -/
def arrowless (before : UInt8) : Bytes → Bytes
  | [] => []
  | b :: rest =>
    if b == Ascii.less || (b == Ascii.greater && before != Ascii.hyphen) then b :: arrowless b rest
    else arrowless b rest

theorem mem_outerAngles {b : UInt8} {parens : Nat} {text : Bytes} (h : b ∈ outerAngles parens text) :
    b = Ascii.less ∨ b = Ascii.greater := by
  fun_induction outerAngles parens text with
  | case1 => cases h
  | case2 parens c rest hangle ih =>
    rcases List.mem_cons.mp h with rfl | h
    · simp only [Bool.or_eq_true, Bool.and_eq_true, beq_iff_eq] at hangle
      exact hangle.imp And.left And.left
    · exact ih h
  | case3 _ _ _ _ _ ih | case4 _ _ _ _ _ _ ih | case5 _ _ _ _ _ _ ih => exact ih h

theorem mem_arrowless {b before : UInt8} {text : Bytes} (h : b ∈ arrowless before text) :
    b = Ascii.less ∨ b = Ascii.greater := by
  fun_induction arrowless before text with
  | case1 => cases h
  | case2 before c rest hangle ih =>
    rcases List.mem_cons.mp h with rfl | h
    · rw [Bool.or_eq_true, Bool.and_eq_true, beq_iff_eq, beq_iff_eq] at hangle
      exact hangle.imp_right And.left
    · exact ih h
  | case3 _ _ _ _ ih => exact ih h

theorem arrowless_append_singleton (before b : UInt8) (text : Bytes) :
    arrowless before (text ++ [b]) = arrowless before text ++
      if b == Ascii.less || (b == Ascii.greater && text.getLast?.getD before != Ascii.hyphen) then [b]
      else [] := by
  induction text generalizing before with
  | nil => rfl
  | cons c rest ih =>
    have hlast : (c :: rest).getLast?.getD before = rest.getLast?.getD c := by
      rw [List.getLast?_cons, Option.getD_some]
    rw [List.cons_append, arrowless, arrowless, ih, hlast]
    split_ifs <;> rfl

/-- Whether a walk back passes a text in front of which it has met `parens` more closing parentheses
than opening ones: no parenthesis in it opens that closes nowhere, and no byte of it ends the walk. -/
structure Passable (parens : Nat) (text : Bytes) : Prop where
  count_le : ∀ back, back <:+ text →
    back.count Ascii.openParen ≤ parens + back.count Ascii.closeParen
  ne_end : ∀ b ∈ text,
    ¬(b == Ascii.semicolon || b == Ascii.openBrace || b == Ascii.closeBrace) = true

section Passable

variable {parens : Nat} {b : UInt8} {text : Bytes}

theorem Passable.nil : Passable 0 [] where
  count_le back hback := by
    rw [List.suffix_nil.mp hback]
    exact Nat.le_refl 0
  ne_end b hb := absurd hb List.not_mem_nil

theorem Passable.count_append (h : Passable parens (text ++ [b])) {back : Bytes}
    (hback : back <:+ text) : back.count Ascii.openParen + [b].count Ascii.openParen ≤
      parens + (back.count Ascii.closeParen + [b].count Ascii.closeParen) := by
  rw [← List.count_append, ← List.count_append]
  exact h.count_le _ (List.suffix_append_self_iff.mpr hback)

theorem Passable.of_openParen (h : Passable parens (text ++ [Ascii.openParen])) :
    0 < parens ∧ Passable (parens - 1) text := by
  have hopens : [Ascii.openParen].count Ascii.openParen = 1 := rfl
  have hcloses : [Ascii.openParen].count Ascii.closeParen = 0 := rfl
  have hfirst := h.count_append List.nil_suffix
  rw [List.count_nil, List.count_nil] at hfirst
  refine ⟨by omega, fun back hback => ?_, fun b hb => h.ne_end b (List.mem_append_left _ hb)⟩
  have := h.count_append hback
  omega

theorem Passable.of_closeParen (h : Passable parens (text ++ [Ascii.closeParen])) :
    Passable (parens + 1) text := by
  have hopens : [Ascii.closeParen].count Ascii.openParen = 0 := rfl
  have hcloses : [Ascii.closeParen].count Ascii.closeParen = 1 := rfl
  refine ⟨fun back hback => ?_, fun b hb => h.ne_end b (List.mem_append_left _ hb)⟩
  have := h.count_append hback
  omega

theorem Passable.of_append (h : Passable parens (text ++ [b])) (hclose : b ≠ Ascii.closeParen) :
    Passable parens text := by
  have hcloses : [b].count Ascii.closeParen = 0 := List.count_singleton.trans (by simp [hclose])
  refine ⟨fun back hback => ?_, fun b hb => h.ne_end b (List.mem_append_left _ hb)⟩
  have := h.count_append hback
  omega

/-- A text stays passable with a byte in front if a parenthesis that opens there closes in the text. -/
theorem Passable.cons {parens' : Nat} (h : Passable 0 text)
    (hcount : parens' + text.count Ascii.openParen ≤ text.count Ascii.closeParen)
    (hend : ¬(b == Ascii.semicolon || b == Ascii.openBrace || b == Ascii.closeBrace) = true)
    (hparens : parens + [b].count Ascii.openParen ≤ parens' + [b].count Ascii.closeParen) :
    Passable 0 (b :: text) ∧
      parens + (b :: text).count Ascii.openParen ≤ (b :: text).count Ascii.closeParen := by
  have hsplit (c : UInt8) : (b :: text).count c = [b].count c + text.count c := by
    rw [← List.count_append, List.singleton_append]
  have hall : parens + (b :: text).count Ascii.openParen ≤ (b :: text).count Ascii.closeParen := by
    rw [hsplit, hsplit]
    omega
  refine ⟨⟨fun back hback => ?_, List.forall_mem_cons.mpr ⟨hend, h.ne_end⟩⟩, hall⟩
  rcases List.suffix_cons_iff.mp hback with rfl | hback
  · omega
  · exact h.count_le back hback

end Passable

end Bytes

end BracketLint
