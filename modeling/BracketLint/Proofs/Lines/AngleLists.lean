import BracketLint.Proofs.Lines.Blanks
import BracketLint.Proofs.Text.Pairing

/-!
Lists in angle brackets. From a bracket that opens, a walk forward pairs the brackets outside of
parentheses; from a bracket that closes, a walk back pairs those that are no tips of arrows. The walks
end at each other's starts exactly if the brackets that the second one counts make up a list too. A
comparison in parentheses tells them apart: forward it is passed over, and back its sign counts.
-/

namespace BracketLint
open scoped Place

namespace Lines

/-- Walks forward to the angle bracket that closes those open, outside of parentheses. -/
def listEnd? (lines : Lines) (angles parens : Nat) (p : Place) : Option Place :=
  if h : lines.isAtStop p = false then
    let b := lines.byteAt p
    if b == Ascii.less && parens == 0 then listEnd? lines (angles + 1) parens (lines.next p)
    else if b == Ascii.greater && parens == 0 then
      if angles - 1 == 0 then some p else listEnd? lines (angles - 1) parens (lines.next p)
    else if b == Ascii.openParen then listEnd? lines angles (parens + 1) (lines.next p)
    else if b == Ascii.closeParen then listEnd? lines angles (parens - 1) (lines.next p)
    else if b == Ascii.semicolon || b == Ascii.openBrace || b == Ascii.closeBrace then none
    else listEnd? lines angles parens (lines.next p)
  else none
termination_by lines.stepsAhead p
decreasing_by all_goals exact lines.next_decreases h

/-- Walks back to the angle bracket that opens those open. -/
def listStart? (lines : Lines) (angles parens : Nat) (p : Place) : Option Place :=
  if h : p.isFront = false then
    let b := lines.byteAt p
    if b == Ascii.greater then
      if ha : lines.byteAt (lines.prev p) = Ascii.hyphen then
        listStart? lines angles parens (lines.prev (lines.prev p))
      else listStart? lines (angles + 1) parens (lines.prev p)
    else if b == Ascii.less then
      if angles - 1 == 0 then some p else listStart? lines (angles - 1) parens (lines.prev p)
    else if b == Ascii.closeParen then listStart? lines angles (parens + 1) (lines.prev p)
    else if b == Ascii.openParen then
      if parens == 0 then none else listStart? lines angles (parens - 1) (lines.prev p)
    else if b == Ascii.semicolon || b == Ascii.openBrace || b == Ascii.closeBrace then none
    else listStart? lines angles parens (lines.prev p)
  else none
termination_by lines.stepsBehind p
decreasing_by
  · have hf : (lines.prev p).isFront = false :=
      isFront_eq_false_of_byteAt_ne (by rw [ha]; decide)
    exact Nat.lt_trans (lines.prev_decreases hf) (lines.prev_decreases h)
  all_goals exact lines.prev_decreases h

variable (lines : Lines)

/-- The name behind a list is read behind the bracket where the walk ends. -/
theorem nameBehindAngles_eq (angles parens : Nat) (p : Place) :
    lines.nameBehindAngles angles parens p =
      match lines.listEnd? angles parens p with
      | some q => lines.nameAfter (lines.next q)
      | none => ⟨"", lines.stop⟩ := by
  fun_induction nameBehindAngles lines angles parens p <;> rw [listEnd?] <;> dsimp only
  case case1 hp b hless ih => rw [dif_pos hp, if_pos hless, ih]
  case case2 hp b hless hgreater hlast =>
    rw [dif_pos hp, if_neg hless, if_pos hgreater, if_pos hlast]
  case case3 hp b hless hgreater hlast ih =>
    rw [dif_pos hp, if_neg hless, if_pos hgreater, if_neg hlast, ih]
  case case4 hp b hless hgreater hopen ih =>
    rw [dif_pos hp, if_neg hless, if_neg hgreater, if_pos hopen, ih]
  case case5 hp b hless hgreater hopen hclose ih =>
    rw [dif_pos hp, if_neg hless, if_neg hgreater, if_neg hopen, if_pos hclose, ih]
  case case6 hp b hless hgreater hopen hclose hbreak =>
    rw [dif_pos hp, if_neg hless, if_neg hgreater, if_neg hopen, if_neg hclose, if_pos hbreak]
  case case7 hp b hless hgreater hopen hclose hbreak ih =>
    rw [dif_pos hp, if_neg hless, if_neg hgreater, if_neg hopen, if_neg hclose, if_neg hbreak, ih]
  case case8 hp => rw [dif_neg hp]

theorem nameInFrontOfAngles_eq (angles parens : Nat) (p : Place) :
    lines.nameInFrontOfAngles angles parens p =
      match lines.listStart? angles parens p with
      | some q => lines.wordBefore (lines.prev q)
      | none => ⟨"", .front⟩ := by
  fun_induction nameInFrontOfAngles lines angles parens p <;> rw [listStart?] <;> dsimp only
  case case1 hp b hgreater harrow ih => rw [dif_pos hp, if_pos hgreater, dif_pos harrow, ih]
  case case2 hp b hgreater harrow ih => rw [dif_pos hp, if_pos hgreater, dif_neg harrow, ih]
  case case3 hp b hgreater hless hlast =>
    rw [dif_pos hp, if_neg hgreater, if_pos hless, if_pos hlast]
  case case4 hp b hgreater hless hlast ih =>
    rw [dif_pos hp, if_neg hgreater, if_pos hless, if_neg hlast, ih]
  case case5 hp b hgreater hless hclose ih =>
    rw [dif_pos hp, if_neg hgreater, if_neg hless, if_pos hclose, ih]
  case case6 hp b hgreater hless hclose hopen hnone =>
    rw [dif_pos hp, if_neg hgreater, if_neg hless, if_neg hclose, if_pos hopen, if_pos hnone]
  case case7 hp b hgreater hless hclose hopen hnone ih =>
    rw [dif_pos hp, if_neg hgreater, if_neg hless, if_neg hclose, if_pos hopen, if_neg hnone, ih]
  case case8 hp b hgreater hless hclose hopen hbreak =>
    rw [dif_pos hp, if_neg hgreater, if_neg hless, if_neg hclose, if_neg hopen, if_pos hbreak]
  case case9 hp b hgreater hless hclose hopen hbreak ih =>
    rw [dif_pos hp, if_neg hgreater, if_neg hless, if_neg hclose, if_neg hopen, if_neg hbreak, ih]
  case case10 hp => rw [dif_neg hp]

variable {lines} {p q : Place} {angles parens : Nat}

section Through

/-- The bytes from a place through another one. -/
def bytesThrough (lines : Lines) (p q : Place) : Bytes := (lines.stretch p (lines.next q)).map (·.2)

theorem bytesThrough_eq_cons (hle : p ≤ q) (hstop : q < lines.stop) :
    lines.bytesThrough p q = lines.byteAt p :: lines.bytesThrough (lines.next p) q := by
  rw [bytesThrough, lines.stretch_of_lt (hle.trans_lt hstop) (hle.trans_lt (lines.lt_next hstop))]
  rfl

theorem bytesThrough_self (hstop : q < lines.stop) : lines.bytesThrough q q = [lines.byteAt q] := by
  rw [bytesThrough_eq_cons (le_refl q) hstop, bytesThrough,
    lines.stretch_of_not_lt fun h => lt_irrefl _ h.2]
  rfl

theorem stretch_next (hp : lines.IsCanonical p) (hq : lines.IsCanonical q) (hle : p ≤ q)
    (hstop : q < lines.stop) :
    lines.stretch p (lines.next q) = lines.stretch p q ++ [(q, lines.byteAt q)] := by
  have hnext := lines.lt_next hstop
  fun_induction lines.stretch p q with
  | case1 p h ih =>
    have hnextp := next_le_of_lt ((lines.isAtStop_eq_false p).mp h.1) hq h.2
    rw [lines.stretch_of_lt ((lines.isAtStop_eq_false p).mp h.1) (h.2.trans hnext),
      ih (isCanonical_next hp) hnextp]
    rfl
  | case2 p h =>
    have heq : p = q := by
      by_contra hne
      exact h ⟨(lines.isAtStop_eq_false p).mpr (hle.trans_lt hstop), lt_of_le_of_ne hle hne⟩
    rw [heq, lines.stretch_of_lt hstop hnext, lines.stretch_of_not_lt fun h => lt_irrefl _ h.2]
    rfl

theorem bytesThrough_eq_append (hp : lines.IsCanonical p) (hq : lines.IsCanonical q) (hlt : p < q)
    (hstop : q < lines.stop) :
    lines.bytesThrough p q = lines.bytesThrough p (lines.prev q) ++ [lines.byteAt q] := by
  rw [bytesThrough, bytesThrough, stretch_next hp hq hlt.le hstop,
    next_prev hq (Place.ne_front_of_lt hlt), List.map_append]
  rfl

theorem getLast?_bytesThrough (hp : lines.IsCanonical p) (hq : lines.IsCanonical q) (hle : p ≤ q)
    (hstop : q < lines.stop) : (lines.bytesThrough p q).getLast? = some (lines.byteAt q) := by
  rcases hle.eq_or_lt with rfl | hlt
  · rw [bytesThrough_self hstop]
    rfl
  · rw [bytesThrough_eq_append hp hq hlt hstop, List.getLast?_append, List.getLast?_singleton,
      Option.some_or]

end Through

section Forward

theorem eq_of_angle {b c : UInt8} (h : (b == c && parens == 0) = true) : b = c ∧ parens = 0 := by
  rwa [Bool.and_eq_true, beq_iff_eq, beq_iff_eq] at h

theorem le_of_listEnd? (h : lines.listEnd? angles parens p = some q) :
    p ≤ q ∧ q < lines.stop ∧ lines.byteAt q = Ascii.greater := by
  have hstep {p : Place} (hp : lines.isAtStop p = false)
      (h : lines.next p ≤ q ∧ q < lines.stop ∧ lines.byteAt q = Ascii.greater) :
      p ≤ q ∧ q < lines.stop ∧ lines.byteAt q = Ascii.greater :=
    ⟨(lines.lt_next ((lines.isAtStop_eq_false p).mp hp)).le.trans h.1, h.2⟩
  fun_induction listEnd? lines angles parens p
  case case2 hp b hless hgreater hlast =>
    cases h
    exact ⟨le_refl _, (lines.isAtStop_eq_false _).mp hp, (eq_of_angle hgreater).1⟩
  case case6 | case8 => cases h
  case case1 hp _ _ ih => exact hstep hp (ih h)
  case case3 hp _ _ _ _ ih => exact hstep hp (ih h)
  case case4 hp _ _ _ _ ih => exact hstep hp (ih h)
  case case5 hp _ _ _ _ _ ih => exact hstep hp (ih h)
  case case7 hp _ _ _ _ _ _ ih => exact hstep hp (ih h)

/-- What a walk forward passes, byte by byte. -/
theorem bytesThrough_of_listEnd? {b : UInt8} (hp : lines.isAtStop p = false)
    (hb : lines.byteAt p = b) (h : lines.listEnd? angles parens (lines.next p) = some q) :
    lines.bytesThrough p q = b :: lines.bytesThrough (lines.next p) q := by
  obtain ⟨hle, hstop, -⟩ := le_of_listEnd? h
  rw [← hb]
  exact bytesThrough_eq_cons ((lines.lt_next ((lines.isAtStop_eq_false p).mp hp)).le.trans hle) hstop

/-- The walk forward pairs the angle brackets outside of parentheses. -/
theorem closesLast_of_listEnd? (h : lines.listEnd? angles parens p = some q) :
    closesLast Ascii.less angles (Bytes.outerAngles parens (lines.bytesThrough p q)) = true := by
  -- Along the walk, its count of open brackets is the depth at which `closesLast` reads on.
  fun_induction listEnd? lines angles parens p
  case case1 hp b hless ih =>
    obtain ⟨hb, rfl⟩ := eq_of_angle hless
    rw [bytesThrough_of_listEnd? hp hb h]
    exact ih h
  case case2 hp b _ hgreater hlast =>
    cases h
    obtain ⟨hb, rfl⟩ : lines.byteAt q = Ascii.greater ∧ _ := eq_of_angle hgreater
    rw [bytesThrough_self ((lines.isAtStop_eq_false _).mp hp), hb]
    exact if_pos hlast
  case case3 hp b _ hgreater hlast ih =>
    obtain ⟨hb, rfl⟩ := eq_of_angle hgreater
    rw [bytesThrough_of_listEnd? hp hb h]
    exact (if_neg hlast).trans (ih h)
  case case4 hp b _ _ hopen ih =>
    rw [bytesThrough_of_listEnd? hp (beq_iff_eq.mp hopen) h]
    exact ih h
  case case5 hp b _ _ _ hclose ih =>
    rw [bytesThrough_of_listEnd? hp (beq_iff_eq.mp hclose) h]
    exact ih h
  case case7 hp b hless hgreater hopen hclose _ ih =>
    have hother : ¬((b == Ascii.less && _) || (b == Ascii.greater && _)) = true :=
      fun hor => (Bool.or_eq_true_iff.mp hor).elim hless hgreater
    rw [bytesThrough_of_listEnd? hp rfl h, Bytes.outerAngles, if_neg hother, if_neg hopen,
      if_neg hclose]
    exact ih h
  case case6 | case8 => cases h

/-- A walk forward ends outside of all parentheses that it has passed, and it has passed none of the
bytes that would end it without a list. -/
theorem passable_of_listEnd? (h : lines.listEnd? angles parens p = some q) :
    Bytes.Passable 0 (lines.bytesThrough p q) ∧
      parens + (lines.bytesThrough p q).count Ascii.openParen ≤
        (lines.bytesThrough p q).count Ascii.closeParen := by
  -- Both facts are about what is ahead of the walk, so each step puts one byte in front.
  fun_induction listEnd? lines angles parens p
  case case1 hp b hless ih =>
    obtain ⟨hb, rfl⟩ := eq_of_angle hless
    rw [bytesThrough_of_listEnd? hp hb h]
    exact (ih h).1.cons (ih h).2 (by decide) (Nat.le_refl _)
  case case2 hp b _ hgreater _ =>
    cases h
    obtain ⟨hb, rfl⟩ : lines.byteAt q = Ascii.greater ∧ _ := eq_of_angle hgreater
    rw [bytesThrough_self ((lines.isAtStop_eq_false _).mp hp), hb]
    exact Bytes.Passable.nil.cons (Nat.le_refl 0) (by decide) (Nat.le_refl _)
  case case3 hp b _ hgreater _ ih =>
    obtain ⟨hb, rfl⟩ := eq_of_angle hgreater
    rw [bytesThrough_of_listEnd? hp hb h]
    exact (ih h).1.cons (ih h).2 (by decide) (Nat.le_refl _)
  case case4 hp b _ _ hopen ih =>
    rw [bytesThrough_of_listEnd? hp (beq_iff_eq.mp hopen) h]
    exact (ih h).1.cons (ih h).2 (by decide) (Nat.le_refl _)
  case case5 hp b _ _ _ hclose ih =>
    rw [bytesThrough_of_listEnd? hp (beq_iff_eq.mp hclose) h]
    exact (ih h).1.cons (ih h).2 (by decide) (Nat.sub_le_iff_le_add.mp (Nat.le_refl _))
  case case7 hp b _ _ hopen _ hend ih =>
    have hopens : [b].count Ascii.openParen = 0 := by
      rw [List.count_singleton, if_neg hopen]
    rw [bytesThrough_of_listEnd? hp rfl h]
    refine (ih h).1.cons (ih h).2 hend ?_
    rw [hopens]
    exact Nat.le_add_right _ _
  case case6 | case8 => cases h

end Forward

section Back

theorem le_of_listStart? (h : lines.listStart? angles parens q = some p) : p ≤ q := by
  have hstep {q : Place} (h : p ≤ lines.prev q) : p ≤ q := by
    cases q with
    | front => exact h
    | on line column => exact h.trans (prev_lt (fun hfront => by cases hfront)).le
  fun_induction listStart? lines angles parens q
  case case3 => cases h; exact le_refl _
  case case6 | case8 | case10 => cases h
  case case1 ih => exact hstep (hstep (ih h))
  case case2 ih | case4 ih | case5 ih | case7 ih | case9 ih => exact hstep (ih h)

/-- The angle brackets from a place through another one that are no tips of arrows, from the back. -/
def anglesBack (lines : Lines) (p q : Place) : Bytes :=
  (Bytes.arrowless 0 (lines.bytesThrough p q)).reverse

/-- What a walk back knows at a place behind its goal, where it reads the byte there. -/
structure Behind (lines : Lines) (p q : Place) (parens : Nat) : Prop where
  goal : lines.byteAt p = Ascii.less
  canonical : lines.IsCanonical q
  le : p ≤ q
  lt_stop : q < lines.stop
  passable : Bytes.Passable parens (lines.bytesThrough p q)

namespace Behind

variable (h : lines.Behind p q parens)
include h

theorem not_space : isCursorSpace (lines.byteAt p) = false := by
  rw [h.goal]
  rfl

theorem lt_of_byteAt_ne (hne : lines.byteAt q ≠ Ascii.less) : p < q := by
  refine lt_of_le_of_ne h.le fun heq => hne ?_
  rw [← heq]
  exact h.goal

theorem bytesThrough_eq (hlt : p < q) :
    lines.bytesThrough p q = lines.bytesThrough p (lines.prev q) ++ [lines.byteAt q] :=
  bytesThrough_eq_append (isCanonical_of_not_space h.not_space) h.canonical hlt h.lt_stop

/-- The place in front of it is behind the goal too, or it is the goal. -/
theorem prev {parens' : Nat} (hlt : p < q)
    (hpass : Bytes.Passable parens' (lines.bytesThrough p (lines.prev q))) :
    lines.Behind p (lines.prev q) parens' where
  goal := h.goal
  canonical := isCanonical_prev h.canonical
  le := le_prev h.canonical (isCanonical_of_not_space h.not_space) hlt
  lt_stop := (prev_lt (Place.ne_front_of_lt hlt)).trans h.lt_stop
  passable := hpass

theorem passable_prev (hlt : p < q) (hclose : lines.byteAt q ≠ Ascii.closeParen) :
    Bytes.Passable parens (lines.bytesThrough p (lines.prev q)) := by
  have hpass := h.passable
  rw [h.bytesThrough_eq hlt] at hpass
  exact hpass.of_append hclose

theorem anglesBack_ne_nil : lines.anglesBack p q ≠ [] := by
  rw [anglesBack, bytesThrough_eq_cons h.le h.lt_stop, h.goal]
  exact List.reverse_ne_nil_iff.mpr (List.cons_ne_nil _ _)

/-- The brackets that the walk meets from here on: first the one at this place. -/
theorem anglesBack_eq (hlt : p < q) : lines.anglesBack p q =
    (if lines.byteAt q == Ascii.less ||
        (lines.byteAt q == Ascii.greater && lines.byteAt (lines.prev q) != Ascii.hyphen) then
      [lines.byteAt q] else []) ++ lines.anglesBack p (lines.prev q) := by
  have hp := isCanonical_of_not_space h.not_space
  have hback : lines.prev q < q := prev_lt (Place.ne_front_of_lt hlt)
  rw [anglesBack, anglesBack, h.bytesThrough_eq hlt, Bytes.arrowless_append_singleton,
    getLast?_bytesThrough hp (isCanonical_prev h.canonical) (le_prev h.canonical hp hlt)
      (hback.trans h.lt_stop), Option.getD_some, List.reverse_append]
  split_ifs <;> rfl

section Step

/-!
One lemma for each byte at the place: what the walk knows at the place where it goes on, and which
brackets it counts.
-/

/-- Neither the tip of an arrow nor its shaft counts. -/
theorem of_arrow (hb : lines.byteAt q = Ascii.greater)
    (harrow : lines.byteAt (lines.prev q) = Ascii.hyphen) :
    lines.Behind p (lines.prev (lines.prev q)) parens ∧
      lines.anglesBack p q = lines.anglesBack p (lines.prev (lines.prev q)) := by
  have hlt : p < q := h.lt_of_byteAt_ne (by rw [hb]; decide)
  have hprev := h.prev hlt (h.passable_prev hlt (by rw [hb]; decide))
  have hlt' : p < lines.prev q := hprev.lt_of_byteAt_ne (by rw [harrow]; decide)
  refine ⟨hprev.prev hlt' (hprev.passable_prev hlt' (by rw [harrow]; decide)), ?_⟩
  rw [h.anglesBack_eq hlt, hb, harrow, hprev.anglesBack_eq hlt', harrow]
  rfl

theorem of_greater (hb : lines.byteAt q = Ascii.greater)
    (harrow : lines.byteAt (lines.prev q) ≠ Ascii.hyphen) :
    lines.Behind p (lines.prev q) parens ∧
      lines.anglesBack p q = Ascii.greater :: lines.anglesBack p (lines.prev q) := by
  have hlt : p < q := h.lt_of_byteAt_ne (by rw [hb]; decide)
  have hcounts : (Ascii.greater == Ascii.less || (Ascii.greater == Ascii.greater &&
      lines.byteAt (lines.prev q) != Ascii.hyphen)) = true := by
    rw [bne_iff_ne.mpr harrow]
    rfl
  refine ⟨h.prev hlt (h.passable_prev hlt (by rw [hb]; decide)), ?_⟩
  rw [h.anglesBack_eq hlt, hb, if_pos hcounts]
  rfl

/-- An opening bracket is the goal, or the walk has a rest of its way ahead. -/
theorem of_less (hb : lines.byteAt q = Ascii.less) :
    p = q ∧ lines.anglesBack p q = [Ascii.less] ∨
      p < q ∧ lines.Behind p (lines.prev q) parens ∧
        lines.anglesBack p q = Ascii.less :: lines.anglesBack p (lines.prev q) := by
  rcases h.le.eq_or_lt with rfl | hlt
  · refine .inl ⟨rfl, ?_⟩
    rw [anglesBack, bytesThrough_self h.lt_stop, hb]
    rfl
  · refine .inr ⟨hlt, h.prev hlt (h.passable_prev hlt (by rw [hb]; decide)), ?_⟩
    rw [h.anglesBack_eq hlt, hb]
    rfl

theorem of_closeParen (hb : lines.byteAt q = Ascii.closeParen) :
    lines.Behind p (lines.prev q) (parens + 1) ∧
      lines.anglesBack p q = lines.anglesBack p (lines.prev q) := by
  have hlt : p < q := h.lt_of_byteAt_ne (by rw [hb]; decide)
  have hpass := h.passable
  rw [h.bytesThrough_eq hlt, hb] at hpass
  refine ⟨h.prev hlt hpass.of_closeParen, ?_⟩
  rw [h.anglesBack_eq hlt, hb]
  rfl

/-- A parenthesis that opens was closed where the walk came from. -/
theorem of_openParen (hb : lines.byteAt q = Ascii.openParen) :
    0 < parens ∧ lines.Behind p (lines.prev q) (parens - 1) ∧
      lines.anglesBack p q = lines.anglesBack p (lines.prev q) := by
  have hlt : p < q := h.lt_of_byteAt_ne (by rw [hb]; decide)
  have hpass := h.passable
  rw [h.bytesThrough_eq hlt, hb] at hpass
  refine ⟨hpass.of_openParen.1, h.prev hlt hpass.of_openParen.2, ?_⟩
  rw [h.anglesBack_eq hlt, hb]
  rfl

/-- None of the bytes that would end the walk without a list stands here. -/
theorem ne_end (hless : lines.byteAt q ≠ Ascii.less) :
    ¬(lines.byteAt q == Ascii.semicolon || lines.byteAt q == Ascii.openBrace ||
      lines.byteAt q == Ascii.closeBrace) = true := by
  have hmem : lines.byteAt q ∈ lines.bytesThrough p q := by
    rw [h.bytesThrough_eq (h.lt_of_byteAt_ne hless)]
    exact List.mem_append_right _ List.mem_cons_self
  exact h.passable.ne_end _ hmem

theorem of_other (hgreater : lines.byteAt q ≠ Ascii.greater) (hless : lines.byteAt q ≠ Ascii.less)
    (hclose : lines.byteAt q ≠ Ascii.closeParen) :
    lines.Behind p (lines.prev q) parens ∧
      lines.anglesBack p q = lines.anglesBack p (lines.prev q) := by
  have hlt : p < q := h.lt_of_byteAt_ne hless
  have hcounts : ¬(lines.byteAt q == Ascii.less || (lines.byteAt q == Ascii.greater &&
      lines.byteAt (lines.prev q) != Ascii.hyphen)) = true := by
    rw [Bool.or_eq_true, Bool.and_eq_true, not_or, not_and_or, beq_iff_eq, beq_iff_eq]
    exact ⟨hless, .inl hgreater⟩
  refine ⟨h.prev hlt (h.passable_prev hlt hclose), ?_⟩
  rw [h.anglesBack_eq hlt, if_neg hcounts]
  rfl

theorem isFront_eq_false : q.isFront = false := by
  cases q with
  | front =>
    have heq : p = .front := le_antisymm h.le (Place.front_le p)
    exact absurd heq (ne_front_of_not_space h.not_space)
  | on => rfl

end Step

section Opening

variable (hb : lines.byteAt q = Ascii.less)
include hb

/-- At the opening bracket that closes all, the walk ends, whether brackets are left or not. -/
theorem some_eq_some_iff (hlast : (angles - 1 == 0) = true) :
    some q = some p ↔ closesLast Ascii.greater angles (lines.anglesBack p q) = true := by
  have hends (rest : Bytes) : closesLast Ascii.greater angles (Ascii.less :: rest) = rest.isEmpty :=
    if_pos hlast
  rcases h.of_less hb with ⟨rfl, hall⟩ | ⟨hlt, hprev, hall⟩
  · rw [hall, hends]
    exact ⟨fun _ => rfl, fun _ => rfl⟩
  · rw [hall, hends, List.isEmpty_iff]
    exact ⟨fun heq => absurd (Option.some.inj heq) hlt.ne',
      fun hnil => absurd hnil hprev.anglesBack_ne_nil⟩

/-- At an opening bracket that leaves others open, the walk goes on, or it passes the goal. -/
theorem listStart?_prev_iff (hlast : ¬(angles - 1 == 0) = true)
    (ih : lines.Behind p (lines.prev q) parens →
      (lines.listStart? (angles - 1) parens (lines.prev q) = some p ↔
        closesLast Ascii.greater (angles - 1) (lines.anglesBack p (lines.prev q)) = true)) :
    lines.listStart? (angles - 1) parens (lines.prev q) = some p ↔
      closesLast Ascii.greater angles (lines.anglesBack p q) = true := by
  have hskips (rest : Bytes) : closesLast Ascii.greater angles (Ascii.less :: rest) =
      closesLast Ascii.greater (angles - 1) rest := if_neg hlast
  rcases h.of_less hb with ⟨rfl, hall⟩ | ⟨-, hprev, hall⟩
  · rw [hall, hskips]
    refine ⟨fun hfound => ?_, fun hclosed => absurd hclosed Bool.false_ne_true⟩
    have hback : lines.prev p < p := prev_lt (ne_front_of_not_space h.not_space)
    exact absurd (le_of_listStart? hfound) (not_le.mpr hback)
  · rw [hall, hskips]
    exact ih hprev

end Opening

end Behind

/-- A walk back ends at an opening bracket if that is the last of the brackets that it counts. -/
theorem listStart?_eq_some_iff (h : lines.Behind p q parens) :
    lines.listStart? angles parens q = some p ↔
      closesLast Ascii.greater angles (lines.anglesBack p q) = true := by
  -- The walk goes on from a place where it still knows all of `Behind`, until it meets the goal.
  fun_induction listStart? lines angles parens q
  case case1 hgreater harrow ih =>
    obtain ⟨hprev, hall⟩ := h.of_arrow (beq_iff_eq.mp hgreater) harrow
    rw [hall]
    exact ih hprev
  case case2 hgreater harrow ih =>
    obtain ⟨hprev, hall⟩ := h.of_greater (beq_iff_eq.mp hgreater) harrow
    rw [hall]
    exact ih hprev
  case case3 hless hlast => exact h.some_eq_some_iff (beq_iff_eq.mp hless) hlast
  case case4 hless hlast ih => exact h.listStart?_prev_iff (beq_iff_eq.mp hless) hlast ih
  case case5 hclose ih =>
    obtain ⟨hprev, hall⟩ := h.of_closeParen (beq_iff_eq.mp hclose)
    rw [hall]
    exact ih hprev
  case case6 hopen hnone =>
    exact absurd (beq_iff_eq.mp hnone) (h.of_openParen (beq_iff_eq.mp hopen)).1.ne'
  case case7 hopen _ ih =>
    obtain ⟨-, hprev, hall⟩ := h.of_openParen (beq_iff_eq.mp hopen)
    rw [hall]
    exact ih hprev
  case case8 hless _ _ hend => exact absurd hend (h.ne_end fun hb => hless (beq_iff_eq.mpr hb))
  case case9 hgreater hless hclose _ _ ih =>
    obtain ⟨hprev, hall⟩ := h.of_other (fun hb => hgreater (beq_iff_eq.mpr hb))
      (fun hb => hless (beq_iff_eq.mpr hb)) fun hb => hclose (beq_iff_eq.mpr hb)
    rw [hall]
    exact ih hprev
  case case10 hfront => exact absurd h.isFront_eq_false hfront

end Back

section Agreement

theorem templateNameAfter_of_listEnd? (hp : lines.byteAt p = Ascii.less)
    (hq : lines.listEnd? 0 0 p = some q) :
    lines.templateNameAfter p = lines.nameAfter (lines.next q) := by
  have hcode : isCursorSpace (lines.byteAt p) = false := by
    rw [hp]
    rfl
  rw [templateNameAfter, skipSpaceForward_of_not_space hcode, hp, if_pos (beq_self_eq_true _),
    nameBehindAngles_eq, hq]

/-- From the bracket where a walk forward ends, the walk back ends at the start of the list exactly if
the brackets that are no tips of arrows make up a list, or if the first one is the only one. Then both
read the names around one and the same list. -/
theorem listStart?_iff_of_listEnd? (hp : lines.byteAt p = Ascii.less)
    (hq : lines.listEnd? 0 0 p = some q) :
    let text := lines.bytesThrough p q
    lines.templateNameAfter p = lines.nameAfter (lines.next q) ∧
      IsAngleList (text.outerAngles 0) ∧
        (lines.listStart? 0 0 q = some p ↔
          text.arrowless 0 = [Ascii.less] ∨ IsAngleList (text.arrowless 0)) ∧
          (lines.listStart? 0 0 q = some p →
            lines.templateNameBefore q = lines.wordBefore (lines.prev p)) ∧
            (text.outerAngles 0 = text.arrowless 0 →
              lines.templateNameBefore q = lines.wordBefore (lines.prev p)) := by
  intro text
  obtain ⟨hle, hstop, hgreater⟩ := le_of_listEnd? hq
  have hcode : isCursorSpace (lines.byteAt q) = false := by
    rw [hgreater]
    rfl
  have htext : text = Ascii.less :: lines.bytesThrough (lines.next p) q :=
    (bytesThrough_eq_cons hle hstop).trans (by rw [hp])
  have houter : IsAngleList (text.outerAngles 0) := by
    have hcons : text.outerAngles 0 =
        Ascii.less :: Bytes.outerAngles 0 (lines.bytesThrough (lines.next p) q) := by
      rw [htext]
      rfl
    have hclosed : closesLast Ascii.less 0 (text.outerAngles 0) = true := closesLast_of_listEnd? hq
    rw [hcons] at hclosed ⊢
    have hbehind : closesLast Ascii.less 1 (Bytes.outerAngles 0
        (lines.bytesThrough (lines.next p) q)) = true := hclosed
    obtain ⟨inner, hinner, hleaves⟩ := (closesLast_iff (by decide) Nat.one_pos
      fun b hb => Bytes.mem_outerAngles hb).mp hbehind
    exact ⟨inner, congrArg _ hinner, leavesOne_one_iff.mp hleaves⟩
  have hstart : lines.listStart? 0 0 q = some p ↔
      text.arrowless 0 = [Ascii.less] ∨ IsAngleList (text.arrowless 0) := by
    have hbehind : lines.Behind p q 0 :=
      ⟨hp, isCanonical_of_not_space hcode, hle, hstop, (passable_of_listEnd? hq).1⟩
    have hcons : text.arrowless 0 =
        Ascii.less :: Bytes.arrowless Ascii.less (lines.bytesThrough (lines.next p) q) := by
      rw [htext]
      rfl
    rw [listStart?_eq_some_iff hbehind]
    change closesLast Ascii.greater 0 (text.arrowless 0).reverse = true ↔ _
    rw [hcons, closesLast_reverse_iff fun b hb => Bytes.mem_arrowless hb, List.cons.injEq]
    simp only [true_and]
  have hname (hfound : lines.listStart? 0 0 q = some p) :
      lines.templateNameBefore q = lines.wordBefore (lines.prev p) := by
    rw [templateNameBefore, nameInFrontOfAngles_eq, hfound]
  refine ⟨templateNameAfter_of_listEnd? hp hq, houter, hstart, hname, fun hsame => hname ?_⟩
  exact hstart.mpr (.inr (hsame ▸ houter))

/-- The walks around a list in a list end at each other's starts. -/
theorem listStart?_iff_of_listEnd?_nested :
    let lines := (scrub (Bytes.ofString "A<B<c>>(d)") .implementation {}).1
    let text := lines.bytesThrough (.on 1 1) (.on 1 6)
    lines.byteAt (.on 1 1) = Ascii.less ∧ lines.listEnd? 0 0 (.on 1 1) = some (.on 1 6) ∧
      text.outerAngles 0 = text.arrowless 0 ∧ IsAngleList (text.arrowless 0) ∧
        lines.listStart? 0 0 (.on 1 6) = some (.on 1 1) ∧
          lines.templateNameBefore (.on 1 6) = lines.wordBefore (lines.prev (.on 1 1)) := by
  intro lines text
  have hp : lines.byteAt (.on 1 1) = Ascii.less := by decide +kernel
  have hq : lines.listEnd? 0 0 (.on 1 1) = some (.on 1 6) := by decide +kernel
  have hsame : text.outerAngles 0 = text.arrowless 0 := by decide +kernel
  obtain ⟨-, houter, hstart, -, hname⟩ := listStart?_iff_of_listEnd? hp hq
  have hlist : IsAngleList (text.arrowless 0) := hsame ▸ houter
  exact ⟨hp, hq, hsame, hlist, hstart.mpr (.inr hlist), hname hsame⟩

/-- A comparison in parentheses leads the walk back past the start of the list, and then past the front
of the file. The tip of an arrow ends the walk forward early, and the walk back at an inner list. -/
theorem listStart?_ne :
    let compared := (scrub (Bytes.ofString "A<(a>b)>c") .implementation {}).1
    let arrow := (scrub (Bytes.ofString "A<f<x->y>>(d)") .implementation {}).1
    (compared.byteAt (.on 1 1) = Ascii.less ∧
      compared.listEnd? 0 0 (.on 1 1) = some (.on 1 7) ∧
        compared.templateNameAfter (.on 1 1) = ⟨"c", .on 1 8⟩ ∧
          compared.templateNameBefore (.on 1 7) = ⟨"", .front⟩ ∧
            compared.wordBefore (compared.prev (.on 1 1)) = ⟨"A", .on 1 0⟩) ∧
      arrow.byteAt (.on 1 1) = Ascii.less ∧ arrow.listEnd? 0 0 (.on 1 1) = some (.on 1 8) ∧
        arrow.templateNameBefore (.on 1 8) = ⟨"f", .on 1 2⟩ ∧
          arrow.wordBefore (arrow.prev (.on 1 1)) = ⟨"A", .on 1 0⟩ := by
  decide +kernel

end Agreement

end Lines
end BracketLint
