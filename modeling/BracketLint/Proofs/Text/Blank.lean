import Mathlib.Data.List.Basic
import BracketLint.Text.Blank

/-!
Where the blanks at either end of a text begin and end. Blank characters of two and three bytes hold
no ASCII byte, so an ASCII byte that is no blank ends the blanks at the start of a text, whatever
stands behind it, and those at its end, whatever stands in front of it. Trimming the end leaves the
front of the text.
-/

namespace BracketLint

namespace Bytes

-- Derives the equations of both once, before the proofs that use them.
attribute [local simp] trimStart trimReversed

theorem le_of_isBlankPair {a b : UInt8} (h : isBlankPair a b = true) : 0x80 ≤ a ∧ 0x80 ≤ b := by
  simp only [isBlankPair, Bool.and_eq_true, Bool.or_eq_true, beq_iff_eq] at h
  obtain ⟨rfl, rfl | rfl⟩ := h <;> decide

theorem le_of_isBlankTriple {a b c : UInt8} (h : isBlankTriple a b c = true) :
    0x80 ≤ a ∧ 0x80 ≤ b ∧ 0x80 ≤ c := by
  simp only [isBlankTriple, Bool.and_eq_true, Bool.or_eq_true, beq_iff_eq, decide_eq_true_eq] at h
  obtain ((⟨⟨rfl, rfl⟩, rfl⟩ | ⟨⟨rfl, rfl⟩, hc⟩) | ⟨⟨rfl, rfl⟩, rfl⟩) | ⟨⟨rfl, rfl⟩, rfl⟩ := h
  · decide
  · obtain ((⟨hle, -⟩ | rfl) | rfl) | rfl := hc
    · exact ⟨by decide, by decide, hle⟩
    all_goals decide
  · decide
  · decide

theorem trimStart_cons_of_isBlankByte {a : UInt8} (h : isBlankByte a = true) (rest : Bytes) :
    trimStart (a :: rest) = trimStart rest := by
  rw [trimStart.eq_def]
  exact if_pos h

theorem trimStart_cons_of_isBlankPair {a b : UInt8} (ha : isBlankByte a = false)
    (h : isBlankPair a b = true) (rest : Bytes) :
    trimStart (a :: b :: rest) = trimStart rest := by
  rw [trimStart.eq_def]
  simp [ha, h]

theorem trimStart_cons_of_isBlankTriple {a b c : UInt8} (ha : isBlankByte a = false)
    (hab : isBlankPair a b = false) (h : isBlankTriple a b c = true) (rest : Bytes) :
    trimStart (a :: b :: c :: rest) = trimStart rest := by
  rw [trimStart.eq_def]
  simp [ha, hab, h]

theorem isBlankPair_of_lt {a b : UInt8} (h : a < 0x80 ∨ b < 0x80) : isBlankPair a b = false := by
  rw [Bool.eq_false_iff]
  intro hblank
  obtain ⟨ha, hb⟩ := le_of_isBlankPair hblank
  exact h.elim (UInt8.not_lt.mpr ha) (UInt8.not_lt.mpr hb)

theorem isBlankTriple_of_lt {a b c : UInt8} (h : a < 0x80 ∨ b < 0x80 ∨ c < 0x80) :
    isBlankTriple a b c = false := by
  rw [Bool.eq_false_iff]
  intro hblank
  obtain ⟨ha, hb, hc⟩ := le_of_isBlankTriple hblank
  exact h.elim (UInt8.not_lt.mpr ha) (Or.rec (UInt8.not_lt.mpr hb) (UInt8.not_lt.mpr hc))

/-- An ASCII byte that is no blank ends the blanks at the start of a text. -/
theorem trimStart_cons_of_ascii {b : UInt8} (hascii : b < 0x80) (hblank : isBlankByte b = false)
    (rest : Bytes) : trimStart (b :: rest) = b :: rest := by
  match rest with
  | [] => simp [hblank]
  | [c] => simp [hblank, isBlankPair_of_lt (b := c) (Or.inl hascii)]
  | c :: d :: rest =>
    simp [hblank, isBlankPair_of_lt (b := c) (Or.inl hascii),
      isBlankTriple_of_lt (b := c) (c := d) (Or.inl hascii)]

/-- What a text leaves in front of an ASCII byte does not depend on what stands behind it, and
trimming goes on there if nothing is left. -/
theorem trimStart_append_cons {b : UInt8} (hascii : b < 0x80) (front rest : Bytes) :
    trimStart (front ++ b :: rest) =
      if trimStart front = [] then trimStart (b :: rest) else trimStart front ++ b :: rest := by
  -- A blank takes up to three bytes, so it matters how many are left in front of `b`.
  induction hn : front.length using Nat.strongRecOn generalizing front with
  | ind n ih =>
    subst hn
    match front with
    | [] => rfl
    | x :: front =>
      by_cases hx : isBlankByte x = true
      · rw [List.cons_append, trimStart_cons_of_isBlankByte hx, trimStart_cons_of_isBlankByte hx]
        exact ih _ (Nat.lt_succ_self _) front rfl
      match front with
      | [] =>
        have hpair : isBlankPair x b = false := isBlankPair_of_lt (Or.inr hascii)
        cases rest with
        | nil => simp [hx, hpair]
        | cons c rest =>
          simp [hx, hpair, isBlankTriple_of_lt (a := x) (c := c) (Or.inr (Or.inl hascii))]
      | y :: front =>
        by_cases hxy : isBlankPair x y = true
        · have hskip := trimStart_cons_of_isBlankPair (Bool.eq_false_iff.mpr hx) hxy
          rw [List.cons_append, List.cons_append, hskip, hskip]
          exact ih _ (Nat.lt_succ_of_lt (Nat.lt_succ_self _)) front rfl
        match front with
        | [] =>
          simp [hx, hxy, isBlankTriple_of_lt (a := x) (b := y) (Or.inr (Or.inr hascii))]
        | z :: front =>
          by_cases hxyz : isBlankTriple x y z = true
          · simpa [hx, hxy, hxyz] using ih _ (by simp; omega) front rfl
          · simp [hx, hxy, hxyz]

/-- Trimming does not reach behind an ASCII byte that is no blank. -/
theorem trimStart_append_of_ascii {b : UInt8} (hascii : b < 0x80) (hblank : isBlankByte b = false)
    (front rest : Bytes) : trimStart (front ++ b :: rest) = trimStart front ++ b :: rest := by
  rw [trimStart_append_cons hascii, trimStart_cons_of_ascii hascii hblank]
  split
  · next hnil => rw [hnil, List.nil_append]
  · rfl

theorem trimStart_suffix (bytes : Bytes) : trimStart bytes <:+ bytes := by
  fun_induction trimStart bytes with
  | case1 => exact List.suffix_refl _
  | case2 a rest _ ih => exact ih.trans (List.suffix_cons _ _)
  | case3 => exact List.suffix_refl _
  | case4 a _ b rest _ ih => exact ih.trans ⟨[a, b], rfl⟩
  | case5 => exact List.suffix_refl _
  | case6 a _ b _ c rest _ ih => exact ih.trans ⟨[a, b, c], rfl⟩
  | case7 => exact List.suffix_refl _

/-- Only blanks are trimmed off. -/
theorem exists_blanks_append_trimStart (bytes : Bytes) :
    ∃ blanks, trimStart blanks = [] ∧ blanks ++ trimStart bytes = bytes := by
  fun_induction trimStart bytes with
  | case1 => exact ⟨[], rfl, rfl⟩
  | case2 a rest ha ih =>
    obtain ⟨blanks, hblanks, hrest⟩ := ih
    exact ⟨a :: blanks, by rw [trimStart_cons_of_isBlankByte ha, hblanks],
      congrArg (a :: ·) hrest⟩
  | case4 a ha b rest hpair ih =>
    obtain ⟨blanks, hblanks, hrest⟩ := ih
    rw [Bool.not_eq_true] at ha
    exact ⟨a :: b :: blanks, by rw [trimStart_cons_of_isBlankPair ha hpair, hblanks],
      congrArg (a :: b :: ·) hrest⟩
  | case6 a ha b hpair c rest htriple ih =>
    obtain ⟨blanks, hblanks, hrest⟩ := ih
    rw [Bool.not_eq_true] at ha hpair
    exact ⟨a :: b :: c :: blanks,
      by rw [trimStart_cons_of_isBlankTriple ha hpair htriple, hblanks],
      congrArg (a :: b :: c :: ·) hrest⟩
  | case3 | case5 | case7 => exact ⟨[], rfl, rfl⟩

/-- Blanks in front of a text are trimmed off whatever stands behind them. -/
theorem trimStart_blanks_append {blanks : Bytes} (h : trimStart blanks = []) (rest : Bytes) :
    trimStart (blanks ++ rest) = trimStart rest := by
  fun_induction trimStart blanks with
  | case1 => rfl
  | case2 a blanks ha ih => rw [List.cons_append, trimStart_cons_of_isBlankByte ha, ih h]
  | case4 a ha b blanks hpair ih =>
    rw [Bool.not_eq_true] at ha
    rw [List.cons_append, List.cons_append, trimStart_cons_of_isBlankPair ha hpair, ih h]
  | case6 a ha b hpair c blanks htriple ih =>
    rw [Bool.not_eq_true] at ha hpair
    rw [List.cons_append, List.cons_append, List.cons_append,
      trimStart_cons_of_isBlankTriple ha hpair htriple, ih h]
  | case3 | case5 | case7 => cases h

theorem trimReversed_suffix (bytes : Bytes) : trimReversed bytes <:+ bytes := by
  fun_induction trimReversed bytes with
  | case1 => exact List.suffix_refl _
  | case2 a rest _ ih => exact ih.trans (List.suffix_cons _ _)
  | case3 => exact List.suffix_refl _
  | case4 a _ b rest _ ih => exact ih.trans ⟨[a, b], rfl⟩
  | case5 => exact List.suffix_refl _
  | case6 a _ b _ c rest _ ih => exact ih.trans ⟨[a, b, c], rfl⟩
  | case7 => exact List.suffix_refl _

theorem trimEnd_prefix (bytes : Bytes) : trimEnd bytes <+: bytes := by
  have hsuffix := trimReversed_suffix bytes.reverse
  rw [← List.reverse_prefix, List.reverse_reverse] at hsuffix
  exact hsuffix

theorem trimReversed_cons_of_isBlankByte {a : UInt8} (h : isBlankByte a = true) (rest : Bytes) :
    trimReversed (a :: rest) = trimReversed rest := by
  rw [trimReversed.eq_def]
  exact if_pos h

theorem trimReversed_cons_of_isBlankPair {a b : UInt8} (ha : isBlankByte a = false)
    (h : isBlankPair b a = true) (rest : Bytes) :
    trimReversed (a :: b :: rest) = trimReversed rest := by
  rw [trimReversed.eq_def]
  simp [ha, h]

/-- A blank at the end of a text is trimmed away. -/
theorem trimEnd_append_space (bytes : Bytes) : trimEnd (bytes ++ [Ascii.space]) = trimEnd bytes := by
  have hblank : isBlankByte Ascii.space = true := by decide
  rw [trimEnd, List.reverse_append, List.reverse_singleton, List.singleton_append,
    trimReversed_cons_of_isBlankByte hblank, trimEnd]

theorem trimReversed_cons_of_ascii {b : UInt8} (hascii : b < 0x80) (hblank : isBlankByte b = false)
    (reversed : Bytes) : trimReversed (b :: reversed) = b :: reversed := by
  match reversed with
  | [] => simp [hblank]
  | [c] => simp [hblank, isBlankPair_of_lt (a := c) (Or.inr hascii)]
  | c :: d :: reversed =>
    simp [hblank, isBlankPair_of_lt (a := c) (Or.inr hascii),
      isBlankTriple_of_lt (a := d) (b := c) (Or.inr (Or.inr hascii))]

/-- Trimming from the end does not reach in front of an ASCII byte that is no blank. -/
theorem trimReversed_append_of_ascii {b : UInt8} (hascii : b < 0x80) (hblank : isBlankByte b = false)
    (behind before : Bytes) :
    trimReversed (behind ++ b :: before) = trimReversed behind ++ b :: before := by
  fun_induction trimReversed behind with
  | case1 => exact trimReversed_cons_of_ascii hascii hblank before
  | case2 x behind hx ih => rwa [List.cons_append, trimReversed_cons_of_isBlankByte hx]
  | case3 x hx =>
    have hpair : isBlankPair b x = false := isBlankPair_of_lt (Or.inl hascii)
    cases before with
    | nil => simp [hx, hpair]
    | cons c before =>
      simp [hx, hpair, isBlankTriple_of_lt (a := c) (c := x) (Or.inr (Or.inl hascii))]
  | case4 x hx y behind hxy ih =>
    rwa [List.cons_append, List.cons_append,
      trimReversed_cons_of_isBlankPair (Bool.eq_false_iff.mpr hx) hxy]
  | case5 x hx y hxy =>
    simp [hx, hxy, isBlankTriple_of_lt (b := y) (c := x) (Or.inl hascii)]
  | case6 x hx y hxy z behind hxyz ih => simpa [hx, hxy, hxyz] using ih
  | case7 x hx y hxy z behind hxyz => simp [hx, hxy, hxyz]

theorem trimEnd_append_cons_of_ascii {b : UInt8} (hascii : b < 0x80) (hblank : isBlankByte b = false)
    (front rest : Bytes) : trimEnd (front ++ b :: rest) = front ++ b :: trimEnd rest := by
  rw [trimEnd, List.reverse_append, List.reverse_cons, List.append_assoc, List.singleton_append,
    trimReversed_append_of_ascii hascii hblank, List.reverse_append, List.reverse_cons,
    List.reverse_reverse, List.append_assoc, List.singleton_append, trimEnd]

/-- An ASCII byte that is no blank ends the blanks at the end of a text. -/
theorem trimEnd_append_of_ascii {b : UInt8} (hascii : b < 0x80) (hblank : isBlankByte b = false)
    (front : Bytes) : trimEnd (front ++ [b]) = front ++ [b] :=
  trimEnd_append_cons_of_ascii hascii hblank front []

/-- No byte is trimmed off up to an ASCII byte that is no blank. -/
theorem getElem?_trimEnd {bytes : Bytes} {index : Nat} {b : UInt8} (hascii : b < 0x80)
    (hblank : isBlankByte b = false) (h : bytes[index]? = some b) :
    (trimEnd bytes)[index]? = some b := by
  obtain ⟨hlt, rfl⟩ := List.getElem?_eq_some_iff.mp h
  have hsplit : bytes = bytes.take index ++ bytes[index] :: bytes.drop (index + 1) := by
    rw [← List.drop_eq_getElem_cons hlt, List.take_append_drop]
  have hfront : (bytes.take index).length = index := List.length_take_of_le (Nat.le_of_lt hlt)
  have htrim := trimEnd_append_cons_of_ascii hascii hblank (bytes.take index)
    (bytes.drop (index + 1))
  rw [← hsplit] at htrim
  rw [htrim, List.getElem?_append_right (Nat.le_of_eq hfront), hfront, Nat.sub_self,
    List.getElem?_cons_zero]

/-- A blank text holds blank bytes and bytes of longer characters only. -/
theorem isBlankByte_or_le_of_mem {bytes : Bytes} (h : trimEnd bytes = []) {b : UInt8}
    (hb : b ∈ bytes) : isBlankByte b = true ∨ 0x80 ≤ b := by
  rw [trimEnd, List.reverse_eq_nil_iff] at h
  rw [← List.mem_reverse] at hb
  generalize bytes.reverse = reversed at h hb
  fun_induction trimReversed reversed with
  | case1 => cases hb
  | case2 x rest hx ih =>
    rcases List.mem_cons.mp hb with rfl | hb
    · exact .inl hx
    · exact ih h hb
  | case3 => cases h
  | case4 x _ y rest hpair ih =>
    obtain ⟨hy, hx⟩ := le_of_isBlankPair hpair
    rcases List.mem_cons.mp hb with rfl | hb
    · exact .inr hx
    rcases List.mem_cons.mp hb with rfl | hb
    · exact .inr hy
    · exact ih h hb
  | case5 => cases h
  | case6 x _ y _ z rest htriple ih =>
    obtain ⟨hz, hy, hx⟩ := le_of_isBlankTriple htriple
    rcases List.mem_cons.mp hb with rfl | hb
    · exact .inr hx
    rcases List.mem_cons.mp hb with rfl | hb
    · exact .inr hy
    rcases List.mem_cons.mp hb with rfl | hb
    · exact .inr hz
    · exact ih h hb
  | case7 => cases h

theorem endsIn_iff {bytes : Bytes} {b : UInt8} :
    bytes.endsIn b = true ↔ ∃ front, bytes = front ++ [b] := by
  rw [endsIn, beq_iff_eq, List.getLast?_eq_some_iff]

theorem trimEnd_of_endsIn {b : UInt8} (hascii : b < 0x80) (hblank : isBlankByte b = false)
    {bytes : Bytes} (h : bytes.endsIn b = true) : trimEnd bytes = bytes := by
  obtain ⟨front, rfl⟩ := endsIn_iff.mp h
  exact trimEnd_append_of_ascii hascii hblank front

/-- The last byte of a text, blanks aside, is an ASCII byte exactly if only blanks stand behind one
of them. -/
theorem endsIn_trimEnd_iff {b : UInt8} (hascii : b < 0x80) (hblank : isBlankByte b = false)
    {bytes : Bytes} : (trimEnd bytes).endsIn b = true ↔
      ∃ front rest, bytes = front ++ b :: rest ∧ trimEnd rest = [] := by
  rw [endsIn_iff]
  constructor
  · rintro ⟨front, hfront⟩
    obtain ⟨rest, hrest⟩ := trimEnd_prefix bytes
    rw [hfront, List.append_assoc, List.singleton_append] at hrest
    subst hrest
    rw [trimEnd_append_cons_of_ascii hascii hblank, List.append_cancel_left_eq, List.cons.injEq] at hfront
    exact ⟨front, rest, rfl, hfront.2⟩
  · rintro ⟨front, rest, rfl, hrest⟩
    exact ⟨front, by rw [trimEnd_append_cons_of_ascii hascii hblank, hrest]⟩

end Bytes

end BracketLint
