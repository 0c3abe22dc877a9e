import BracketLint.Proofs.Lines.Words

/-!
Where a word ends. The word in front of a position ends in the last byte that is no blank and starts
behind the last byte that belongs to no name; read forward from its start it is found again, and goes
on only if the byte behind it belongs to the name too, as a colon does in front of another one.
-/

namespace BracketLint
open scoped Place

namespace Lines

variable {lines : Lines} {p q : Place}

/-- The last place up to a position whose byte is no blank. -/
structure IsLastCode (lines : Lines) (p q : Place) : Prop where
  le : q ≤ p
  not_space : isCursorSpace (lines.byteAt q) = false
  space_behind : ∀ r, q < r → r ≤ p → isCursorSpace (lines.byteAt r) = true

theorem isLastCode_skipSpaceBack (h : lines.skipSpaceBack p ≠ .front) :
    lines.IsLastCode p (lines.skipSpaceBack p) where
  le := lines.skipSpaceBack_le p
  not_space := (lines.skipSpaceBack_eq_front_or p).resolve_left h
  space_behind r hlt hle := by
    by_contra hspace
    rw [Bool.not_eq_true] at hspace
    exact absurd hlt (not_lt.mpr (le_skipSpaceBack hspace hle))

section Names

variable {text : Bytes} {first last column : Nat}

/-- In front of the start of a name stands no byte of it. -/
theorem isNameByteAt_of_nameStart_eq (h : nameStart text last = column + 1) :
    isNameByteAt text column = false := by
  fun_induction nameStart text last with
  | case1 => cases h
  | case2 last _ ih => exact ih h
  | case3 last hname =>
    obtain rfl : last = column := Nat.succ.inj h
    exact Bool.eq_false_iff.mpr hname

/-- A name goes on as long as there are bytes of it. -/
theorem le_nameEnd_of_forall (hle : first ≤ last)
    (h : ∀ k, first ≤ k → k < last → isNameByteAt text k = true) : last ≤ nameEnd text first := by
  fun_induction nameEnd text first with
  | case1 first _ ih =>
    rcases Nat.eq_or_lt_of_le hle with rfl | hlt
    · exact Nat.le_of_succ_le (le_nameEnd text (first + 1))
    · exact ih hlt fun k hk => h k (Nat.le_of_succ_le hk)
  | case2 first hname =>
    by_contra hlt
    exact hname (h first (Nat.le_refl first) (Nat.lt_of_not_le hlt))

theorem nameEnd_le_length (hle : first ≤ text.length) : nameEnd text first ≤ text.length := by
  fun_induction nameEnd text first with
  | case1 first hname ih => exact ih (lt_length_of_isNameByteAt hname)
  | case2 => exact hle

theorem length_slice (hlast : last ≤ text.length) :
    (slice text first last).length = last - first := by
  rw [slice, List.length_take, List.length_drop]
  omega

theorem length_toWord (bytes : Bytes) : (Bytes.toWord bytes).length = bytes.length := by
  rw [Bytes.toWord, String.length_ofList, List.length_map]

theorem toList_toWord_prefix {bytes bytes' : Bytes} (h : bytes <+: bytes') :
    (Bytes.toWord bytes).toList <+: (Bytes.toWord bytes').toList := by
  rw [Bytes.toWord, Bytes.toWord, String.toList_ofList, String.toList_ofList]
  exact h.map _

end Names

/-- A byte of a name is no blank. -/
theorem not_space_of_isNameByteAt {line column : Nat} (hline : line < lines.lastIndex)
    (hname : isNameByteAt (lines.text line) column = true) :
    isCursorSpace (lines.byteAt (.on line column)) = false := by
  obtain ⟨b, hb, hkind⟩ := exists_of_isNameByteAt hname
  have hbyte := byteAt_of_lt hline (lt_length_of_isNameByteAt hname)
  obtain rfl : b = lines.byteAt (.on line column) := Option.some.inj (hb.symm.trans hbyte)
  rcases hkind with hcolon | hword
  · rw [hcolon]
    rfl
  · exact not_space_of_isWordByte hword

/-- The name that starts at a byte of it. -/
theorem nameAfter_of_isNameByteAt {line column : Nat} (hline : line < lines.lastIndex)
    (hname : isNameByteAt (lines.text line) column = true) :
    lines.nameAfter (.on line column) =
      ⟨Bytes.toWord (slice (lines.text line) column (nameEnd (lines.text line) column)),
        .on line column⟩ := by
  have hspace := not_space_of_isNameByteAt hline hname
  have hstop : lines.isAtStop (.on line column) = false :=
    (lines.isAtStop_eq_false _).mpr (lt_stop_of_not_space hspace)
  rw [nameAfter, skipSpaceForward_of_not_space hspace]
  simp only [hstop, Bool.false_eq_true, if_false]
  rfl

/-- A word that is not empty is cut out of its line from the start of the name up to the last byte that
is no blank. -/
theorem exists_of_wordBefore (hword : (lines.wordBefore p).text ≠ "") :
    ∃ line last, lines.IsLastCode p (.on line last) ∧ line < lines.lastIndex ∧
      isNameByteAt (lines.text line) last = true ∧
      lines.wordBefore p =
        ⟨Bytes.toWord (slice (lines.text line) (nameStart (lines.text line) last) (last + 1)),
          .on line (nameStart (lines.text line) last)⟩ := by
  rw [wordBefore] at hword ⊢
  dsimp only at hword ⊢
  split_ifs at hword ⊢ with hnone
  · exact absurd rfl hword
  rw [Bool.or_eq_true, not_or, Bool.not_eq_true', Bool.not_eq_false, Bool.not_eq_true] at hnone
  have hcode : lines.skipSpaceBack p ≠ .front := by
    intro hfront
    rw [hfront] at hnone
    cases hnone.1
  have hlast := isLastCode_skipSpaceBack hcode
  obtain ⟨line, last, hplace, hline, hcolumn⟩ := exists_of_not_space hlast.not_space
  rw [hplace] at hlast hnone ⊢
  exact ⟨line, last, hlast, hline,
    isNameByteAt_of_isWordByte (byteAt_of_lt hline hcolumn) hnone.2, rfl⟩

/-- The word in front of a position, if there is one, is read from its place on. Its last byte is the
last one up to the position that is no blank, and no byte of a name stands right in front of it. The
name read forward from its place starts with it, and is the same word exactly if the byte right behind
it belongs to no name. -/
theorem nameAfter_wordBefore (hword : (lines.wordBefore p).text ≠ "") :
    ∃ line first last, (lines.wordBefore p).place = .on line first ∧
      lines.Spells (lines.wordBefore p) ∧
      first + (lines.wordBefore p).text.length = last + 1 ∧ lines.IsLastCode p (.on line last) ∧
      (∀ column, first = column + 1 → isNameByteAt (lines.text line) column = false) ∧
      (lines.nameAfter (.on line first)).place = .on line first ∧
      (lines.wordBefore p).text.toList <+: (lines.nameAfter (.on line first)).text.toList ∧
      (lines.nameAfter (.on line first) = lines.wordBefore p ↔
        isNameByteAt (lines.text line) (last + 1) = false) := by
  obtain ⟨line, last, hlast, hline, hname, hbefore⟩ := exists_of_wordBefore hword
  have hspells := lines.spells_wordBefore p
  have hstart := nameStart_le (lines.text line) last
  have hbytes : ∀ k, nameStart (lines.text line) last ≤ k → k < last + 1 →
      isNameByteAt (lines.text line) k = true := by
    intro k hle hlt
    rcases Nat.lt_succ_iff_lt_or_eq.mp hlt with hlt | rfl
    · exact isNameByteAt_of_nameStart_le hle hlt
    · exact hname
  have hafter := nameAfter_of_isNameByteAt hline
    (hbytes _ (Nat.le_refl _) (Nat.lt_succ_of_le hstart))
  have hend : last + 1 ≤ nameEnd (lines.text line) (nameStart (lines.text line) last) :=
    le_nameEnd_of_forall (Nat.le_succ_of_le hstart) hbytes
  have hlength := lt_length_of_isNameByteAt hname
  have hfront : ∀ column, nameStart (lines.text line) last = column + 1 →
      isNameByteAt (lines.text line) column = false := fun _ => isNameByteAt_of_nameStart_eq
  rw [hbefore] at hspells ⊢
  generalize nameStart (lines.text line) last = first at hspells hstart hbytes hafter hend hfront ⊢
  refine ⟨line, first, last, rfl, hspells, ?_, hlast, hfront, by rw [hafter], ?_, ?_⟩
  · rw [length_toWord, length_slice hlength]
    omega
  · rw [hafter]
    exact toList_toWord_prefix (List.take_prefix_take_left (by omega))
  · rw [hafter, Word.mk.injEq, and_iff_left rfl]
    constructor
    · intro hsame
      -- A longer name would have another length.
      have hlengths := congrArg String.length hsame
      rw [length_toWord, length_toWord, length_slice hlength,
        length_slice (nameEnd_le_length (by omega))] at hlengths
      by_contra hbehind
      have hlonger := le_nameEnd_of_forall (by omega : first ≤ last + 1 + 1) fun k hle hlt => by
        rcases Nat.lt_succ_iff_lt_or_eq.mp hlt with hlt | rfl
        · exact hbytes k hle hlt
        · exact Bool.of_not_eq_false hbehind
      omega
    · intro hbehind
      rw [Nat.le_antisymm (nameEnd_le (by omega) hbehind) hend]

/-- In front of a qualifier the word is shorter than the name. -/
theorem nameAfter_wordBefore_label :
    let lines := (scrub (Bytes.ofString "case a::b:") .implementation {}).1
    let word := lines.wordBefore (.on 1 5)
    word.text ≠ "" ∧ word = ⟨"a", .on 1 5⟩ ∧ lines.nameAfter (.on 1 5) = ⟨"a::b", .on 1 5⟩ ∧
      ∃ line first last, word.place = .on line first ∧ lines.Spells word ∧
        first + word.text.length = last + 1 ∧ lines.IsLastCode (.on 1 5) (.on line last) ∧
        (∀ column, first = column + 1 → isNameByteAt (lines.text line) column = false) ∧
        (lines.nameAfter (.on line first)).place = .on line first ∧
        word.text.toList <+: (lines.nameAfter (.on line first)).text.toList ∧
        (lines.nameAfter (.on line first) = word ↔
          isNameByteAt (lines.text line) (last + 1) = false) := by
  intro lines word
  have hword : word = ⟨"a", .on 1 5⟩ := by decide +kernel
  have hname : lines.nameAfter (.on 1 5) = ⟨"a::b", .on 1 5⟩ := by decide +kernel
  have htext : word.text ≠ "" := by
    rw [hword]
    decide
  exact ⟨htext, hword, hname, nameAfter_wordBefore htext⟩

end Lines
end BracketLint
