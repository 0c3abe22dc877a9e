import Mathlib.Data.List.Basic
import BracketLint.Group.Tree
import BracketLint.Proofs.Lines.ReportedPlaces

/-!
Where the words in front of brackets stand. A word is found by moving over the scrubbed lines from
the bracket on, so it stands on a line of the file.
-/

namespace BracketLint

namespace Lines

section Word

variable {raws : List Bytes} {kind : FileKind} {options : ScrubOptions}

/-- The positions on the scrubbed text of a line stand on the line. -/
theorem standsOn_of_le_length_text {line column : Nat} (hpos : 0 < line)
    (hline : line < (ofRawLines raws kind options).1.lastIndex)
    (hcolumn : column ≤ ((ofRawLines raws kind options).1.text line).length) :
    (Place.on line column).StandsOn raws 1 := by
  obtain ⟨index, rfl⟩ := Nat.exists_eq_succ_of_ne_zero (Nat.ne_of_gt hpos)
  have hlt : index < raws.length := by
    rw [lastIndex, count_ofRawLines] at hline
    exact Nat.lt_of_succ_lt_succ hline
  have hle := Nat.le_trans hcolumn (keepsColumns_ofRawLines kind options raws (index + 1)).length_le
  rw [raw_ofRawLines, List.getElem?_eq_getElem hlt, Option.getD_some] at hle
  exact ⟨index, column, raws[index], by rw [Nat.add_comm], List.getElem?_eq_getElem hlt, hle⟩

/-- A byte that is neither a line feed nor outside of the file stands on a line of the file. -/
theorem exists_of_byteAt {p : Place}
    (hnul : (ofRawLines raws kind options).1.byteAt p ≠ Ascii.nul)
    (hfeed : (ofRawLines raws kind options).1.byteAt p ≠ Ascii.lineFeed) :
    ∃ line column, p = .on line column ∧ 0 < line ∧
      line < (ofRawLines raws kind options).1.lastIndex ∧
      column < ((ofRawLines raws kind options).1.text line).length := by
  cases p with
  | front => exact absurd rfl hnul
  | on line column =>
    rw [byteAt] at hnul hfeed
    split at hnul
    · exact absurd rfl hnul
    next hline =>
    rw [if_neg hline] at hfeed
    have hlt : column < ((ofRawLines raws kind options).1.text line).length := by
      by_contra hle
      rw [List.getElem?_eq_none (Nat.le_of_not_lt hle)] at hfeed
      exact hfeed rfl
    refine ⟨line, column, rfl, Nat.pos_of_ne_zero ?_, Nat.lt_of_not_le hline, hlt⟩
    -- There is nothing on the line in front of the file.
    rintro rfl
    exact absurd hlt (Nat.not_lt_zero _)

theorem exists_of_isBracket {p : Place}
    (h : (Bracket.ofByte? ((ofRawLines raws kind options).1.byteAt p)).isSome = true) :
    ∃ line column, p = .on line column ∧ 0 < line ∧
      line < (ofRawLines raws kind options).1.lastIndex ∧
      column < ((ofRawLines raws kind options).1.text line).length := by
  apply exists_of_byteAt
  · intro hnul
    rw [hnul] at h
    cases h
  · intro hfeed
    rw [hfeed] at h
    cases h

theorem standsOn_of_isBracket {p : Place}
    (h : (Bracket.ofByte? ((ofRawLines raws kind options).1.byteAt p)).isSome = true) :
    p.StandsOn raws 1 := by
  obtain ⟨line, column, rfl, hpos, hline, hcolumn⟩ := exists_of_isBracket h
  exact standsOn_of_le_length_text hpos hline (Nat.le_of_lt hcolumn)

theorem nameStart_le (text : Bytes) (column : Nat) : nameStart text column ≤ column := by
  fun_induction nameStart text column with
  | case1 => exact Nat.le_refl _
  | case2 column _ ih => exact Nat.le_succ_of_le ih
  | case3 => exact Nat.le_refl _

theorem standsOn_wordBefore {p : Place}
    (h : ((ofRawLines raws kind options).1.wordBefore p).text ≠ "") :
    ((ofRawLines raws kind options).1.wordBefore p).place.StandsOn raws 1 := by
  unfold wordBefore at h ⊢
  dsimp only at h ⊢
  split at h
  · exact absurd rfl h
  next hword =>
  rw [if_neg hword]
  -- The word reaches from its start up to a byte of the file.
  rw [Bool.or_eq_true, not_or, Bool.not_eq_true', Bool.not_eq_false] at hword
  have hne {b : UInt8} (hb : Ascii.isWordByte b = false) : (ofRawLines raws kind options).1.byteAt
      ((ofRawLines raws kind options).1.skipSpaceBack p) ≠ b := by
    rintro rfl
    rw [hb] at hword
    cases hword.2
  obtain ⟨line, column, hplace, hpos, hline, hcolumn⟩ :=
    exists_of_byteAt (hne (by decide)) (hne (by decide))
  rw [hplace]
  exact standsOn_of_le_length_text hpos hline
    (Nat.le_trans (nameStart_le _ _) (Nat.le_of_lt hcolumn))

theorem standsOn_nameInFrontOfAngles {angles parens : Nat} {p : Place}
    (h : ((ofRawLines raws kind options).1.nameInFrontOfAngles angles parens p).text ≠ "") :
    ((ofRawLines raws kind options).1.nameInFrontOfAngles angles parens p).place.StandsOn raws 1 := by
  fun_induction nameInFrontOfAngles (ofRawLines raws kind options).1 angles parens p
  case case3 => exact standsOn_wordBefore h
  case case6 | case8 | case10 => exact absurd rfl h
  -- All other steps go on in front of the byte.
  case case1 ih | case2 ih | case4 ih | case5 ih | case7 ih | case9 ih => exact ih h

theorem standsOn_operatorName? {opened : Place} {word : Word}
    (hopened : (Bracket.ofByte? ((ofRawLines raws kind options).1.byteAt opened)).isSome = true)
    (h : (ofRawLines raws kind options).1.operatorName? opened = some word) :
    word.place.StandsOn raws 1 := by
  obtain ⟨line, column, rfl, hpos, hline, -⟩ := exists_of_isBracket hopened
  unfold operatorName? at h
  dsimp only at h
  split at h
  · cases h
  split at h
  · cases h
  cases h
  refine standsOn_of_le_length_text hpos hline ?_
  -- The name is cut out of the text in front of the bracket.
  refine Nat.le_trans (Nat.sub_le _ _) (Nat.le_trans (Bytes.trimEnd_prefix _).length_le ?_)
  refine Nat.le_trans (List.length_take_le' _ _) (Nat.le_trans (Bytes.trimEnd_prefix _).length_le ?_)
  exact List.length_take_le' _ _

/-- The word in front of a bracket of the file stands in the file. -/
theorem standsOn_wordInFrontOf {shape : Shape} {opened : Place}
    (hopened : (Bracket.ofByte? ((ofRawLines raws kind options).1.byteAt opened)).isSome = true)
    (h : ((ofRawLines raws kind options).1.wordInFrontOf shape opened).text ≠ "") :
    ((ofRawLines raws kind options).1.wordInFrontOf shape opened).place.StandsOn raws 1 := by
  rw [wordInFrontOf] at h ⊢
  dsimp only at h ⊢
  split
  next hempty =>
    rw [if_pos hempty] at h
    split
    next operator hoperator => exact standsOn_operatorName? hopened hoperator
    next hoperator =>
      rw [hoperator] at h
      dsimp only at h
      have hword : ¬((ofRawLines raws kind options).1.wordBefore
          ((ofRawLines raws kind options).1.prev opened)).text ≠ "" :=
        not_not.mpr (beq_iff_eq.mp hempty)
      split
      next hangle =>
        rw [if_pos hangle] at h
        split
        next hname =>
          rw [if_pos hname] at h
          exact absurd h hword
        next hname =>
          rw [if_neg hname] at h
          exact standsOn_nameInFrontOfAngles h
      next hangle =>
        rw [if_neg hangle] at h
        exact absurd h hword
  next hword =>
    rw [beq_iff_eq] at hword
    split
    · split
      next hbefore =>
        -- The two words of the operator stand one behind the other.
        refine standsOn_wordBefore ?_
        rw [beq_iff_eq.mp hbefore]
        decide
      · exact standsOn_wordBefore hword
    · exact standsOn_wordBefore hword

end Word

end Lines

end BracketLint
