import Mathlib.Data.List.TakeWhile
import BracketLint.Proofs.Group.Names

/-!
The texts of words and names. A word in front of a bracket is made of the bytes of names and operators,
so it holds no quote and no line feed. A name can hold whatever a line holds, but no line feed.
-/

namespace BracketLint

namespace Bytes

theorem lineFeed_not_mem_splitOnLineFeed {bytes piece : Bytes}
    (h : piece ∈ splitOnLineFeed bytes) : Ascii.lineFeed ∉ piece := by
  induction bytes generalizing piece with
  | nil =>
    rw [splitOnLineFeed, List.mem_singleton] at h
    rw [h]
    exact List.not_mem_nil
  | cons b rest ih =>
    rw [splitOnLineFeed] at h
    split_ifs at h with hb
    · rcases List.mem_cons.mp h with rfl | h
      · exact List.not_mem_nil
      · exact ih h
    · have hne : Ascii.lineFeed ≠ b := fun heq => hb (beq_iff_eq.mpr heq.symm)
      cases hpieces : splitOnLineFeed rest with
      | nil => exact absurd hpieces (splitOnLineFeed_ne_nil rest)
      | cons first pieces =>
        rw [hpieces, consToFirst] at h
        rw [hpieces] at ih
        rcases List.mem_cons.mp h with rfl | h
        · exact List.not_mem_cons_of_ne_of_not_mem hne (ih List.mem_cons_self)
        · exact ih (List.mem_cons_of_mem _ h)

/-- A line is the front of a piece between line feeds. -/
theorem exists_prefix_of_mem_linesOfPieces {pieces : List Bytes} {line : Bytes}
    (h : line ∈ linesOfPieces pieces) : ∃ piece ∈ pieces, line <+: piece := by
  have hdrop (piece : Bytes) : dropCarriageReturn piece <+: piece := by
    rw [dropCarriageReturn]
    split_ifs
    · exact List.dropLast_prefix piece
    · exact List.prefix_rfl
  fun_induction linesOfPieces pieces with
  | case1 => cases h
  | case2 => cases h
  | case3 last _ =>
    exact ⟨last, List.mem_singleton_self last, List.mem_singleton.mp h ▸ List.prefix_rfl⟩
  | case4 piece next pieces ih =>
    rcases List.mem_cons.mp h with rfl | h
    · exact ⟨piece, List.mem_cons_self, hdrop piece⟩
    · obtain ⟨other, hother, hfront⟩ := ih h
      exact ⟨other, List.mem_cons_of_mem _ hother, hfront⟩

theorem lineFeed_not_mem_lines {bytes line : Bytes} (h : line ∈ lines bytes) :
    Ascii.lineFeed ∉ line := by
  obtain ⟨piece, hpiece, hfront⟩ := exists_prefix_of_mem_linesOfPieces h
  exact fun hmem => lineFeed_not_mem_splitOnLineFeed hpiece (hfront.subset hmem)

end Bytes

/-- A text without quotes and line feeds. -/
def IsPlainText (text : String) : Prop := '"' ∉ text.toList ∧ '\n' ∉ text.toList

theorem isPlainText_empty : IsPlainText "" := ⟨List.not_mem_nil, List.not_mem_nil⟩

theorem IsPlainText.append {s t : String} (hs : IsPlainText s) (ht : IsPlainText t) :
    IsPlainText (s ++ t) := by
  rw [IsPlainText, String.toList_append, List.mem_append, List.mem_append]
  exact ⟨not_or.mpr ⟨hs.1, ht.1⟩, not_or.mpr ⟨hs.2, ht.2⟩⟩

theorem isPlainText_toWord {bytes : Bytes}
    (h : ∀ b ∈ bytes, b ≠ Ascii.doubleQuote ∧ b ≠ Ascii.lineFeed) :
    IsPlainText (Bytes.toWord bytes) := by
  have hbyte {b c : UInt8} (heq : Char.ofNat b.toNat = Char.ofNat c.toNat) : b = c := by
    have hvalid (d : UInt8) : (Char.ofNat d.toNat).toNat = d.toNat := by
      rw [Char.ofNat, dif_pos (.inl (d.toNat_lt.trans (by decide)))]
      rfl
    have hnumber := congrArg Char.toNat heq
    rw [hvalid, hvalid] at hnumber
    exact UInt8.toNat_inj.mp hnumber
  rw [IsPlainText, Bytes.toWord, String.toList_ofList, List.mem_map, List.mem_map]
  constructor
  · rintro ⟨b, hb, heq⟩
    exact (h b hb).1 (hbyte (c := Ascii.doubleQuote) heq)
  · rintro ⟨b, hb, heq⟩
    exact (h b hb).2 (hbyte (c := Ascii.lineFeed) heq)

namespace Lines

variable {lines : Lines}

/-- The bytes of a name are neither quotes nor line feeds. -/
theorem isPlainText_slice {text : Bytes} {first last : Nat}
    (h : ∀ k, first ≤ k → k < last → isNameByteAt text k = true) :
    IsPlainText (Bytes.toWord (slice text first last)) := by
  apply isPlainText_toWord
  intro b hb
  obtain ⟨k, hfirst, hlast, hk⟩ := exists_of_mem_slice hb
  obtain ⟨c, hc, hname⟩ := exists_of_isNameByteAt (h k hfirst hlast)
  obtain rfl := Option.some.inj (hc.symm.trans hk)
  rcases hname with rfl | hword
  · decide
  · constructor
    · rintro rfl
      cases hword
    · rintro rfl
      cases hword

theorem isPlainText_wordBefore (p : Place) : IsPlainText (lines.wordBefore p).text := by
  rw [wordBefore]
  dsimp only
  split_ifs with hnone
  · exact isPlainText_empty
  · rw [Bool.or_eq_true, not_or, Bool.not_eq_true', Bool.not_eq_false] at hnone
    cases hlast : lines.skipSpaceBack p with
    | front =>
      rw [hlast] at hnone
      exact absurd rfl hnone.1
    | on line column =>
      rw [hlast] at hnone
      exact isPlainText_slice fun k => isNameByteAt_of_lt_succ hnone.2

theorem isPlainText_nameInFrontOfAngles (angles parens : Nat) (p : Place) :
    IsPlainText (lines.nameInFrontOfAngles angles parens p).text := by
  fun_induction nameInFrontOfAngles lines angles parens p
  case case3 => exact isPlainText_wordBefore _
  case case6 | case8 | case10 => exact isPlainText_empty
  case case1 ih | case2 ih | case4 ih | case5 ih | case7 ih | case9 ih => exact ih

theorem isPlainText_operatorName? {opened : Place} {word : Word}
    (h : lines.operatorName? opened = some word) : IsPlainText word.text := by
  have hoperator : ∀ b ∈ operatorBytes, b ≠ Ascii.doubleQuote ∧ b ≠ Ascii.lineFeed := by
    decide +kernel
  rw [operatorName?] at h
  split_ifs at h
  cases h
  have hkeyword : IsPlainText "operator" := ⟨by decide, by decide⟩
  refine hkeyword.append (isPlainText_toWord fun b hb => ?_)
  rw [List.mem_reverse] at hb
  exact hoperator b (List.contains_iff_mem.mp (List.mem_takeWhile_imp hb))

theorem isPlainText_wordInFrontOf (shape : Shape) (opened : Place) :
    IsPlainText (lines.wordInFrontOf shape opened).text := by
  have hkeyword : IsPlainText "operator " := ⟨by decide, by decide⟩
  have hword : IsPlainText (lines.wordBefore (lines.prev opened)).text := isPlainText_wordBefore _
  rw [wordInFrontOf]
  dsimp only
  by_cases hempty : ((lines.wordBefore (lines.prev opened)).text == "") = true
  · rw [if_pos hempty]
    cases hoperator : lines.operatorName? opened with
    | some operator => exact isPlainText_operatorName? hoperator
    | none =>
      dsimp only
      split_ifs
      · exact hword
      · exact isPlainText_nameInFrontOfAngles 0 0 _
      · exact hword
  · rw [if_neg hempty]
    split_ifs
    · exact hkeyword.append hword
    · exact hword
    · exact hword

end Lines

namespace Analysis

variable (source : Bytes) (kind : FileKind) (options : ScrubOptions)

theorem lineFeed_not_mem_raw (line : Nat) :
    Ascii.lineFeed ∉ (ofSource source kind options).lines.raw line := by
  cases line with
  | zero => exact List.not_mem_nil
  | succ index =>
    change Ascii.lineFeed ∉ (Lines.ofRawLines _ kind options).1.raw (index + 1)
    rw [Lines.raw_ofRawLines]
    cases hraw : (Bytes.lines (Bytes.dropByteOrderMark source))[index]? with
    | none => exact List.not_mem_nil
    | some raw => exact Bytes.lineFeed_not_mem_lines (List.mem_of_getElem? hraw)

theorem lineFeed_not_mem_text (line : Nat) :
    Ascii.lineFeed ∉ (ofSource source kind options).lines.text line := by
  intro hmem
  obtain ⟨column, hcolumn⟩ := List.mem_iff_getElem?.mp hmem
  have hkeeps : KeepsColumns ((ofSource source kind options).lines.raw line)
      ((ofSource source kind options).lines.text line) := Lines.keepsColumns_ofRawLines ..
  rcases hkeeps.byte_eq column _ hcolumn with hraw | hblanking
  · exact lineFeed_not_mem_raw source kind options line (List.mem_of_getElem? hraw)
  · rcases hblanking with hblank | hblank | hblank <;> cases hblank

theorem name?_ofSource (id : Nat) : (ofSource source kind options).name? id =
    (Verdict.ofGroup (ofSource source kind options).lines
      (ofSource source kind options).tree id).name := by
  obtain ⟨hcoherent, hall⟩ := Record.coherent_classifyAll (ofSource source kind options).lines
  exact hcoherent.name?_eq hall id

/-- No name of a group holds a line feed. -/
theorem lineFeed_not_mem_name? {id : Nat} {group : Group} {name : String}
    (hgroup : (ofSource source kind options).tree.group? id = some group)
    (hname : (ofSource source kind options).name? id = some name) : '\n' ∉ name.toList := by
  rw [name?_ofSource] at hname
  rcases Nat.eq_zero_or_pos id with rfl | hpos
  · have hroot := Record.name_build_zero (ofSource source kind options).lines
    cases hroot.symm.trans hname
  obtain ⟨-, -, hreads | ⟨-, index, first, last, -, hquoted, -⟩⟩ :=
    (GroupTree.classified_build _ kind options hpos hgroup).of_name name hname
  · -- The name is a stretch of a scrubbed line.
    obtain ⟨line, column, -, -, hfront⟩ := hreads
    rw [← Bytes.decode_ofString]
    apply Bytes.lineFeed_not_mem_decode
    intro hmem
    exact lineFeed_not_mem_text source kind options line
      ((List.drop_suffix _ _).subset (hfront.subset hmem))
  · -- The name is a literal as it was written.
    rw [hquoted.name_eq, Bytes.toText, String.toList_ofList]
    apply Bytes.lineFeed_not_mem_decode
    intro hmem
    obtain ⟨k, -, -, hk⟩ := Lines.exists_of_mem_slice hmem
    exact lineFeed_not_mem_raw source kind options (index + 1) (List.mem_of_getElem? hk)

end Analysis
end BracketLint
