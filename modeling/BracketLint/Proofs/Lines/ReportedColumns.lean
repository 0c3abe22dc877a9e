import BracketLint.Proofs.Lines.ReportedPlaces

/-!
The columns of what scrubbing reports, on lines with characters of several bytes. In front of a tab, a
mark or a directive and at the end of a line a character starts. A line that is too long is reported at
its limit, which counts characters where a column counts bytes, so the report stands at the first
character behind the limit only if all characters in front of it are ASCII.
-/

namespace BracketLint

/-- Whether a cause is the length of a line. -/
def Issue.isLongLine : Issue → Bool
  | longLine .. => true
  | _ => false

/-- Everything but the length of a line is reported between two characters. -/
theorem Issue.IsAt.isBoundary {issue : Issue} {limit : Nat} {raw : Bytes} {column : Nat}
    (h : issue.IsAt limit raw column) (hlong : issue.isLongLine = false) (htext : raw.IsText) :
    raw.IsBoundary column := by
  cases issue with
  | tab | missingEndif _ => exact htext.isBoundary_of_lt h (by decide)
  | strayCommentEnd => exact htext.isBoundary_of_lt h.1 (by decide)
  | unterminatedLiteral _ | openComment =>
    obtain rfl : column = raw.length := h
    exact htext.isBoundary_length
  | longLine _ _ => cases hlong
  | _ => cases h

namespace Lines

variable {d : Diagnostic} {limit index : Nat}

theorem mem_hygieneFrom {raws : List Bytes} {offset : Nat} {raw : Bytes}
    (hraw : raws[offset]? = some raw) (h : d ∈ Line.hygiene limit (index + offset) raw) :
    d ∈ Line.hygieneFrom limit index raws := by
  induction raws generalizing index offset with
  | nil => cases hraw
  | cons first raws ih =>
    rw [Line.hygieneFrom, List.mem_append]
    cases offset with
    | zero =>
      obtain rfl := Option.some.inj hraw
      exact .inl h
    | succ offset =>
      rw [← Nat.add_assoc, Nat.add_right_comm] at h
      exact .inr (ih hraw h)

theorem mem_ofRawLines_of_longLine {raws : List Bytes} {raw : Bytes} (kind : FileKind)
    (options : ScrubOptions) (hraw : raws[index]? = some raw)
    (hlong : options.maxLineLength < raw.characterCount) :
    ⟨.on (index + 1) options.maxLineLength, .longLine raw.characterCount options.maxLineLength⟩ ∈
      (ofRawLines raws kind options).2 := by
  refine List.mem_append_left _ (List.mem_append_left _ (List.mem_append_left _ ?_))
  apply mem_hygieneFrom hraw
  rw [Nat.add_comm]
  refine List.mem_append_right _ ?_
  rw [if_pos hlong]
  exact List.mem_singleton.mpr rfl

/-- What scrubbing reports stands between two characters of its line, except for lines that are too
long. Each of these is reported at the column with the number of the limit, and this is the column of
the first character behind the limit exactly if the characters in front of it are ASCII. -/
theorem scrub_reportedColumns (source : String) (kind : FileKind) (options : ScrubOptions) :
    let raws := Bytes.lines (Bytes.ofString source).dropByteOrderMark
    let found := (scrub (Bytes.ofString source) kind options).2
    let limit := options.maxLineLength
    (∀ d ∈ found, d.issue.isLongLine = false → d.place.OnLine Bytes.IsBoundary raws 1) ∧
      (∀ d, d ∈ found ∧ d.issue.isLongLine = true ↔ ∃ index raw, raws[index]? = some raw ∧
        limit < (Bytes.decode raw).length ∧
          d = ⟨.on (index + 1) limit, .longLine (Bytes.decode raw).length limit⟩) ∧
      ∀ raw ∈ raws, limit < (Bytes.decode raw).length →
        limit ≤ raw.length ∧ raw.IsBoundary (Bytes.columnBehind raw limit) ∧
          (limit = Bytes.columnBehind raw limit ↔
            ∀ c ∈ (Bytes.decode raw).take limit, c.toNat < 0x80) := by
  intro raws found limit
  have htext : ∀ raw ∈ raws, Bytes.IsText raw := fun raw =>
    Bytes.isText_of_mem_lines_ofString source
  have hat : ∀ d ∈ found, d.place.OnLine (d.issue.IsAt limit) raws 1 := fun d => onLine_of_mem_ofRawLines
  refine ⟨fun d hd hlong => ?_, fun d => ⟨?_, ?_⟩, fun raw hraw hlt => ⟨?_, ?_, ?_⟩⟩
  · exact (hat d hd).imp fun raw hraw column h => h.isBoundary hlong (htext raw hraw)
  · rintro ⟨hd, hlong⟩
    obtain ⟨index, column, raw, hplace, hraw, hcolumn⟩ := hat d hd
    obtain ⟨place, issue⟩ := d
    obtain rfl : place = .on (1 + index) column := hplace
    cases issue with
    | longLine width most =>
      obtain ⟨rfl, rfl, rfl, hlt⟩ := hcolumn
      rw [(htext raw (List.mem_of_getElem? hraw)).characterCount_eq] at hlt ⊢
      exact ⟨index, raw, hraw, hlt, by rw [Nat.add_comm]⟩
    | _ => cases hlong
  · rintro ⟨index, raw, hraw, hlt, rfl⟩
    rw [← (htext raw (List.mem_of_getElem? hraw)).characterCount_eq] at hlt ⊢
    refine ⟨?_, rfl⟩
    exact mem_ofRawLines_of_longLine kind options hraw hlt
  · rw [← (htext raw hraw).characterCount_eq] at hlt
    exact Nat.le_trans (Nat.le_of_lt hlt) List.countP_le_length
  · exact (htext raw hraw).isBoundary_columnBehind limit
  · exact Bytes.eq_columnBehind_iff (Nat.le_of_lt hlt)

/-- A line of two characters with two bytes each is reported inside of the first one, if one character
is allowed. -/
theorem scrub_longLine_not_isBoundary :
    let source := Bytes.ofString "éé"
    ⟨.on 1 1, .longLine 2 1⟩ ∈ (scrub source .implementation { maxLineLength := 1 }).2 ∧
      Bytes.lines source.dropByteOrderMark = [source] ∧ ¬source.IsBoundary 1 ∧
      Bytes.columnBehind source 1 = 2 := by
  intro source
  refine ⟨by decide +kernel, by decide +kernel, ?_, by decide +kernel⟩
  have htext : Bytes.IsText source := ⟨"éé", rfl⟩
  rw [htext.isBoundary_iff]
  rintro (hend | ⟨b, hb, hlead⟩)
  · revert hend
    decide
  · obtain rfl : 0xA9 = b := Option.some.inj hb
    cases hlead

end Lines
end BracketLint
