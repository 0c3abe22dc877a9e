import BracketLint.Proofs.Analysis.ReportedPlaces

/-!
The excerpts that violations are shown with. A location carries the offset of its position, counted
within the piece between line feeds that its line starts, and an excerpt counts again within the whole
text where the offset is missing. What a rule reports stands on a line or right behind its end, so the
two agree and neither is cut down to its bound.
-/

namespace BracketLint

namespace FileContext

variable (file : FileContext) {index column : Nat} {raw : Bytes}

/-- The offset of a position on a line is that of its line and its column in the text. -/
theorem offset_location_eq_offsetIn (hraw : (Bytes.lines file.content)[index]? = some raw)
    (hle : column ≤ raw.length) :
    let location := file.location (.on (index + 1) column)
    location.offset = Violation.offsetIn file.content location.line location.column ∧
      location.offset ≤ file.content.length := by
  obtain ⟨piece, hpiece, hstart, hoffset⟩ := file.offset_location hraw hle
  have hend : (file.location (.on (index + 1) column)).offset ≤ file.content.length := by
    have hbound := Bytes.lengthOfLines_take_add_le hpiece
    have hpieceLength := hstart.length_le
    rw [hoffset]
    omega
  refine ⟨?_, hend⟩
  have hmin := Nat.min_eq_left hend
  rw [hoffset] at hmin ⊢
  exact hmin.symm

end FileContext

namespace Violation

variable (v : Violation) {content : Bytes}

/-- Where the offset of a violation is that of its line and its column, the excerpt has it too. -/
theorem offset_excerpt
    (h : v.location.offset = offsetIn content v.location.line v.location.column) :
    (v.excerpt content).offset = v.location.offset := by
  rw [excerpt]
  dsimp only
  split
  · rfl
  · exact h.symm

theorem offset_add_length_excerpt_le (h : (v.excerpt content).offset ≤ content.length) :
    (v.excerpt content).offset + (v.excerpt content).length ≤ content.length := by
  have hlength : (v.excerpt content).length ≤ content.length - (v.excerpt content).offset :=
    Nat.min_le_right _ _
  omega

end Violation

/-- The excerpt of a violation that a rule reports starts at the offset of its location, which is that
of its line and its column, and ends within the text. -/
theorem Rule.excerpt_of_mem_check (rule : Rule) (path root : Path) (content : Bytes)
    (options : ScrubOptions) :
    let file := FileContext.ofFile path root content
    ∀ v ∈ rule.check file (Analysis.ofSource content file.kind options),
      let excerpt := v.excerpt file.content
      excerpt.offset = v.location.offset ∧
        excerpt.offset = Violation.offsetIn file.content v.location.line v.location.column ∧
        excerpt.offset + excerpt.length ≤ file.content.length := by
  intro file v hv excerpt
  obtain ⟨p, hlocation, index, column, raw, rfl, hraw, hle⟩ :=
    exists_place_of_mem_check (Analysis.standsOn_ofSource content file.kind options) hv
  rw [Nat.add_comm] at hlocation
  obtain ⟨hagree, hbound⟩ := file.offset_location_eq_offsetIn hraw hle
  rw [← hlocation] at hagree hbound
  have hoffset : excerpt.offset = v.location.offset := v.offset_excerpt hagree
  exact ⟨hoffset, hoffset.trans hagree, v.offset_add_length_excerpt_le (hoffset ▸ hbound)⟩

/-- A text behind a byte order mark, with a character of two bytes, a carriage return and a literal
that is open at the end. -/
def openLiteral : Bytes := [0xEF, 0xBB, 0xBF, 0xC3, 0xA9, 0x0D, 0x0A, 0x22]

/-- The literal is reported behind the last byte, which leaves no byte to mark. -/
theorem Rule.excerpt_of_mem_check_endOfFile :
    let file := FileContext.ofFile ⟨"/m.cpp"⟩ ⟨"/"⟩ openLiteral
    let v := ofDiagnostic (sourceHygiene false) file ⟨.on 2 1, .unterminatedLiteral .double⟩
    v ∈ (sourceHygiene false).check file (Analysis.ofSource openLiteral file.kind {}) ∧
      v.location.offset = file.content.length ∧
      let excerpt := v.excerpt file.content
      excerpt.offset = v.location.offset ∧
        excerpt.offset = Violation.offsetIn file.content v.location.line v.location.column ∧
        excerpt.offset + excerpt.length ≤ file.content.length := by
  intro file v
  have hscrub : ⟨.on 2 1, .unterminatedLiteral .double⟩ ∈
      (Lines.scrub openLiteral file.kind {}).2 := by
    decide +kernel
  have hmem : v ∈ (sourceHygiene false).check file (Analysis.ofSource openLiteral file.kind {}) := by
    refine List.mem_map_of_mem (List.mem_filter.mpr ⟨?_, rfl⟩)
    exact List.mem_append_left _ (List.mem_append_left _ hscrub)
  exact ⟨hmem, by decide +kernel, excerpt_of_mem_check _ _ _ openLiteral {} v hmem⟩

end BracketLint
