import Mathlib.Data.List.Forall2
import BracketLint.Proofs.Line.CommentBehind
import BracketLint.Proofs.Lines.LineComments

/-!
Where scrubbing reports. A tab, a closing mark and a directive are reported in front of their first
byte, an open literal and an open comment at the end of their line, and a line that is too long at the
column that has the number of the limit. The passes count the columns on the text that is left of a
line, but that moves no column and loses only what stands behind the last one.
-/

namespace BracketLint

/-- Where on a line of raw text scrubbing reports a cause, with a limit for the length of lines. -/
def Issue.IsAt (limit : Nat) (raw : Bytes) (column : Nat) : Issue → Prop
  | tab => raw[column]? = some Ascii.tab
  | strayCommentEnd => HasMark raw Ascii.star Ascii.slash column
  | missingEndif _ => raw[column]? = some Ascii.hash
  | unterminatedLiteral _ | openComment => column = raw.length
  | longLine width most =>
    column = limit ∧ width = raw.characterCount ∧ most = limit ∧ limit < width
  | _ => False

theorem Issue.IsAt.le_length {issue : Issue} {limit : Nat} {raw : Bytes} {column : Nat}
    (h : issue.IsAt limit raw column) : column ≤ raw.length := by
  have hbyte {b : UInt8} (hb : raw[column]? = some b) : column ≤ raw.length :=
    Nat.le_of_lt (List.getElem?_eq_some_iff.mp hb).1
  cases issue with
  | tab | missingEndif _ => exact hbyte h
  | strayCommentEnd => exact hbyte h.1
  | unterminatedLiteral _ | openComment => exact Nat.le_of_eq h
  | longLine width most =>
    obtain ⟨rfl, rfl, -, hlt⟩ := h
    -- A line has as many bytes as characters, or more.
    exact Nat.le_trans (Nat.le_of_lt hlt) List.countP_le_length
  | _ => cases h

/-- A position stands on one of some lines at a column with a property, where the first line has the
number `index`. -/
def Place.OnLine (P : Bytes → Nat → Prop) (raws : List Bytes) (index : Nat) (p : Place) : Prop :=
  ∃ offset column raw, p = .on (index + offset) column ∧ raws[offset]? = some raw ∧ P raw column

/-- A position stands on one of some lines or right behind its end, where the first line has the
number `index`. -/
def Place.StandsOn (raws : List Bytes) (index : Nat) (p : Place) : Prop :=
  ∃ offset column raw, p = .on (index + offset) column ∧ raws[offset]? = some raw ∧
    column ≤ raw.length

namespace Place.OnLine

variable {P Q : Bytes → Nat → Prop} {raws : List Bytes} {index : Nat} {p : Place}

theorem head {raw : Bytes} {column : Nat} (h : P raw column) :
    OnLine P (raw :: raws) index (.on index column) :=
  ⟨0, column, raw, rfl, rfl, h⟩

theorem of_drop {count : Nat} (h : OnLine P (raws.drop count) (index + count) p) :
    OnLine P raws index p := by
  obtain ⟨offset, column, raw, rfl, hraw, hcolumn⟩ := h
  rw [List.getElem?_drop] at hraw
  exact ⟨count + offset, column, raw, by rw [Nat.add_assoc], hraw, hcolumn⟩

theorem tail {raw : Bytes} (h : OnLine P raws (index + 1) p) : OnLine P (raw :: raws) index p :=
  @of_drop _ _ _ _ 1 h

theorem imp (h : OnLine P raws index p)
    (himp : ∀ raw ∈ raws, ∀ column, P raw column → Q raw column) : OnLine Q raws index p := by
  obtain ⟨offset, column, raw, hp, hraw, hcolumn⟩ := h
  exact ⟨offset, column, raw, hp, hraw, himp raw (List.mem_of_getElem? hraw) column hcolumn⟩

/-- What a pass leaves of the lines stands in their columns. -/
theorem of_keepsColumns {texts : List Bytes} (hkeeps : List.Forall₂ KeepsColumns raws texts)
    (himp : ∀ {raw text column}, KeepsColumns raw text → Q text column → P raw column)
    (h : OnLine Q texts index p) : OnLine P raws index p := by
  obtain ⟨offset, column, text, rfl, htext, hcolumn⟩ := h
  obtain ⟨hlt, rfl⟩ := List.getElem?_eq_some_iff.mp htext
  obtain ⟨hlength, hall⟩ := List.forall₂_iff_get.mp hkeeps
  have hlt' : offset < raws.length := hlength ▸ hlt
  exact ⟨offset, column, raws[offset], rfl, List.getElem?_eq_getElem hlt',
    himp (hall offset hlt' hlt) hcolumn⟩

end Place.OnLine

section Scan

variable {mode : ScanMode} {before rest : Bytes} {column : Nat}

/-- The scan reports the closing marks that it reads as code. -/
theorem hasMark_of_mem_strays (h : column ∈ (scanFrom mode before rest).strays) :
    ∃ offset, column = before.length + offset ∧ HasMark rest Ascii.star Ascii.slash offset := by
  induction rest generalizing mode before with
  | nil => cases mode <;> cases h
  | cons b rest ih =>
    rw [scanFrom_cons] at h
    have hrest {mode : ScanMode} {written : UInt8}
        (h : column ∈ (scanFrom mode (written :: before) rest).strays) :
        ∃ offset, column = before.length + offset ∧
          HasMark (b :: rest) Ascii.star Ascii.slash offset := by
      obtain ⟨offset, hcolumn, hmark⟩ := ih h
      refine ⟨offset + 1, ?_, hmark⟩
      rw [hcolumn, List.length_cons, Nat.add_right_comm, Nat.add_assoc]
    split at h
    · cases h
    next step hstep =>
      split at h
      next hstray =>
        rcases List.mem_cons.mp h with rfl | h
        · exact ⟨0, rfl, (hasMark_zero_iff b rest).mpr (ScanMode.of_step?_stray hstep hstray)⟩
        · exact hrest h
      · exact hrest h

/-- Where the scan leaves something open, it cuts nothing off. -/
theorem length_text_of_carry_ne {raw : Bytes} (h : (scanFrom mode [] raw).mode.carry ≠ .code) :
    (scanFrom mode [] raw).text.length = raw.length := by
  have hcomment : (scanFrom mode [] raw).comment = none := by
    by_contra hne
    obtain ⟨⟨column, body⟩, hscan⟩ := Option.ne_none_iff_exists'.mp hne
    obtain ⟨-, -, -, -, -, hmode⟩ := hasMark_of_comment_scanFrom hscan
    rw [hmode] at h
    exact h rfl
  rw [length_text_scanFrom hcomment, List.length_nil, Nat.zero_add]

end Scan

/-- The directive that starts a dead region stands behind the blanks in front of it. -/
theorem getElem?_of_regionOpener? {raw : Bytes} {opener : RegionOpener}
    (h : regionOpener? raw = some opener) :
    raw[raw.length - (Bytes.trimStart raw).length]? = some Ascii.hash := by
  have hdirective : Directive.ofLine? raw ≠ none := by
    intro hnone
    rw [regionOpener?, hnone] at h
    cases h
  obtain ⟨blanks, hblanks⟩ := Bytes.trimStart_suffix raw
  have hlength : raw.length - (Bytes.trimStart raw).length = blanks.length := by
    rw [← hblanks, List.length_append, hblanks, Nat.add_sub_cancel]
  rw [Directive.ofLine?] at hdirective
  rw [hlength]
  split at hdirective
  · exact absurd rfl hdirective
  next b rest hrest =>
    split at hdirective
    next hhash =>
      rw [← hblanks, hrest, List.getElem?_append_right (Nat.le_refl _), Nat.sub_self,
        List.getElem?_cons_zero, beq_iff_eq.mp hhash]
    · exact absurd rfl hdirective

/-- The byte behind the longest stretch without some byte is that byte. -/
theorem getElem?_length_takeWhile_ne {raw : Bytes} {b : UInt8}
    (h : (raw.takeWhile (· != b)).length < raw.length) :
    raw[(raw.takeWhile (· != b)).length]? = some b := by
  induction raw with
  | nil => cases h
  | cons c raw ih =>
    rw [List.takeWhile_cons] at h ⊢
    split at h
    next hne =>
      rw [if_pos hne, List.length_cons, List.getElem?_cons_succ]
      exact ih (Nat.lt_of_succ_lt_succ h)
    next heq =>
      rw [bne_iff_ne, not_not] at heq
      rw [heq, bne_self_eq_false]
      rfl

namespace Lines

open Place

variable {limit index : Nat} {d : Diagnostic}

theorem onLine_of_mem_hygieneFrom {raws : List Bytes}
    (h : d ∈ Line.hygieneFrom limit index raws) : d.place.OnLine (d.issue.IsAt limit) raws index := by
  induction raws generalizing index with
  | nil => cases h
  | cons raw raws ih =>
    rcases List.mem_append.mp h with h | h
    · rcases List.mem_append.mp h with h | h
      · split at h
        next hlt =>
          obtain rfl := List.mem_singleton.mp h
          exact .head (getElem?_length_takeWhile_ne hlt)
        · cases h
      · split at h
        next hlt =>
          obtain rfl := List.mem_singleton.mp h
          exact .head ⟨rfl, rfl, rfl, hlt⟩
        · cases h
    · exact (ih h).tail

theorem onLine_of_mem_blankLine {carry : Carry} {raw : Bytes} {raws : List Bytes}
    (h : d ∈ (blankLine index carry raw).diagnostics) :
    d.place.OnLine (d.issue.IsAt limit) (raw :: raws) index := by
  have hstrays (h : d ∈ (scanFrom carry.mode [] raw).strays.map fun column =>
      ⟨.on index column, .strayCommentEnd⟩) : d.place.OnLine (d.issue.IsAt limit) (raw :: raws) index := by
    obtain ⟨column, hcolumn, rfl⟩ := List.mem_map.mp h
    obtain ⟨offset, hoffset, hmark⟩ := hasMark_of_mem_strays hcolumn
    obtain rfl : column = offset := hoffset.trans (Nat.zero_add offset)
    exact .head hmark
  rw [blankLine] at h
  split at h
  · cases h
  unfold closeLine at h
  dsimp only at h
  split at h
  next quote hquote =>
    split at h
    · exact hstrays h
    · rcases List.mem_append.mp h with h | h
      · exact hstrays h
      · obtain rfl := List.mem_singleton.mp h
        exact .head (length_text_of_carry_ne (by simp [hquote]))
  · exact hstrays h

theorem onLine_of_mem_blankLines {carry : Carry} {raws : List Bytes}
    (h : d ∈ (blankLines index carry raws).flatMap (·.diagnostics)) :
    d.place.OnLine (d.issue.IsAt limit) raws index := by
  induction raws generalizing index carry with
  | nil => cases h
  | cons raw raws ih =>
    rw [blankLines, List.flatMap_cons, List.mem_append] at h
    rcases h with h | h
    · exact onLine_of_mem_blankLine h
    · exact (ih h).tail

/-- A line that ends in a comment keeps its length. -/
theorem length_text_blankLine {carry : Carry} {raw : Bytes}
    (h : (blankLine index carry raw).carry = .comment) :
    (blankLine index carry raw).text.length = raw.length := by
  rw [blankLine] at h ⊢
  split at h
  · split at h <;> cases h
  next hscanned =>
    rw [if_neg hscanned]
    unfold closeLine at h ⊢
    dsimp only at h ⊢
    split at h
    · split at h <;> cases h
    · have hcarry : (scanFrom carry.mode [] raw).mode.carry = .comment := h
      exact length_text_of_carry_ne (by simp [hcarry])

theorem onLine_of_mem_openCommentDiagnostic {raws : List Bytes}
    (h : d ∈ openCommentDiagnostic (blankLines 1 .code raws)) :
    d.place.OnLine (d.issue.IsAt limit) raws 1 := by
  rw [openCommentDiagnostic] at h
  split at h
  next last hlast =>
    split at h
    next hopen =>
      obtain rfl := List.mem_singleton.mp h
      rw [List.getLast?_eq_getElem?, length_blankLines] at hlast
      obtain ⟨hlt, -⟩ := List.getElem?_eq_some_iff.mp hlast
      rw [length_blankLines] at hlt ⊢
      have hraw := List.getElem?_eq_getElem hlt
      rw [getElem?_blankLines 1 .code hraw, Option.some_inj] at hlast
      subst hlast
      refine ⟨raws.length - 1, _, _, ?_, hraw, length_text_blankLine (beq_iff_eq.mp hopen)⟩
      rw [Nat.add_sub_cancel' (Nat.lt_of_le_of_lt (Nat.zero_le _) hlt)]
    · cases h
  · cases h

theorem onLine_of_mem_blankDeadRegions {lines : List Bytes}
    (h : d ∈ (blankDeadRegions index lines).2) :
    d.place.OnLine (fun raw column => raw[column]? = some Ascii.hash) lines index := by
  fun_induction blankDeadRegions index lines with
  | case1 => cases h
  | case2 index line rest _ lines diagnostics hrest ih =>
    rw [hrest] at ih
    exact (ih h).tail
  | case3 index line rest opener _ length _ lines diagnostics hrest ih =>
    rw [hrest] at ih
    exact (ih h).of_drop.tail
  | case4 index line rest opener hopener =>
    obtain rfl := List.mem_singleton.mp h
    exact .head (getElem?_of_regionOpener? hopener)

/-- What scrubbing reports stands on the lines of the file, where its cause is. -/
theorem onLine_of_mem_ofRawLines {raws : List Bytes} {kind : FileKind} {options : ScrubOptions}
    (h : d ∈ (ofRawLines raws kind options).2) :
    d.place.OnLine (d.issue.IsAt options.maxLineLength) raws 1 := by
  rcases List.mem_append.mp h with h | h
  · rcases List.mem_append.mp h with h | h
    · rcases List.mem_append.mp h with h | h
      · exact onLine_of_mem_hygieneFrom h
      · exact onLine_of_mem_blankLines h
    · exact onLine_of_mem_openCommentDiagnostic h
  · obtain ⟨opener, hissue⟩ := issue_of_mem_blankDeadRegions h
    rw [hissue]
    refine .of_keepsColumns (keepsColumns_trimmedTexts raws) ?_ (onLine_of_mem_blankDeadRegions h)
    -- Scrubbing writes no hash sign.
    intro raw text column hkeeps hbyte
    exact (hkeeps.byte_eq column _ hbyte).resolve_right (by unfold IsBlanking; decide)

theorem standsOn_of_mem_ofRawLines {raws : List Bytes} {kind : FileKind} {options : ScrubOptions}
    (h : d ∈ (ofRawLines raws kind options).2) : d.place.StandsOn raws 1 :=
  (onLine_of_mem_ofRawLines h).imp fun _ _ _ => Issue.IsAt.le_length

end Lines
end BracketLint
