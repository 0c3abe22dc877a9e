import Mathlib.Data.List.Basic
import BracketLint.Proofs.Text.Pieces

/-!
Writing at the end of a line of a text. What is written stands in front of the line end, which is a
line feed or a carriage return with a line feed, or at the end of the text; it becomes the end of the
line, and no other line changes.
-/

namespace BracketLint.Bytes

/-- Whether a text starts with the end of a line. -/
def startsWithLineEnd : Bytes → Bool
  | [] => false
  | b :: rest =>
    b == Ascii.lineFeed || (b == Ascii.carriageReturn && rest.head? == some Ascii.lineFeed)

/-- The text with some bytes written at the end of the line with a number, counted from 0. -/
def appendToLine (added : Bytes) : Nat → Bytes → Bytes
  | 0, [] => added
  | _ + 1, [] => []
  | 0, b :: rest =>
    if startsWithLineEnd (b :: rest) then added ++ b :: rest
    else b :: appendToLine added 0 rest
  | index + 1, b :: rest =>
    b :: appendToLine added (if b == Ascii.lineFeed then index else index + 1) rest

theorem lines_lineFeed (rest : Bytes) : lines (Ascii.lineFeed :: rest) = [] :: lines rest := by
  obtain ⟨first, others, hrest⟩ := List.exists_cons_of_ne_nil (splitOnLineFeed_ne_nil rest)
  rw [lines, splitOnLineFeed, if_pos (beq_self_eq_true _), lines, hrest]
  rfl

theorem lines_carriageReturn (rest : Bytes) :
    lines (Ascii.carriageReturn :: Ascii.lineFeed :: rest) = [] :: lines rest := by
  obtain ⟨first, others, hrest⟩ := List.exists_cons_of_ne_nil (splitOnLineFeed_ne_nil rest)
  have hsplit : splitOnLineFeed (Ascii.carriageReturn :: Ascii.lineFeed :: rest) =
      [Ascii.carriageReturn] :: splitOnLineFeed rest := rfl
  rw [lines, hsplit, lines, hrest]
  rfl

theorem dropCarriageReturn_cons_cons (b c : UInt8) (rest : Bytes) :
    dropCarriageReturn (b :: c :: rest) = b :: dropCarriageReturn (c :: rest) := by
  unfold dropCarriageReturn endsIn
  rw [List.getLast?_cons_cons]
  split <;> rfl

/-- A byte that starts no line end is the first one of the first line. -/
theorem lines_cons {b : UInt8} {rest : Bytes} (h : startsWithLineEnd (b :: rest) = false) :
    lines (b :: rest) = consToFirst b (lines rest) := by
  rw [startsWithLineEnd, Bool.or_eq_false_iff] at h
  obtain ⟨hfeed, hreturn⟩ := h
  have hb : ¬(b == Ascii.lineFeed) = true := Bool.eq_false_iff.mp hfeed
  cases rest with
  | nil =>
    rw [lines, splitOnLineFeed, if_neg hb]
    rfl
  | cons c rest =>
    by_cases hc : c = Ascii.lineFeed
    · subst hc
      have hfeed' : endsIn [b] Ascii.lineFeed = false := hfeed
      have hreturn' : endsIn [b] Ascii.carriageReturn = false := by
        rw [List.head?_cons, beq_self_eq_true, Bool.and_true] at hreturn
        exact hreturn
      have hfront : lines [b] = [[b]] := by
        rw [lines, splitOnLineFeed, if_neg hb]
        rfl
      rw [lines_lineFeed, ← List.singleton_append,
        lines_append_lineFeed (List.cons_ne_nil _ _) hfeed' hreturn', hfront]
      rfl
    · have hc' : ¬(c == Ascii.lineFeed) = true := by rwa [beq_iff_eq]
      obtain ⟨first, others, hrest⟩ := List.exists_cons_of_ne_nil (splitOnLineFeed_ne_nil rest)
      rw [lines, splitOnLineFeed, if_neg hb, lines, splitOnLineFeed, if_neg hc', hrest]
      simp only [consToFirst]
      cases others with
      | nil => rfl
      | cons next others =>
        rw [linesOfPieces, dropCarriageReturn_cons_cons, linesOfPieces]

theorem exists_lines_of_startsWithLineEnd {rest : Bytes} (h : startsWithLineEnd rest = true) :
    ∃ others, lines rest = [] :: others := by
  cases rest with
  | nil => cases h
  | cons b rest =>
    rw [startsWithLineEnd, Bool.or_eq_true, Bool.and_eq_true, beq_iff_eq, beq_iff_eq] at h
    rcases h with rfl | ⟨rfl, hfeed⟩
    · exact ⟨_, lines_lineFeed rest⟩
    · obtain ⟨rest, rfl⟩ := List.head?_eq_some_iff.mp (beq_iff_eq.mp hfeed)
      exact ⟨_, lines_carriageReturn rest⟩

theorem exists_lines_cons (b : UInt8) (rest : Bytes) :
    ∃ line others, lines (b :: rest) = line :: others := by
  by_cases h : startsWithLineEnd (b :: rest) = true
  · exact ⟨[], exists_lines_of_startsWithLineEnd h⟩
  · rw [lines_cons (Bool.eq_false_iff.mpr h)]
    cases lines rest with
    | nil => exact ⟨_, _, rfl⟩
    | cons line others => exact ⟨_, _, rfl⟩

theorem lines_append_of_lines {line rest : Bytes} {others : List Bytes}
    (hfeed : Ascii.lineFeed ∉ line) (hreturn : endsIn line Ascii.carriageReturn = false)
    (hrest : lines rest = [] :: others) : lines (line ++ rest) = line :: others := by
  induction line with
  | nil => exact hrest
  | cons b line ih =>
    rw [List.mem_cons, not_or] at hfeed
    have hstart : startsWithLineEnd (b :: (line ++ rest)) = false := by
      rw [startsWithLineEnd, Bool.or_eq_false_iff, beq_eq_false_iff_ne]
      refine ⟨Ne.symm hfeed.1, ?_⟩
      cases line with
      | nil =>
        have hlast : (b == Ascii.carriageReturn) = false := hreturn
        rw [hlast, Bool.false_and]
      | cons c line =>
        have hc : (c == Ascii.lineFeed) = false := by
          rw [beq_eq_false_iff_ne]
          rintro rfl
          exact hfeed.2 List.mem_cons_self
        rw [List.cons_append, List.head?_cons, Option.some_beq_some, hc, Bool.and_false]
    have hreturn' : endsIn line Ascii.carriageReturn = false := by
      cases line with
      | nil => rfl
      | cons c line => rwa [endsIn, List.getLast?_cons_cons] at hreturn
    rw [List.cons_append, lines_cons hstart, ih hfeed.2 hreturn']
    rfl

/-- What can be written at the end of a line without ending it. -/
structure IsLineTail (added : Bytes) : Prop where
  ne_nil : added ≠ []
  not_mem : Ascii.lineFeed ∉ added
  endsIn_eq : endsIn added Ascii.carriageReturn = false

namespace IsLineTail

variable {added : Bytes} (h : IsLineTail added)
include h

theorem head?_ne (rest : Bytes) : (added ++ rest).head? ≠ some Ascii.lineFeed := by
  obtain ⟨b, added', rfl⟩ := List.exists_cons_of_ne_nil h.ne_nil
  rw [List.cons_append, List.head?_cons]
  intro hb
  exact h.not_mem (Option.some.inj hb ▸ List.mem_cons_self)

theorem lines_eq : lines added = [added] := by
  have hsplit {bytes : Bytes} (hmem : Ascii.lineFeed ∉ bytes) : splitOnLineFeed bytes = [bytes] := by
    induction bytes with
    | nil => rfl
    | cons b bytes ih =>
      rw [List.mem_cons, not_or] at hmem
      rw [splitOnLineFeed, if_neg (by rw [beq_iff_eq]; exact Ne.symm hmem.1), ih hmem.2]
      rfl
  rw [lines, hsplit h.not_mem, linesOfPieces, if_neg (by simpa using h.ne_nil)]

theorem head?_appendToLine {index : Nat} {bytes : Bytes}
    (hhead : (appendToLine added index bytes).head? = some Ascii.lineFeed) :
    bytes.head? = some Ascii.lineFeed := by
  cases bytes with
  | nil =>
    cases index with
    | zero =>
      rw [appendToLine, ← List.append_nil added] at hhead
      exact absurd hhead (h.head?_ne [])
    | succ index => cases hhead
  | cons b bytes =>
    cases index with
    | zero =>
      rw [appendToLine] at hhead
      split at hhead
      · exact absurd hhead (h.head?_ne _)
      · exact hhead
    | succ index => exact hhead

theorem startsWithLineEnd_cons {b : UInt8} {index : Nat} {bytes : Bytes}
    (hstart : startsWithLineEnd (b :: bytes) = false) :
    startsWithLineEnd (b :: appendToLine added index bytes) = false := by
  rw [startsWithLineEnd, Bool.or_eq_false_iff] at hstart ⊢
  refine ⟨hstart.1, ?_⟩
  rw [Bool.and_eq_false_iff] at hstart ⊢
  apply hstart.2.imp_right
  intro hhead
  rw [beq_eq_false_iff_ne] at hhead ⊢
  exact fun hnew => hhead (h.head?_appendToLine hnew)

/-- What is written at the end of a line becomes the end of the line, and the other lines stay as they
are. -/
theorem lines_appendToLine {index : Nat} {bytes : Bytes} (hindex : index < (lines bytes).length) :
    lines (appendToLine added index bytes) = (lines bytes).modify index (· ++ added) := by
  -- Along the text, with the number of lines still to pass in front of the one to write on.
  induction bytes generalizing index with
  | nil => cases hindex
  | cons b bytes ih =>
    cases index with
    | zero =>
      rw [appendToLine]
      by_cases hend : startsWithLineEnd (b :: bytes) = true
      · obtain ⟨others, hothers⟩ := exists_lines_of_startsWithLineEnd hend
        rw [if_pos hend, lines_append_of_lines h.not_mem h.endsIn_eq hothers, hothers]
        rfl
      have hstart := Bool.eq_false_iff.mpr hend
      rw [if_neg hend, lines_cons (h.startsWithLineEnd_cons hstart), lines_cons hstart]
      cases bytes with
      | nil =>
        rw [appendToLine, h.lines_eq]
        rfl
      | cons c bytes =>
        obtain ⟨line, others, hlines⟩ := exists_lines_cons c bytes
        rw [ih (by rw [hlines]; exact Nat.zero_lt_succ _), hlines]
        rfl
    | succ index =>
      rw [appendToLine]
      by_cases hb : b = Ascii.lineFeed
      · subst hb
        rw [lines_lineFeed] at hindex
        rw [if_pos (beq_self_eq_true _), lines_lineFeed, lines_lineFeed,
          ih (Nat.lt_of_succ_lt_succ hindex)]
        rfl
      rw [if_neg (by rwa [beq_iff_eq])]
      by_cases hend : startsWithLineEnd (b :: bytes) = true
      · -- The line feed behind a carriage return ends the same line.
        rw [startsWithLineEnd, Bool.or_eq_true, Bool.and_eq_true, beq_iff_eq, beq_iff_eq,
          beq_iff_eq] at hend
        obtain ⟨rfl, hfeed⟩ := hend.resolve_left hb
        obtain ⟨rest, rfl⟩ := List.head?_eq_some_iff.mp hfeed
        rw [lines_carriageReturn] at hindex ⊢
        rw [lines_lineFeed] at ih
        rw [← ih hindex, appendToLine, if_pos (beq_self_eq_true _), lines_carriageReturn,
          lines_lineFeed]
      · have hstart := Bool.eq_false_iff.mpr hend
        rw [lines_cons hstart] at hindex
        rw [lines_cons (h.startsWithLineEnd_cons hstart), lines_cons hstart]
        cases hlines : lines bytes with
        | nil =>
          rw [hlines] at hindex
          cases Nat.lt_of_succ_lt_succ hindex
        | cons line others =>
          rw [hlines] at hindex ih
          rw [ih hindex]
          rfl

end IsLineTail

section Mark

theorem dropByteOrderMark_of_ne {bytes : Bytes} (h : ∀ rest, bytes ≠ 0xEF :: 0xBB :: 0xBF :: rest) :
    dropByteOrderMark bytes = bytes := by
  unfold dropByteOrderMark
  split
  · next a b c rest =>
    rw [if_neg]
    simp only [Bool.and_eq_true, beq_iff_eq]
    rintro ⟨⟨rfl, rfl⟩, rfl⟩
    exact h rest rfl
  · rfl

variable {a : UInt8} (ha : a < 0x80) (added : Bytes)
include ha

/-- A byte that is no ASCII in front of the new text stood in front of the old one. -/
theorem exists_of_appendToLine_eq_cons {c : UInt8} (hc : 0x80 ≤ c) {index : Nat}
    {bytes rest : Bytes} (h : appendToLine (a :: added) index bytes = c :: rest) :
    ∃ index' bytes', bytes = c :: bytes' ∧ rest = appendToLine (a :: added) index' bytes' := by
  have hne : a ≠ c := by
    rintro rfl
    exact UInt8.not_lt.mpr hc ha
  cases bytes with
  | nil =>
    cases index with
    | zero => exact absurd (List.cons_eq_cons.mp h).1 hne
    | succ index => cases h
  | cons b bytes =>
    cases index with
    | zero =>
      rw [appendToLine] at h
      split at h
      · exact absurd (List.cons_eq_cons.mp h).1 hne
      · obtain ⟨rfl, rfl⟩ := List.cons_eq_cons.mp h
        exact ⟨0, bytes, rfl, rfl⟩
    | succ index =>
      obtain ⟨rfl, rfl⟩ := List.cons_eq_cons.mp h
      exact ⟨_, bytes, rfl, rfl⟩

/-- A byte order mark in front of a text belongs to no line. -/
theorem dropByteOrderMark_appendToLine (index : Nat) (bytes : Bytes) :
    dropByteOrderMark (appendToLine (a :: added) index bytes) =
      appendToLine (a :: added) index (dropByteOrderMark bytes) := by
  by_cases hmark : ∃ rest, bytes = 0xEF :: 0xBB :: 0xBF :: rest
  · obtain ⟨rest, rfl⟩ := hmark
    have hpass : appendToLine (a :: added) index (0xEF :: 0xBB :: 0xBF :: rest) =
        0xEF :: 0xBB :: 0xBF :: appendToLine (a :: added) index rest := by
      cases index <;> rfl
    rw [hpass]
    rfl
  · -- Three bytes that are no ASCII cannot come from the new part.
    have hnew : ∀ rest, appendToLine (a :: added) index bytes ≠ 0xEF :: 0xBB :: 0xBF :: rest := by
      intro rest heq
      obtain ⟨index₁, bytes₁, rfl, heq₁⟩ :=
        exists_of_appendToLine_eq_cons ha added (by decide) heq
      obtain ⟨index₂, bytes₂, rfl, heq₂⟩ :=
        exists_of_appendToLine_eq_cons ha added (by decide) heq₁.symm
      obtain ⟨index₃, bytes₃, rfl, -⟩ :=
        exists_of_appendToLine_eq_cons ha added (by decide) heq₂.symm
      exact hmark ⟨_, rfl⟩
    rw [dropByteOrderMark_of_ne hnew, dropByteOrderMark_of_ne (fun rest h => hmark ⟨rest, h⟩)]

end Mark

end BracketLint.Bytes
