import Mathlib.Data.List.Basic
import BracketLint.Text.Bytes

/-!
Where the lines of a text stand in it. The pieces between line feeds, each with the line feed behind
it, are the text; a line is the front of its piece. A byte that ends no line belongs to one piece,
and the other pieces do not depend on it.
-/

namespace BracketLint.Bytes

theorem splitOnLineFeed_ne_nil (bytes : Bytes) : splitOnLineFeed bytes ≠ [] := by
  cases bytes with
  | nil => exact List.cons_ne_nil _ _
  | cons b rest =>
    rw [splitOnLineFeed]
    split
    · exact List.cons_ne_nil _ _
    · cases splitOnLineFeed rest <;> exact List.cons_ne_nil _ _

/-- The last piece of a text goes on with the first piece of what stands behind it. -/
theorem splitOnLineFeed_append (front : Bytes) :
    ∃ pieces last, splitOnLineFeed front = pieces ++ [last] ∧
      ∀ {behind first rest}, splitOnLineFeed behind = first :: rest →
        splitOnLineFeed (front ++ behind) = pieces ++ (last ++ first) :: rest := by
  induction front with
  | nil => exact ⟨[], [], rfl, fun h => h⟩
  | cons b front ih =>
    obtain ⟨pieces, last, hfront, happend⟩ := ih
    by_cases hb : b = Ascii.lineFeed
    · refine ⟨[] :: pieces, last, ?_, fun h => ?_⟩
      · rw [splitOnLineFeed, if_pos (beq_iff_eq.mpr hb), hfront]
        rfl
      · rw [List.cons_append, splitOnLineFeed, if_pos (beq_iff_eq.mpr hb), happend h]
        rfl
    · have hb' : ¬(b == Ascii.lineFeed) = true := by rwa [beq_iff_eq]
      cases pieces with
      | nil =>
        refine ⟨[], b :: last, ?_, fun h => ?_⟩
        · rw [splitOnLineFeed, if_neg hb', hfront]
          rfl
        · rw [List.cons_append, splitOnLineFeed, if_neg hb', happend h]
          rfl
      | cons piece pieces =>
        refine ⟨(b :: piece) :: pieces, last, ?_, fun h => ?_⟩
        · rw [splitOnLineFeed, if_neg hb', hfront]
          rfl
        · rw [List.cons_append, splitOnLineFeed, if_neg hb', happend h]
          rfl

theorem linesOfPieces_append (pieces : List Bytes) {rest : List Bytes} (h : rest ≠ []) :
    linesOfPieces (pieces ++ rest) = pieces.map dropCarriageReturn ++ linesOfPieces rest := by
  induction pieces with
  | nil => rfl
  | cons piece pieces ih =>
    obtain ⟨next, others, heq⟩ := List.exists_cons_of_ne_nil
      (List.append_ne_nil_of_right_ne_nil pieces h)
    rw [List.cons_append, heq, linesOfPieces, ← heq, ih]
    rfl

theorem dropCarriageReturn_append {b : UInt8} (hb : b ≠ Ascii.carriageReturn) (front tail : Bytes) :
    dropCarriageReturn (front ++ b :: tail) = front ++ b :: dropCarriageReturn tail := by
  cases tail with
  | nil =>
    have hend : endsIn (front ++ [b]) Ascii.carriageReturn = false := by
      simpa [endsIn] using hb
    rw [dropCarriageReturn, hend]
    rfl
  | cons c tail =>
    have hend : endsIn (front ++ b :: c :: tail) Ascii.carriageReturn =
        endsIn (c :: tail) Ascii.carriageReturn := by
      simp [endsIn]
    rw [dropCarriageReturn, dropCarriageReturn, hend]
    split
    · simp
    · rfl

/-- A byte that belongs to no line end stands on the line that the bytes in front of it leave
unfinished. The rest of that line and the other lines do not depend on it. -/
theorem lines_append_cons (front behind : Bytes) :
    ∃ pieces last tail rest, splitOnLineFeed front = pieces ++ [last] ∧
      ∀ b, b ≠ Ascii.lineFeed → b ≠ Ascii.carriageReturn →
        lines (front ++ b :: behind) =
          pieces.map dropCarriageReturn ++ (last ++ b :: tail) :: rest := by
  obtain ⟨pieces, last, hfront, happend⟩ := splitOnLineFeed_append front
  obtain ⟨first, others, hbehind⟩ := List.exists_cons_of_ne_nil (splitOnLineFeed_ne_nil behind)
  have hcons {b : UInt8} (hb : b ≠ Ascii.lineFeed) :
      splitOnLineFeed (b :: behind) = (b :: first) :: others := by
    rw [splitOnLineFeed, if_neg (by rwa [beq_iff_eq]), hbehind]
    rfl
  cases others with
  | nil =>
    refine ⟨pieces, last, first, [], hfront, fun b hb _ => ?_⟩
    rw [lines, happend (hcons hb), linesOfPieces_append _ (List.cons_ne_nil _ _), linesOfPieces,
      if_neg (by simp)]
  | cons next others =>
    refine ⟨pieces, last, dropCarriageReturn first, linesOfPieces (next :: others), hfront,
      fun b hb hcr => ?_⟩
    rw [lines, happend (hcons hb), linesOfPieces_append _ (List.cons_ne_nil _ _), linesOfPieces,
      dropCarriageReturn_append hcr]

/-- Behind a byte that belongs to no line end, a line feed parts the lines in front of it from those
behind it. -/
theorem lines_append_lineFeed {front : Bytes} (hne : front ≠ [])
    (hfeed : front.endsIn Ascii.lineFeed = false)
    (hreturn : front.endsIn Ascii.carriageReturn = false) (behind : Bytes) :
    lines (front ++ Ascii.lineFeed :: behind) = lines front ++ lines behind := by
  obtain ⟨front, b, rfl⟩ := (List.eq_nil_or_concat' front).resolve_left hne
  have hlast (c : UInt8) : endsIn (front ++ [b]) c = (b == c) := by
    rw [endsIn, List.getLast?_concat]
    rfl
  rw [hlast] at hfeed hreturn
  obtain ⟨pieces, last, -, happend⟩ := splitOnLineFeed_append front
  have hfront : splitOnLineFeed (front ++ [b]) = pieces ++ [last ++ [b]] := by
    apply happend
    rw [splitOnLineFeed, hfeed]
    rfl
  have hwhole : splitOnLineFeed (front ++ b :: Ascii.lineFeed :: behind) =
      pieces ++ (last ++ [b]) :: splitOnLineFeed behind := by
    apply happend
    rw [splitOnLineFeed, hfeed, splitOnLineFeed, if_pos (beq_self_eq_true _)]
    rfl
  have hbehind : linesOfPieces ((last ++ [b]) :: splitOnLineFeed behind) =
      (last ++ [b]) :: lines behind := by
    obtain ⟨first, others, h⟩ := List.exists_cons_of_ne_nil (splitOnLineFeed_ne_nil behind)
    rw [lines, h, linesOfPieces,
      dropCarriageReturn_append (beq_eq_false_iff_ne.mp hreturn) last []]
    rfl
  have hlines : lines (front ++ [b]) = pieces.map dropCarriageReturn ++ [last ++ [b]] := by
    rw [lines, hfront, linesOfPieces_append _ (List.cons_ne_nil _ _), linesOfPieces,
      if_neg (by simp)]
  rw [hlines, List.append_assoc, List.singleton_append, lines, hwhole,
    linesOfPieces_append _ (List.cons_ne_nil _ _), hbehind, List.append_assoc,
    List.singleton_append]

/-- An ASCII byte belongs to no byte order mark. -/
theorem dropByteOrderMark_append_cons {b : UInt8} (hb : b < 0x80) (front behind : Bytes) :
    dropByteOrderMark (front ++ b :: behind) = dropByteOrderMark front ++ b :: behind := by
  have hne {c : UInt8} (hc : 0x80 ≤ c) : (b == c) = false := by
    rw [beq_eq_false_iff_ne]
    rintro rfl
    exact absurd hb (UInt8.not_lt.mpr hc)
  match front with
  | [] =>
    match behind with
    | [] => rfl
    | [_] => rfl
    | _ :: _ :: _ => simp [dropByteOrderMark, hne (by decide : 0x80 ≤ (0xEF : UInt8))]
  | [_] =>
    match behind with
    | [] => rfl
    | _ :: _ => simp [dropByteOrderMark, hne (by decide : 0x80 ≤ (0xBB : UInt8))]
  | [_, _] => simp [dropByteOrderMark, hne (by decide : 0x80 ≤ (0xBF : UInt8))]
  | x :: y :: z :: front =>
    simp only [List.cons_append, dropByteOrderMark]
    split <;> rfl

theorem dropByteOrderMark_suffix (bytes : Bytes) : dropByteOrderMark bytes <:+ bytes := by
  unfold dropByteOrderMark
  split
  · next a b c rest =>
    split
    · exact ⟨[a, b, c], rfl⟩
    · exact List.suffix_refl _
  · exact List.suffix_refl _

theorem endsIn_dropByteOrderMark {bytes : Bytes} (h : dropByteOrderMark bytes ≠ []) (b : UInt8) :
    endsIn (dropByteOrderMark bytes) b = endsIn bytes b := by
  obtain ⟨mark, hmark⟩ := dropByteOrderMark_suffix bytes
  have hlast : bytes.getLast? = (dropByteOrderMark bytes).getLast? := by
    rw [← hmark, List.getLast?_append, hmark, List.getLast?_eq_some_getLast h]
    rfl
  rw [endsIn, endsIn, hlast]

/-- A byte of a piece stands in the text behind the pieces in front of its own. -/
theorem getElem?_lengthOfLines (bytes : Bytes) : ∀ (index : Nat) {column : Nat}
    {piece : Bytes}, (splitOnLineFeed bytes)[index]? = some piece → column < piece.length →
      bytes[lengthOfLines ((splitOnLineFeed bytes).take index) + column]? = piece[column]? := by
  induction bytes with
  | nil =>
    intro index column piece hpiece hcolumn
    cases index with
    | zero =>
      cases hpiece
      cases hcolumn
    | succ index => cases hpiece
  | cons b bytes ih =>
    intro index column piece hpiece hcolumn
    -- A line feed adds an empty piece, and another byte makes the first piece longer by one.
    by_cases hb : b = Ascii.lineFeed
    · rw [splitOnLineFeed, if_pos (beq_iff_eq.mpr hb)] at hpiece ⊢
      cases index with
      | zero =>
        cases hpiece
        cases hcolumn
      | succ index =>
        have hoffset : lengthOfLines (([] :: splitOnLineFeed bytes).take (index + 1)) + column =
            lengthOfLines ((splitOnLineFeed bytes).take index) + column + 1 := by
          simp only [List.take_succ_cons, lengthOfLines, List.length_nil]
          omega
        rw [hoffset, List.getElem?_cons_succ]
        exact ih index hpiece hcolumn
    · obtain ⟨first, others, hbytes⟩ := List.exists_cons_of_ne_nil (splitOnLineFeed_ne_nil bytes)
      rw [splitOnLineFeed, if_neg (by rwa [beq_iff_eq]), hbytes, consToFirst] at hpiece ⊢
      rw [hbytes] at ih
      cases index with
      | zero =>
        cases hpiece
        cases column with
        | zero => rfl
        | succ column => exact ih 0 rfl (Nat.lt_of_succ_lt_succ hcolumn)
      | succ index =>
        have hoffset : lengthOfLines (((b :: first) :: others).take (index + 1)) + column =
            lengthOfLines ((first :: others).take (index + 1)) + column + 1 := by
          simp only [List.take_succ_cons, lengthOfLines, List.length_cons]
          omega
        rw [hoffset, List.getElem?_cons_succ]
        exact ih (index + 1) hpiece hcolumn

theorem lengthOfLines_append (front behind : List Bytes) :
    lengthOfLines (front ++ behind) = lengthOfLines front + lengthOfLines behind := by
  induction front with
  | nil => exact (Nat.zero_add _).symm
  | cons piece front ih =>
    rw [List.cons_append, lengthOfLines, lengthOfLines, ih, Nat.add_assoc _ (lengthOfLines front)]

/-- The pieces with their line feeds are as long as the text with one more line feed. -/
theorem lengthOfLines_splitOnLineFeed (bytes : Bytes) :
    lengthOfLines (splitOnLineFeed bytes) = bytes.length + 1 := by
  induction bytes with
  | nil => rfl
  | cons b bytes ih =>
    rw [splitOnLineFeed]
    split
    · rw [lengthOfLines, ih, List.length_nil, List.length_cons, Nat.zero_add, Nat.add_comm]
    · obtain ⟨first, rest, hbytes⟩ := List.exists_cons_of_ne_nil (splitOnLineFeed_ne_nil bytes)
      rw [hbytes, lengthOfLines] at ih
      rw [hbytes, consToFirst, lengthOfLines, List.length_cons, List.length_cons, ← ih]
      omega

/-- A piece ends in front of the end of the text or there. -/
theorem lengthOfLines_take_add_le {bytes piece : Bytes} {index : Nat}
    (h : (splitOnLineFeed bytes)[index]? = some piece) :
    lengthOfLines ((splitOnLineFeed bytes).take index) + piece.length ≤ bytes.length := by
  have hsplit : lengthOfLines ((splitOnLineFeed bytes).take (index + 1)) +
      lengthOfLines ((splitOnLineFeed bytes).drop (index + 1)) = bytes.length + 1 := by
    rw [← lengthOfLines_append, List.take_append_drop, lengthOfLines_splitOnLineFeed]
  rw [List.take_add_one, h, lengthOfLines_append, Option.toList_some, lengthOfLines, lengthOfLines]
    at hsplit
  omega

/-- A line is the front of the piece with its number. -/
theorem exists_piece {bytes raw : Bytes} {index : Nat} (h : (lines bytes)[index]? = some raw) :
    ∃ piece, (splitOnLineFeed bytes)[index]? = some piece ∧ raw <+: piece := by
  rw [lines] at h
  generalize splitOnLineFeed bytes = pieces at h ⊢
  fun_induction linesOfPieces pieces generalizing index with
  | case1 => cases h
  | case2 last hlast => cases h
  | case3 last hlast =>
    exact ⟨raw, h, List.prefix_refl raw⟩
  | case4 piece next pieces ih =>
    cases index with
    | zero =>
      cases h
      refine ⟨piece, rfl, ?_⟩
      rw [dropCarriageReturn]
      split
      · exact List.dropLast_prefix piece
      · exact List.prefix_refl piece
    | succ index => exact ih h

end BracketLint.Bytes
