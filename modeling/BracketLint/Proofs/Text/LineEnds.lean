import Mathlib.Data.List.Basic
import BracketLint.Proofs.Text.Pieces

/-!
Writing a text with other line ends. A carriage return in front of each line feed and a byte order
mark in front of the text change none of its lines; each piece in front of a line feed grows by one
byte.
-/

namespace BracketLint.Bytes

/-- The text with a carriage return in front of each line feed. -/
def withReturns (bytes : Bytes) : Bytes :=
  bytes.flatMap fun b => if b == Ascii.lineFeed then [Ascii.carriageReturn, b] else [b]

/-- The mark that a text may start with. -/
def byteOrderMark : Bytes := [0xEF, 0xBB, 0xBF]

/-- The text behind a byte order mark; one that it starts with is not doubled. -/
def withByteOrderMark (bytes : Bytes) : Bytes :=
  if byteOrderMark.isPrefixOf bytes then bytes else byteOrderMark ++ bytes

theorem dropByteOrderMark_append (bytes : Bytes) :
    dropByteOrderMark (byteOrderMark ++ bytes) = bytes :=
  rfl

theorem dropByteOrderMark_of_not_prefix {bytes : Bytes} (h : ¬byteOrderMark <+: bytes) :
    dropByteOrderMark bytes = bytes := by
  unfold dropByteOrderMark
  split
  next a b c rest =>
    rw [if_neg]
    intro hmark
    rw [Bool.and_eq_true, Bool.and_eq_true, beq_iff_eq, beq_iff_eq, beq_iff_eq] at hmark
    obtain ⟨⟨rfl, rfl⟩, rfl⟩ := hmark
    exact h ⟨rest, rfl⟩
  · rfl

theorem withReturns_cons_of_ne {b : UInt8} (hb : b ≠ Ascii.lineFeed) (rest : Bytes) :
    withReturns (b :: rest) = b :: withReturns rest := by
  rw [withReturns, List.flatMap_cons, if_neg (by rwa [beq_iff_eq])]
  rfl

theorem withReturns_cons_lineFeed (rest : Bytes) : withReturns (Ascii.lineFeed :: rest) =
    Ascii.carriageReturn :: Ascii.lineFeed :: withReturns rest :=
  rfl

/-- What a text starts with shows no line ends if it holds none. -/
theorem prefix_of_prefix_withReturns {front bytes : Bytes} (hfeed : Ascii.lineFeed ∉ front)
    (hreturn : Ascii.carriageReturn ∉ front) (h : front <+: withReturns bytes) :
    front <+: bytes := by
  induction front generalizing bytes with
  | nil => exact List.nil_prefix
  | cons c front ih =>
    rw [List.mem_cons, not_or] at hfeed hreturn
    cases bytes with
    | nil => exact absurd (List.prefix_nil.mp h) (List.cons_ne_nil _ _)
    | cons b bytes =>
      by_cases hb : b = Ascii.lineFeed
      · rw [hb, withReturns_cons_lineFeed, List.cons_prefix_cons] at h
        exact absurd h.1.symm hreturn.1
      · rw [withReturns_cons_of_ne hb, List.cons_prefix_cons] at h
        exact List.cons_prefix_cons.mpr ⟨h.1, ih hfeed.2 hreturn.2 h.2⟩

/-- The two changes leave the text behind the byte order mark with new line ends. -/
theorem dropByteOrderMark_withByteOrderMark (bytes : Bytes) :
    dropByteOrderMark (withByteOrderMark (withReturns bytes)) =
      withReturns (dropByteOrderMark bytes) := by
  rw [withByteOrderMark]
  by_cases hmark : byteOrderMark <+: bytes
  · -- The mark that is there stays the only one.
    obtain ⟨rest, rfl⟩ := hmark
    rfl
  · have hnone : ¬byteOrderMark.isPrefixOf (withReturns bytes) = true := by
      rw [List.isPrefixOf_iff_prefix]
      exact fun h => hmark (prefix_of_prefix_withReturns (by decide) (by decide) h)
    rw [if_neg hnone, dropByteOrderMark_append, dropByteOrderMark_of_not_prefix hmark]

/-- The pieces between line feeds, each but the last one with a carriage return at its end. -/
def returnPieces : List Bytes → List Bytes
  | [] => []
  | [last] => [last]
  | piece :: next :: pieces => (piece ++ [Ascii.carriageReturn]) :: returnPieces (next :: pieces)

theorem returnPieces_ne_nil {pieces : List Bytes} (h : pieces ≠ []) : returnPieces pieces ≠ [] := by
  fun_cases returnPieces pieces with
  | case1 => exact h
  | case2 => exact List.cons_ne_nil _ _
  | case3 => exact List.cons_ne_nil _ _

theorem returnPieces_consToFirst (b : UInt8) (pieces : List Bytes) :
    returnPieces (consToFirst b pieces) = consToFirst b (returnPieces pieces) := by
  fun_cases returnPieces pieces <;> rfl

theorem splitOnLineFeed_withReturns (bytes : Bytes) :
    splitOnLineFeed (withReturns bytes) = returnPieces (splitOnLineFeed bytes) := by
  induction bytes with
  | nil => rfl
  | cons b rest ih =>
    by_cases hb : b = Ascii.lineFeed
    · obtain ⟨first, others, hrest⟩ := List.exists_cons_of_ne_nil (splitOnLineFeed_ne_nil rest)
      rw [hb, withReturns_cons_lineFeed, splitOnLineFeed, if_neg (by decide), splitOnLineFeed,
        if_pos (beq_self_eq_true _), ih, splitOnLineFeed, if_pos (beq_self_eq_true _), hrest]
      rfl
    · have hb' : ¬(b == Ascii.lineFeed) = true := by rwa [beq_iff_eq]
      rw [withReturns_cons_of_ne hb, splitOnLineFeed, if_neg hb', ih, splitOnLineFeed, if_neg hb',
        returnPieces_consToFirst]

theorem mem_of_mem_splitOnLineFeed {bytes piece : Bytes} {b : UInt8}
    (hpiece : piece ∈ splitOnLineFeed bytes) (hb : b ∈ piece) : b ∈ bytes := by
  induction bytes generalizing piece with
  | nil =>
    obtain rfl := List.mem_singleton.mp hpiece
    cases hb
  | cons c bytes ih =>
    rw [splitOnLineFeed] at hpiece
    split at hpiece
    · rcases List.mem_cons.mp hpiece with rfl | hpiece
      · cases hb
      · exact List.mem_cons_of_mem _ (ih hpiece hb)
    · obtain ⟨first, others, hbytes⟩ := List.exists_cons_of_ne_nil (splitOnLineFeed_ne_nil bytes)
      rw [hbytes] at hpiece ih
      rcases List.mem_cons.mp hpiece with rfl | hpiece
      · rcases List.mem_cons.mp hb with rfl | hb
        · exact List.mem_cons_self
        · exact List.mem_cons_of_mem _ (ih List.mem_cons_self hb)
      · exact List.mem_cons_of_mem _ (ih (List.mem_cons_of_mem _ hpiece) hb)

theorem dropCarriageReturn_of_not_mem {line : Bytes} (h : Ascii.carriageReturn ∉ line) :
    dropCarriageReturn line = line := by
  rw [dropCarriageReturn, if_neg]
  intro hend
  exact h (List.mem_of_getLast? (beq_iff_eq.mp hend))

theorem dropCarriageReturn_concat (line : Bytes) :
    dropCarriageReturn (line ++ [Ascii.carriageReturn]) = line := by
  have hend : endsIn (line ++ [Ascii.carriageReturn]) Ascii.carriageReturn = true := by
    rw [endsIn, List.getLast?_concat]
    rfl
  rw [dropCarriageReturn, if_pos hend, List.dropLast_concat]

theorem linesOfPieces_returnPieces {pieces : List Bytes}
    (h : ∀ piece ∈ pieces, Ascii.carriageReturn ∉ piece) :
    linesOfPieces (returnPieces pieces) = linesOfPieces pieces := by
  fun_induction returnPieces pieces with
  | case1 => rfl
  | case2 last => rfl
  | case3 piece next pieces ih =>
    have hne : returnPieces (next :: pieces) ≠ [] := returnPieces_ne_nil (List.cons_ne_nil _ _)
    have hpiece := dropCarriageReturn_of_not_mem (h piece List.mem_cons_self)
    calc linesOfPieces ((piece ++ [Ascii.carriageReturn]) :: returnPieces (next :: pieces))
      _ = dropCarriageReturn (piece ++ [Ascii.carriageReturn]) ::
            linesOfPieces (returnPieces (next :: pieces)) := linesOfPieces_append [_] hne
      _ = dropCarriageReturn piece :: linesOfPieces (next :: pieces) := by
            rw [dropCarriageReturn_concat, hpiece,
              ih fun piece hmem => h piece (List.mem_cons_of_mem _ hmem)]

/-- The line ends are no part of the lines. -/
theorem lines_withReturns {bytes : Bytes} (h : Ascii.carriageReturn ∉ bytes) :
    lines (withReturns bytes) = lines bytes := by
  rw [lines, splitOnLineFeed_withReturns]
  exact linesOfPieces_returnPieces fun piece hpiece hreturn =>
    h (mem_of_mem_splitOnLineFeed hpiece hreturn)

theorem lengthOfLines_take_returnPieces {pieces : List Bytes} {count : Nat}
    (h : count < pieces.length) :
    lengthOfLines ((returnPieces pieces).take count) = lengthOfLines (pieces.take count) + count := by
  fun_induction returnPieces pieces generalizing count with
  | case1 => cases h
  | case2 last =>
    obtain rfl := Nat.lt_one_iff.mp h
    rfl
  | case3 piece next pieces ih =>
    cases count with
    | zero => rfl
    | succ count =>
      rw [List.take_succ_cons, List.take_succ_cons, lengthOfLines, lengthOfLines,
        ih (Nat.lt_of_succ_lt_succ h), List.length_append, List.length_singleton]
      omega

theorem exists_getElem?_returnPieces {pieces : List Bytes} {index : Nat} {piece : Bytes}
    (h : pieces[index]? = some piece) :
    ∃ longer, (returnPieces pieces)[index]? = some longer ∧ piece <+: longer := by
  fun_induction returnPieces pieces generalizing index with
  | case1 => cases h
  | case2 last => exact ⟨piece, h, List.prefix_refl piece⟩
  | case3 first next pieces ih =>
    cases index with
    | zero =>
      cases h
      exact ⟨_, rfl, List.prefix_append _ _⟩
    | succ index => exact ih h

end BracketLint.Bytes
