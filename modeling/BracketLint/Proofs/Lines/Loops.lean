import Mathlib.Data.PFun
import BracketLint.Proofs.Lines.Words

/-!
The loops of the cursor as a machine runs them. A loop repeats a round, which ends the loop with a
result or leads to the state of the next round. In a round, a counter that is decremented has to be
above zero, and what is read or cut out of a line has to lie within it. A loop has no result if such a
check fails, nor if there is always another round. Each loop of the cursor has a result wherever it
starts, and it is what the cursor finds.
-/

namespace BracketLint
open scoped Place

namespace Loop

section Rounds

variable {σ α : Type}

/-- The round ends the loop. -/
def done (result : α) : Part (α ⊕ σ) := Part.some (.inl result)

/-- Another round follows. -/
def again (state : σ) : Part (α ⊕ σ) := Part.some (.inr state)

/-- The result of the loop that repeats a round from a state on, if there is one. -/
def run (round : σ → Part (α ⊕ σ)) (state : σ) : Part α := PFun.fix round state

/-- What is left of a loop behind a round. -/
def behindRound (round : σ → Part (α ⊕ σ)) : α ⊕ σ → Part α := Sum.elim Part.some (run round)

variable (round : σ → Part (α ⊕ σ))

/-- A loop is its first round and what is left of it behind. -/
theorem run_eq (state : σ) : run round state = (round state).bind (behindRound round) := by
  ext result
  refine PFun.mem_fix_iff.trans ?_
  rw [Part.mem_bind_iff]
  constructor
  · rintro (hdone | ⟨state', hagain, hresult⟩)
    · exact ⟨.inl result, hdone, Part.mem_some result⟩
    · exact ⟨.inr state', hagain, hresult⟩
  · rintro ⟨result' | state', hround, hresult⟩
    · obtain rfl : result = result' := Part.mem_some_iff.mp hresult
      exact .inl hround
    · exact .inr ⟨state', hround, hresult⟩

theorem done_bind (result : α) : (done result).bind (behindRound round) = Part.some result :=
  Part.bind_some _ _

theorem again_bind (state : σ) : (again state).bind (behindRound round) = run round state :=
  Part.bind_some _ _

end Rounds

section Checks

/-- One less than a counter, which has to be above zero. -/
def decrement? : Nat → Part Nat
  | 0 => Part.none
  | n + 1 => return n

theorem decrement?_of_pos {n : Nat} (h : 0 < n) : decrement? n = Part.some (n - 1) := by
  cases n with
  | zero => exact absurd h (Nat.lt_irrefl 0)
  | succ n => rfl

/-- The byte at a column, which has to be there. -/
def byte? (text : Bytes) (column : Nat) : Part UInt8 := Part.ofOption text[column]?

theorem byte?_eq {text : Bytes} {column : Nat} {b : UInt8} (h : text[column]? = some b) :
    byte? text column = Part.some b := by
  rw [byte?, h]
  rfl

/-- The text between two columns, which have to be in order and within the text. -/
def slice? (text : Bytes) (first last : Nat) : Part Bytes :=
  if first ≤ last ∧ last ≤ text.length then return Lines.slice text first last else Part.none

theorem slice?_eq {text : Bytes} {first last : Nat} (hle : first ≤ last)
    (hlast : last ≤ text.length) :
    slice? text first last = Part.some (Lines.slice text first last) :=
  if_pos ⟨hle, hlast⟩

/-- Whether the byte at a column belongs to a name. In front of a colon the byte before is read. -/
def isNameByte (text : Bytes) (column : Nat) : Part Bool :=
  match text[column]? with
  | none => return false
  | some b =>
    if b == Ascii.colon then do
      let doubled := text[column + 1]? == some Ascii.colon
      if 0 < column then return (← byte? text (← decrement? column)) == Ascii.colon || doubled
      else return doubled
    else return Ascii.isWordByte b

theorem isNameByte_eq (text : Bytes) (column : Nat) :
    isNameByte text column = Part.some (Lines.isNameByteAt text column) := by
  rw [isNameByte, Lines.isNameByteAt]
  cases hb : text[column]? with
  | none => rfl
  | some b =>
    dsimp only
    split_ifs with hcolon hpos
    · have hcolumn : column - 1 < text.length :=
        (Nat.sub_le _ _).trans_lt (List.getElem?_eq_some_iff.mp hb).1
      have hbefore : text[column - 1]? = some text[column - 1] := List.getElem?_eq_getElem hcolumn
      rw [decrement?_of_pos hpos, decide_eq_true hpos, hbefore, Part.bind_eq_bind, Part.bind_some,
        byte?_eq hbefore, Part.bind_eq_bind, Part.bind_some, Bool.true_and]
      rfl
    · rw [decide_eq_false hpos, Bool.false_and, Bool.false_or]
      rfl
    · rfl

end Checks

section Names

variable (text : Bytes)

/-- Goes back over a byte of a name. -/
def nameStartRound (start : Nat) : Part (Nat ⊕ Nat) := do
  if 0 < start then
    if ← isNameByte text (← decrement? start) then again (← decrement? start) else done start
  else done start

/-- The column where the name starts that reaches up to `start`. -/
def nameStart (start : Nat) : Part Nat := run (nameStartRound text) start

theorem nameStart_eq (start : Nat) :
    nameStart text start = Part.some (Lines.nameStart text start) := by
  fun_induction Lines.nameStart text start with
  | case1 => rw [nameStart, run_eq, nameStartRound, if_neg (Nat.lt_irrefl 0), done_bind]
  | case2 column hname ih =>
    rw [nameStart, run_eq, nameStartRound, if_pos (Nat.succ_pos column),
      decrement?_of_pos (Nat.succ_pos column), Nat.succ_sub_one]
    simp only [Part.bind_eq_bind, Part.bind_some, isNameByte_eq]
    rw [if_pos hname, again_bind]
    exact ih
  | case3 column hname =>
    rw [nameStart, run_eq, nameStartRound, if_pos (Nat.succ_pos column),
      decrement?_of_pos (Nat.succ_pos column), Nat.succ_sub_one]
    simp only [Part.bind_eq_bind, Part.bind_some, isNameByte_eq]
    rw [if_neg hname, done_bind]

/-- Goes on over a byte of a name. -/
def nameEndRound (column : Nat) : Part (Nat ⊕ Nat) := do
  if ← isNameByte text column then again (column + 1) else done column

/-- The column behind the name that reaches from a column on. -/
def nameEnd (column : Nat) : Part Nat := run (nameEndRound text) column

theorem nameEnd_eq (column : Nat) :
    nameEnd text column = Part.some (Lines.nameEnd text column) := by
  fun_induction Lines.nameEnd text column with
  | case1 column hname ih =>
    rw [nameEnd, run_eq, nameEndRound, isNameByte_eq, Part.bind_eq_bind, Part.bind_some,
      if_pos hname, again_bind]
    exact ih
  | case2 column hname =>
    rw [nameEnd, run_eq, nameEndRound, isNameByte_eq, Part.bind_eq_bind, Part.bind_some,
      if_neg hname, done_bind]

end Names

section Cursor

variable (lines : Lines)

/-- Goes back over a blank. -/
def spaceBackRound (p : Place) : Part (Place ⊕ Place) :=
  if p.isFront = false ∧ Lines.isCursorSpace (lines.byteAt p) then again (lines.prev p) else done p

/-- The last position, from `p` back, whose byte is no blank. -/
def skipSpaceBack (p : Place) : Part Place := run (spaceBackRound lines) p

theorem skipSpaceBack_eq (p : Place) :
    skipSpaceBack lines p = Part.some (lines.skipSpaceBack p) := by
  fun_induction Lines.skipSpaceBack lines p with
  | case1 p h ih =>
    rw [skipSpaceBack, run_eq, spaceBackRound, if_pos h, again_bind]
    exact ih
  | case2 p h => rw [skipSpaceBack, run_eq, spaceBackRound, if_neg h, done_bind]

/-- Goes on over a blank. -/
def spaceForwardRound (p : Place) : Part (Place ⊕ Place) :=
  if lines.isAtStop p = false ∧ Lines.isCursorSpace (lines.byteAt p) then again (lines.next p)
  else done p

/-- The first position, from `p` on, whose byte is no blank. -/
def skipSpaceForward (p : Place) : Part Place := run (spaceForwardRound lines) p

theorem skipSpaceForward_eq (p : Place) :
    skipSpaceForward lines p = Part.some (lines.skipSpaceForward p) := by
  fun_induction Lines.skipSpaceForward lines p with
  | case1 p h ih =>
    rw [skipSpaceForward, run_eq, spaceForwardRound, if_pos h, again_bind]
    exact ih
  | case2 p h => rw [skipSpaceForward, run_eq, spaceForwardRound, if_neg h, done_bind]

/-- The name that ends at the last byte that is no blank, cut out of its line. -/
def wordBefore (p : Place) : Part Word := do
  let last ← skipSpaceBack lines p
  if last.isFront || !Ascii.isWordByte (lines.byteAt last) then return ⟨"", last⟩
  else
    let text := lines.text last.line
    let first ← nameStart text last.column
    let name ← slice? text first (last.column + 1)
    return ⟨Bytes.toWord name, .on last.line first⟩

theorem wordBefore_eq (p : Place) : wordBefore lines p = Part.some (lines.wordBefore p) := by
  simp only [wordBefore, Lines.wordBefore, skipSpaceBack_eq, nameStart_eq, Part.bind_eq_bind,
    Part.bind_some]
  split_ifs with hnone
  · rfl
  rw [Bool.or_eq_true, not_or, Bool.not_eq_true', Bool.not_eq_false] at hnone
  -- The byte of a word stands on its line, so the line goes on at least up to it.
  obtain ⟨line, column, hlast, -, hcolumn⟩ :=
    Lines.exists_of_not_space (Lines.not_space_of_isWordByte hnone.2)
  rw [hlast]
  have hstart : Lines.nameStart (lines.text line) column ≤ column + 1 :=
    (Lines.nameStart_le _ _).trans (Nat.le_succ column)
  rw [Place.line, Place.column, slice?_eq hstart hcolumn, Part.bind_some]
  rfl

/-- The name that starts at the first byte that is no blank, cut out of its line. -/
def nameAfter (p : Place) : Part Word := do
  let first ← skipSpaceForward lines p
  if lines.isAtStop first then return ⟨"", first⟩
  else
    let text := lines.text first.line
    if ← isNameByte text first.column then
      let last ← nameEnd text first.column
      let name ← slice? text first.column last
      return ⟨Bytes.toWord name, first⟩
    else return ⟨"", first⟩

theorem nameAfter_eq (p : Place) : nameAfter lines p = Part.some (lines.nameAfter p) := by
  simp only [nameAfter, Lines.nameAfter, skipSpaceForward_eq, isNameByte_eq, nameEnd_eq,
    Part.bind_eq_bind, Part.bind_some]
  generalize lines.skipSpaceForward p = first
  split_ifs with hstop hname
  · rfl
  · have hend : Lines.nameEnd (lines.text first.line) first.column ≤
        (lines.text first.line).length := by
      apply Lines.nameEnd_le (Lines.lt_length_of_isNameByteAt hname).le
      rw [Lines.isNameByteAt, List.getElem?_eq_none (le_refl _)]
    rw [slice?_eq (Lines.le_nameEnd _ _) hend, Part.bind_some]
    rfl
  · -- A name that ends where it starts is empty.
    rw [Lines.nameEnd, dif_neg hname, Lines.slice, Nat.sub_self, List.take_zero]
    rfl

/-- Passes a byte on the way forward to the angle bracket that closes those open, and reads the name
behind that bracket. The count of angle brackets is decremented at each one that closes. -/
def anglesAheadRound : Nat × Nat × Place → Part (Word ⊕ Nat × Nat × Place)
  | (angles, parens, p) => do
    if lines.isAtStop p = false then
      let b := lines.byteAt p
      if b == Ascii.less && parens == 0 then again (angles + 1, parens, lines.next p)
      else if b == Ascii.greater && parens == 0 then
        let angles ← decrement? angles
        if angles == 0 then done (← nameAfter lines (lines.next p))
        else again (angles, parens, lines.next p)
      else if b == Ascii.openParen then again (angles, parens + 1, lines.next p)
      else if b == Ascii.closeParen then again (angles, parens - 1, lines.next p)
      else if b == Ascii.semicolon || b == Ascii.openBrace || b == Ascii.closeBrace then
        done ⟨"", lines.stop⟩
      else again (angles, parens, lines.next p)
    else done ⟨"", lines.stop⟩

/-- The walk starts at an angle bracket that opens and ends at the one that closes it. In between, the
count of angle brackets is above zero. -/
theorem run_anglesAheadRound {angles parens : Nat} {p : Place}
    (h : 0 < angles ∨ parens = 0 ∧ lines.byteAt p = Ascii.less) :
    run (anglesAheadRound lines) (angles, parens, p) =
      Part.some (lines.nameBehindAngles angles parens p) := by
  induction p using lines.ahead_induction generalizing angles parens with
  | step p ih =>
    rw [run_eq, anglesAheadRound, Lines.nameBehindAngles]
    by_cases hstop : lines.isAtStop p = false
    · rw [if_pos hstop, dif_pos hstop]
      have hnext {angles parens : Nat} (hangles : 0 < angles) :=
        @ih hstop angles parens (.inl hangles)
      have hpos (hless : ¬(lines.byteAt p == Ascii.less && parens == 0) = true) : 0 < angles := by
        refine h.resolve_right fun ⟨hparens, heq⟩ => hless ?_
        rw [hparens, heq]
        rfl
      dsimp only
      split_ifs with hless hgreater hlast hopen hclose hbreak
      · rw [again_bind, hnext (Nat.succ_pos angles)]
      · rw [decrement?_of_pos (hpos hless), Part.bind_eq_bind, Part.bind_some, if_pos hlast,
          nameAfter_eq, Part.bind_eq_bind, Part.bind_some, done_bind]
      · have hleft : 0 < angles - 1 := Nat.pos_of_ne_zero fun hzero => hlast (beq_iff_eq.mpr hzero)
        rw [decrement?_of_pos (hpos hless), Part.bind_eq_bind, Part.bind_some, if_neg hlast,
          again_bind, hnext hleft]
      · rw [again_bind, hnext (hpos hless)]
      · rw [again_bind, hnext (hpos hless)]
      · rw [done_bind]
      · rw [again_bind, hnext (hpos hless)]
    · rw [if_neg hstop, dif_neg hstop, done_bind]

/-- The name behind a balanced list in angle brackets. -/
def templateNameAfter (p : Place) : Part Word := do
  let first ← skipSpaceForward lines p
  if lines.byteAt first == Ascii.less then run (anglesAheadRound lines) (0, 0, first)
  else nameAfter lines first

theorem templateNameAfter_eq (p : Place) :
    templateNameAfter lines p = Part.some (lines.templateNameAfter p) := by
  rw [templateNameAfter, Lines.templateNameAfter, skipSpaceForward_eq, Part.bind_eq_bind,
    Part.bind_some]
  split_ifs with hless
  · exact run_anglesAheadRound lines (.inr ⟨rfl, beq_iff_eq.mp hless⟩)
  · exact nameAfter_eq lines _

/-- Passes a byte, or an arrow, on the way back to the angle bracket that opens those open, and reads
the name in front of that bracket. The count of parentheses is decremented at each one that opens. -/
def anglesBehindRound : Nat × Nat × Place → Part (Word ⊕ Nat × Nat × Place)
  | (angles, parens, p) => do
    if p.isFront = false then
      let b := lines.byteAt p
      if b == Ascii.greater then
        if lines.byteAt (lines.prev p) = Ascii.hyphen then
          again (angles, parens, lines.prev (lines.prev p))
        else again (angles + 1, parens, lines.prev p)
      else if b == Ascii.less then
        if angles - 1 == 0 then done (← wordBefore lines (lines.prev p))
        else again (angles - 1, parens, lines.prev p)
      else if b == Ascii.closeParen then again (angles, parens + 1, lines.prev p)
      else if b == Ascii.openParen then
        if parens == 0 then done ⟨"", .front⟩
        else again (angles, ← decrement? parens, lines.prev p)
      else if b == Ascii.semicolon || b == Ascii.openBrace || b == Ascii.closeBrace then
        done ⟨"", .front⟩
      else again (angles, parens, lines.prev p)
    else done ⟨"", .front⟩

theorem run_anglesBehindRound (angles parens : Nat) (p : Place) :
    run (anglesBehindRound lines) (angles, parens, p) =
      Part.some (lines.nameInFrontOfAngles angles parens p) := by
  induction p using lines.behind_induction generalizing angles parens with
  | step p ih =>
    rw [run_eq, anglesBehindRound, Lines.nameInFrontOfAngles]
    by_cases hp : p.isFront = false
    · rw [if_pos hp, dif_pos hp]
      have hprev := ih (lines.prev p) (lines.prev_decreases hp)
      dsimp only
      split_ifs with hgreater harrow hless hlast hclose hopen hzero hbreak
      · -- The arrow is passed by two steps at once.
        have hfront : (lines.prev p).isFront = false :=
          Lines.isFront_eq_false_of_byteAt_ne (by rw [harrow]; decide)
        have hsteps := Nat.lt_trans (lines.prev_decreases hfront) (lines.prev_decreases hp)
        rw [again_bind, ih _ hsteps]
      · rw [again_bind, hprev]
      · rw [wordBefore_eq, Part.bind_eq_bind, Part.bind_some, done_bind]
      · rw [again_bind, hprev]
      · rw [again_bind, hprev]
      · rw [done_bind]
      · have hpos : 0 < parens := Nat.pos_of_ne_zero fun h => hzero (beq_iff_eq.mpr h)
        rw [decrement?_of_pos hpos, Part.bind_eq_bind, Part.bind_some, again_bind, hprev]
      · rw [done_bind]
      · rw [again_bind, hprev]
    · rw [if_neg hp, dif_neg hp, done_bind]

/-- The name in front of a balanced list in angle brackets. -/
def templateNameBefore (p : Place) : Part Word := run (anglesBehindRound lines) (0, 0, p)

theorem templateNameBefore_eq (p : Place) :
    templateNameBefore lines p = Part.some (lines.templateNameBefore p) :=
  run_anglesBehindRound lines 0 0 p

end Cursor
end Loop
end BracketLint
