import BracketLint.Lines

/-!
Moving over scrubbed lines. A position steps through the bytes of the lines, with one position more
at each line's end, from the front to the start of the empty line behind the file. All searches are
repetitions of these steps; `next_decreases` and `prev_decreases` say that each step comes closer to
the one end or the other, so all searches end.
-/

namespace BracketLint

/-- A word and the position where it starts. An empty word stands where none was found. -/
structure Word where
  text : String
  place : Place
  deriving DecidableEq, Repr

namespace Lines

/-- The position behind the last line of the file. -/
def stop (lines : Lines) : Place := .on lines.lastIndex 0

/-- Whether a position is behind the last line of the file. -/
def isAtStop (lines : Lines) (p : Place) : Bool := lines.stop ≤ p

/-- The byte at a position: a line feed at and behind a line's end, zero outside of the file. -/
def byteAt (lines : Lines) (p : Place) : UInt8 :=
  match p with
  | .front => Ascii.nul
  | .on line column =>
    if lines.lastIndex ≤ line then Ascii.nul
    else (lines.text line)[column]?.getD Ascii.lineFeed

/-- The position behind another one. -/
def next (lines : Lines) (p : Place) : Place :=
  match p with
  | .front => .on 0 0
  | .on line column =>
    if lines.lastIndex ≤ line then lines.stop
    else if column < (lines.text line).length then .on line (column + 1)
    else .on (line + 1) 0

/-- The position in front of another one. A column behind the end of its line counts as the one
right behind that end. -/
def prev (lines : Lines) (p : Place) : Place :=
  match p with
  | .front => .front
  -- A column behind the line's end is brought back to that end.
  | .on line (column + 1) => .on line (Nat.min column (lines.text line).length)
  | .on 0 0 => .front
  | .on (line + 1) 0 => .on line (lines.text line).length

/-- The positions on the lines in front of a line, one for each byte and one for each line's end. -/
def positionsAbove (lines : Lines) : (line : Nat) → Nat
  | 0 => 0
  | line + 1 => positionsAbove lines line + (lines.text line).length + 1

/-- The steps from a position to the end of the file. -/
def stepsAhead (lines : Lines) : Place → Nat
  | .front => lines.positionsAbove lines.lastIndex + 1
  | .on line column =>
    lines.positionsAbove lines.lastIndex -
      (lines.positionsAbove line + min column (lines.text line).length)

/-- The steps from a position back to the front, or more of them if its column lies behind the end of
the line. -/
def stepsBehind (lines : Lines) : Place → Nat
  | .front => 0
  | .on line column => lines.positionsAbove line + column + 1

theorem positionsAbove_mono (lines : Lines) {first last : Nat} (h : first ≤ last) :
    lines.positionsAbove first ≤ lines.positionsAbove last := by
  induction h with
  | refl => exact Nat.le_refl _
  | step _ ih =>
    rw [positionsAbove]
    omega

theorem isAtStop_on (lines : Lines) (line column : Nat) :
    lines.isAtStop (.on line column) = decide (lines.lastIndex ≤ line) := by
  simp only [isAtStop, stop, LE.le, Place.le]
  by_cases h : lines.lastIndex ≤ line
  · rcases Nat.lt_or_eq_of_le h with h' | h' <;> simp [h', Nat.le_of_lt]
  · have h₁ : ¬lines.lastIndex < line := fun h' => h (Nat.le_of_lt h')
    have h₂ : lines.lastIndex ≠ line := fun h' => h (Nat.le_of_eq h')
    have h₃ : ¬lines.lastIndex ≤ line := h
    simpa [h₁, h₂] using h₃

/-- A step forward comes closer to the end of the file. -/
theorem next_decreases (lines : Lines) {p : Place} (h : lines.isAtStop p = false) :
    lines.stepsAhead (lines.next p) < lines.stepsAhead p := by
  cases p with
  | front =>
    simp only [next, stepsAhead]
    omega
  | on line column =>
    rw [isAtStop_on, decide_eq_false_iff_not] at h
    -- The whole line, with its end, counts among the positions of the file.
    have hline := lines.positionsAbove_mono (Nat.lt_of_not_le h)
    rw [Nat.succ_eq_add_one, positionsAbove] at hline
    simp only [next, if_neg h]
    split
    · simp only [stepsAhead]
      omega
    · simp only [stepsAhead, positionsAbove]
      omega

/-- A step back comes closer to the front. -/
theorem prev_decreases (lines : Lines) {p : Place} (h : p.isFront = false) :
    lines.stepsBehind (lines.prev p) < lines.stepsBehind p := by
  match p with
  | .front => simp [Place.isFront] at h
  | .on 0 0 => simp [prev, stepsBehind]
  | .on (line + 1) 0 =>
    simp only [prev, stepsBehind, positionsAbove]
    omega
  | .on line (column + 1) =>
    have hcolumn : Nat.min column (lines.text line).length ≤ column := Nat.min_le_left _ _
    simp only [prev, stepsBehind]
    omega

/-- The blanks that the searches skip. -/
def isCursorSpace (b : UInt8) : Bool :=
  b == Ascii.space || b == Ascii.tab || b == Ascii.lineFeed || b == Ascii.nul

/-- The last position, from `p` back, whose byte is no blank; the front if there is none. -/
def skipSpaceBack (lines : Lines) (p : Place) : Place :=
  if _h : p.isFront = false ∧ isCursorSpace (lines.byteAt p) then skipSpaceBack lines (lines.prev p)
  else p
termination_by lines.stepsBehind p
decreasing_by exact lines.prev_decreases _h.1

/-- The first position, from `p` on, whose byte is no blank; the end of the file if there is
none. -/
def skipSpaceForward (lines : Lines) (p : Place) : Place :=
  if _h : lines.isAtStop p = false ∧ isCursorSpace (lines.byteAt p) then
    skipSpaceForward lines (lines.next p)
  else p
termination_by lines.stepsAhead p
decreasing_by exact lines.next_decreases _h.1

/-- The first place of a byte from `set` at or behind a column of a line, or on a later line. -/
def findFrom (lines : Lines) (set : Bytes) (line column : Nat) : Place :=
  if line < lines.lastIndex then
    match ((lines.text line).drop column).findIdx? set.contains with
    | some offset => .on line (column + offset)
    | none => findFrom lines set (line + 1) 0
  else lines.stop
termination_by lines.lastIndex - line

/-- The first position, from `p` on, whose byte is in `set`; the end of the file if there is
none. -/
def findFirstOf (lines : Lines) (set : Bytes) (p : Place) : Place :=
  lines.findFrom set p.line p.column

/-- Whether the byte at a column belongs to a name. A colon does where a second one stands beside
it. -/
def isNameByteAt (text : Bytes) (column : Nat) : Bool :=
  match text[column]? with
  | none => false
  | some b =>
    -- One of two colons side by side.
    if b == Ascii.colon then
      (0 < column && text[column - 1]? == some Ascii.colon) ||
        text[column + 1]? == some Ascii.colon
    else Ascii.isWordByte b

/-- The column where the name starts that reaches up to `column`. -/
def nameStart (text : Bytes) : (column : Nat) → Nat
  | 0 => 0
  | column + 1 => if isNameByteAt text column then nameStart text column else column + 1

theorem lt_length_of_isNameByteAt {text : Bytes} {column : Nat} (h : isNameByteAt text column) :
    column < text.length := by
  unfold isNameByteAt at h
  split at h
  · exact absurd h (by simp)
  · next hb => exact (List.getElem?_eq_some_iff.mp hb).1

/-- The column behind the name that starts at `column`. -/
def nameEnd (text : Bytes) (column : Nat) : Nat :=
  if h : isNameByteAt text column then nameEnd text (column + 1) else column
termination_by text.length - column
decreasing_by have := lt_length_of_isNameByteAt h; omega

/-- The text between two columns. -/
def slice (text : Bytes) (first last : Nat) : Bytes := (text.drop first).take (last - first)

/-- The name that ends at the last byte that is no blank, from `p` back. Where that byte ends no
name the word is empty and stands at that byte. -/
def wordBefore (lines : Lines) (p : Place) : Word :=
  let last := lines.skipSpaceBack p
  if last.isFront || !Ascii.isWordByte (lines.byteAt last) then ⟨"", last⟩
  else
    let text := lines.text last.line
    let first := nameStart text last.column
    ⟨Bytes.toWord (slice text first (last.column + 1)), .on last.line first⟩

/-- The name that starts at the first byte that is no blank, from `p` on. Where that byte starts no
name the word is empty and stands at that byte. -/
def nameAfter (lines : Lines) (p : Place) : Word :=
  let first := lines.skipSpaceForward p
  if lines.isAtStop first then ⟨"", first⟩
  else
    let text := lines.text first.line
    ⟨Bytes.toWord (slice text first.column (nameEnd text first.column)), first⟩

/-- The first line of the statement that a line belongs to: the first one behind a line that ends a
statement. -/
def firstLine (lines : Lines) : (line : Nat) → Nat
  | 0 => 0
  | line + 1 => if (lines.line line).isStatementEnd then line + 1 else firstLine lines line

/-- Where a statement starts, as far as it is known, and how many parentheses and square brackets
are open. -/
structure StatementScan where
  depth : Nat
  start : Place
  deriving DecidableEq, Repr

/-- Passes one byte: behind a semicolon or a brace outside of parentheses a statement starts. -/
def StatementScan.pass (line column : Nat) (b : UInt8) (scan : StatementScan) : StatementScan :=
  if b == Ascii.openParen || b == Ascii.openBracket then { scan with depth := scan.depth + 1 }
  else if b == Ascii.closeParen || b == Ascii.closeBracket then
    { scan with depth := scan.depth - 1 }
  else if (b == Ascii.semicolon || b == Ascii.openBrace || b == Ascii.closeBrace) &&
      scan.depth == 0 then
    { scan with start := .on line (column + 1) }
  else scan

/-- Passes the bytes of a line from a column on. -/
def StatementScan.passBytes (line : Nat) :
    (column : Nat) → Bytes → StatementScan → StatementScan
  | _, [], scan => scan
  | column, b :: rest, scan => passBytes line (column + 1) rest (scan.pass line column b)

/-- Passes the part of a line that lies between two positions. -/
def passLine (lines : Lines) (first last : Place) (scan : StatementScan) (line : Nat) :
    StatementScan :=
  let start := if line == first.line then first.column else 0
  let text := lines.text line
  let kept := if line == last.line then text.take last.column else text
  scan.passBytes line start (kept.drop start)

/-- The first code position of the statement that a position belongs to. It is searched from the
first line of the statement on, behind each semicolon and brace outside of parentheses. -/
def statementStart (lines : Lines) (p : Place) : Place :=
  match p with
  | .front => .front
  | .on last _ =>
    let line := lines.firstLine last
    let first := Place.on line (lines.line line).indent
    if p < first then p
    else
      -- The scan goes from the statement's first line up to `p`.
      let scan := (List.range' line (last + 1 - line)).foldl (lines.passLine first p) ⟨0, first⟩
      (lines.skipSpaceForward scan.start).min p

/-- Walks forward to the angle bracket that closes those open, outside of parentheses, and reads the
name behind it. A semicolon or a brace ends the walk without a name. -/
def nameBehindAngles (lines : Lines) (angles parens : Nat) (p : Place) : Word :=
  if h : lines.isAtStop p = false then
    let b := lines.byteAt p
    -- Inside of parentheses `<` and `>` compare.
    if b == Ascii.less && parens == 0 then nameBehindAngles lines (angles + 1) parens (lines.next p)
    else if b == Ascii.greater && parens == 0 then
      if angles - 1 == 0 then lines.nameAfter (lines.next p)
      else nameBehindAngles lines (angles - 1) parens (lines.next p)
    else if b == Ascii.openParen then nameBehindAngles lines angles (parens + 1) (lines.next p)
    else if b == Ascii.closeParen then nameBehindAngles lines angles (parens - 1) (lines.next p)
    else if b == Ascii.semicolon || b == Ascii.openBrace || b == Ascii.closeBrace then
      ⟨"", lines.stop⟩
    else nameBehindAngles lines angles parens (lines.next p)
  else ⟨"", lines.stop⟩
termination_by lines.stepsAhead p
decreasing_by all_goals exact lines.next_decreases h

/-- The name behind a balanced list in angle brackets that starts at or behind a position; without
such a list, the name at or behind the position. -/
def templateNameAfter (lines : Lines) (p : Place) : Word :=
  let first := lines.skipSpaceForward p
  if lines.byteAt first == Ascii.less then lines.nameBehindAngles 0 0 first
  else lines.nameAfter first

theorem isFront_eq_false_of_byteAt_ne {lines : Lines} {p : Place} (h : lines.byteAt p ≠ 0) :
    p.isFront = false := by
  cases p with
  | front => exact absurd rfl h
  | on => rfl

/-- Walks back to the angle bracket that opens those open and reads the name in front of it. The
arrow of a return type is no bracket. -/
def nameInFrontOfAngles (lines : Lines) (angles parens : Nat) (p : Place) : Word :=
  if h : p.isFront = false then
    let b := lines.byteAt p
    if b == Ascii.greater then
      -- An arrow is passed over as a whole.
      if ha : lines.byteAt (lines.prev p) = Ascii.hyphen then
        nameInFrontOfAngles lines angles parens (lines.prev (lines.prev p))
      else nameInFrontOfAngles lines (angles + 1) parens (lines.prev p)
    else if b == Ascii.less then
      if angles - 1 == 0 then lines.wordBefore (lines.prev p)
      else nameInFrontOfAngles lines (angles - 1) parens (lines.prev p)
    else if b == Ascii.closeParen then nameInFrontOfAngles lines angles (parens + 1) (lines.prev p)
    else if b == Ascii.openParen then
      -- The list would start inside of parentheses that close behind it.
      if parens == 0 then ⟨"", .front⟩
      else nameInFrontOfAngles lines angles (parens - 1) (lines.prev p)
    else if b == Ascii.semicolon || b == Ascii.openBrace || b == Ascii.closeBrace then
      ⟨"", .front⟩
    else nameInFrontOfAngles lines angles parens (lines.prev p)
  else ⟨"", .front⟩
termination_by lines.stepsBehind p
decreasing_by
  · have hf : (lines.prev p).isFront = false :=
      isFront_eq_false_of_byteAt_ne (by rw [ha]; decide)
    exact Nat.lt_trans (lines.prev_decreases hf) (lines.prev_decreases h)
  all_goals exact lines.prev_decreases h

/-- The name in front of a balanced list in angle brackets that ends at a position. -/
def templateNameBefore (lines : Lines) (p : Place) : Word := lines.nameInFrontOfAngles 0 0 p

end Lines
end BracketLint
