import BracketLint.Lines.Cursor

/-!
The bytes between two positions, each with its position, and what the classification of groups reads
off them.
-/

namespace BracketLint

/-- Bytes of a file in order, each with its position. -/
abbrev Stretch := List (Place × UInt8)

namespace Stretch

/-- A stretch without the blanks it starts with. -/
def skipSpace (stretch : Stretch) : Stretch :=
  stretch.dropWhile fun entry => Lines.isCursorSpace entry.2

/-- What lies behind the bracket that closes `depth` brackets. There is nothing when a semicolon, a
brace or the end of the stretch comes first. -/
def closeBrackets (opener closer : UInt8) (depth : Nat) : Stretch → Option Stretch
  | [] => none
  | (_, b) :: rest =>
    if b == opener then closeBrackets opener closer (depth + 1) rest
    else if b == closer then
      if depth - 1 == 0 then some rest else closeBrackets opener closer (depth - 1) rest
    else if b == Ascii.semicolon || b == Ascii.openBrace || b == Ascii.closeBrace then none
    else closeBrackets opener closer depth rest

/-- What lies behind an argument in parentheses that may stand at the start of the stretch. -/
def skipArgument (stretch : Stretch) : Option Stretch :=
  match skipSpace stretch with
  | [] => some []
  | (p, b) :: rest =>
    if b == Ascii.openParen then closeBrackets Ascii.openParen Ascii.closeParen 1 rest
    else some ((p, b) :: rest)

theorem length_closeBrackets {opener closer : UInt8} {depth : Nat} {stretch rest : Stretch}
    (h : closeBrackets opener closer depth stretch = some rest) :
    rest.length ≤ stretch.length := by
  induction stretch generalizing depth with
  | nil => simp [closeBrackets] at h
  | cons entry stretch ih =>
    obtain ⟨p, b⟩ := entry
    simp only [closeBrackets] at h
    split at h
    · exact Nat.le_succ_of_le (ih h)
    · split at h
      · split at h
        · cases h; exact Nat.le_succ _
        · exact Nat.le_succ_of_le (ih h)
      · split at h
        · cases h
        · exact Nat.le_succ_of_le (ih h)

theorem length_skipArgument {stretch rest : Stretch} (h : skipArgument stretch = some rest) :
    rest.length ≤ stretch.length := by
  have hs : (skipSpace stretch).length ≤ stretch.length :=
    (List.dropWhile_sublist _).length_le
  unfold skipArgument at h
  split at h
  · cases h; exact Nat.zero_le _
  · next heq =>
    rw [heq] at hs
    split at h
    · exact Nat.le_trans (length_closeBrackets h) (Nat.le_trans (Nat.le_succ _) hs)
    · cases h; exact hs

/-- Whether a stretch holds an assignment outside of brackets, with `depth` brackets open and
`before` the byte in front of it. Comparisons are no assignments. -/
def holdsAssignment (lines : Lines) (depth : Nat) (before : UInt8) : Stretch → Bool
  | [] => false
  | (p, b) :: rest =>
    if b == Ascii.openParen || b == Ascii.openBracket then
      holdsAssignment lines (depth + 1) b rest
    else if b == Ascii.closeParen || b == Ascii.closeBracket then
      holdsAssignment lines (depth - 1) b rest
    -- None of `==`, `!=`, `<=` and `>=` assigns.
    else if b == Ascii.equal && depth == 0 &&
        !(before == Ascii.equal || before == Ascii.bang || before == Ascii.less ||
          before == Ascii.greater) &&
        lines.byteAt (lines.next p) != Ascii.equal then true
    else holdsAssignment lines depth b rest

/-- The bytes that may stand between the parameters of a routine and its body. -/
def isQualifierByte (b : UInt8) : Bool :=
  Ascii.isWordByte b || b == Ascii.space || b == Ascii.tab || b == Ascii.lineFeed ||
    b == Ascii.ampersand || b == Ascii.colon || b == Ascii.less || b == Ascii.greater ||
    b == Ascii.hyphen || b == Ascii.star

end Stretch

namespace Lines

/-- The bytes from one position up to another one. -/
def stretch (lines : Lines) (first last : Place) : Stretch :=
  if _h : lines.isAtStop first = false ∧ first < last then
    (first, lines.byteAt first) :: stretch lines (lines.next first) last
  else []
termination_by lines.stepsAhead first
decreasing_by exact lines.next_decreases _h.1

/-- The names in a stretch, in order. -/
def namesIn (lines : Lines) : Stretch → List Word
  | [] => []
  | (p, b) :: rest =>
    if Ascii.isWordByte b then
      let name := lines.nameAfter p
      name :: namesIn lines (rest.drop (name.text.length - 1))
    else namesIn lines rest
termination_by stretch => stretch.length
decreasing_by
  · simp only [List.length_drop, List.length_cons]; omega
  · simp

end Lines

/-- The position behind a word. -/
def Word.behind (word : Word) : Place :=
  .on word.place.line (word.place.column + word.text.length)

end BracketLint
