import BracketLint.Pattern
import BracketLint.Text.Bytes

/-!
The globs of ignore files. Wildcards do not reach over slashes, two stars that fill a part of the path
stand for any number of parts, a set in square brackets stands for one byte, and braces hold
alternatives between commas. A backslash takes the meaning from the character behind it.

A glob is read into tokens first, because two stars take in the slash in front of them.
-/

namespace BracketLint.Ignore

/-- A token of a glob. Two stars that fill a part of the path stand in front of all others, behind
all others, or between two parts. -/
inductive Token
  | literal (c : Char)
  | one
  | run
  | partsInFront
  | partsBetween
  | partsBehind
  | set (negated : Bool) (ranges : List (Char × Char))
  | choice (branches : List (List Token))

/-- A glob that is read up to some point: the branch that is being read, its latest token first, and
for each open brace the finished branches inside it and the branch around it. -/
structure Reading where
  branch : List Token := []
  outer : List (List (List Token) × List Token) := []

namespace Reading

/-- Adds a token to the branch that is being read. -/
def push (reading : Reading) (token : Token) : Reading :=
  { reading with branch := token :: reading.branch }

/-- Two stars that do not fill a part of the path are two runs. -/
def pushTwoRuns (reading : Reading) : Reading := (reading.push .run).push .run

/-- Two stars between slashes take the place of the slash in front of them. -/
def pushParts (reading : Reading) (atEnd : Bool) : Reading :=
  match reading.branch with
  | .partsInFront :: _ => reading
  | .partsBehind :: _ => reading
  | _ :: before => { reading with branch := (if atEnd then .partsBehind else .partsBetween) :: before }
  | [] => reading

/-- Opens a choice. -/
def openChoice (reading : Reading) : Reading :=
  { branch := [], outer := ([], reading.branch) :: reading.outer }

/-- Goes on to the next branch of a choice; outside of one, a comma is a character. -/
def nextBranch (reading : Reading) : Reading :=
  match reading.outer with
  | [] => reading.push (.literal ',')
  | (branches, around) :: outer =>
    { branch := [], outer := (reading.branch.reverse :: branches, around) :: outer }

/-- Closes a choice; nothing when none is open. -/
def closeChoice? (reading : Reading) : Option Reading :=
  match reading.outer with
  | [] => none
  | (branches, around) :: outer =>
    some { branch := .choice (reading.branch.reverse :: branches).reverse :: around, outer }

end Reading

/-- How the text behind an opening bracket reads as a set. -/
inductive SetReading
  | closed (ranges : List (Char × Char)) (rest : List Char)
  | unclosed
  | emptyRange

/-- Adds the end of a range to the latest member; nothing when it lies in front of the start. -/
def endRange? (c : Char) : List (Char × Char) → Option (List (Char × Char))
  | (start, _) :: ranges => if c < start then none else some ((start, c) :: ranges)
  | [] => some []

/-- Reads the members of a set, the latest first. `first` says that none was read yet, and `dashed`
that a dash stands in front of the next character. -/
def readSet (first dashed : Bool) (ranges : List (Char × Char)) : List Char → SetReading
  | [] => .unclosed
  | c :: rest =>
    if c == ']' && !first then
      .closed (if dashed then (('-', '-') :: ranges).reverse else ranges.reverse) rest
    else if dashed then
      match endRange? c ranges with
      | none => .emptyRange
      | some ranges => readSet false false ranges rest
    else if c == '-' && !first then readSet false true ranges rest
    else readSet false false ((c, c) :: ranges) rest

/-- The set in the text behind an opening bracket, and whether it is negated. -/
def readSetOrNegated : List Char → Bool × SetReading
  | '!' :: text => (true, readSet true false [] text)
  | '^' :: text => (true, readSet true false [] text)
  | text => (false, readSet true false [] text)

theorem length_of_readSet {first dashed : Bool} {ranges found : List (Char × Char)}
    {text rest : List Char} (h : readSet first dashed ranges text = .closed found rest) :
    rest.length < text.length := by
  induction text generalizing first dashed ranges with
  | nil => simp [readSet] at h
  | cons c text ih =>
    unfold readSet at h
    simp only [List.length_cons]
    split at h
    · simp only [SetReading.closed.injEq] at h
      obtain ⟨-, rfl⟩ := h
      omega
    · split at h
      · split at h
        · simp at h
        · have := ih h
          omega
      · split at h
        · have := ih h
          omega
        · have := ih h
          omega

theorem length_of_readSetOrNegated {negated : Bool} {found : List (Char × Char)}
    {text rest : List Char} (h : readSetOrNegated text = (negated, .closed found rest)) :
    rest.length < text.length := by
  unfold readSetOrNegated at h
  split at h <;> simp only [Prod.mk.injEq] at h <;> have := length_of_readSet h.2
  · simp only [List.length_cons]
    omega
  · simp only [List.length_cons]
    omega
  · exact this

/-- Whether two stars behind a character can fill a part of the path. -/
def startsPart (reading : Reading) (previous : Option Char) : Bool :=
  previous == some '/' ||
    (!reading.outer.isEmpty && (previous == some ',' || previous == some '{'))

/-- Reads the rest of a glob. `previous` is the character in front of it, and `bracketsAreText` says
that an opening bracket without a closing one was met. Nothing when a brace does not match, a range is
empty or a backslash ends the glob. -/
def readTokens (bracketsAreText : Bool) (previous : Option Char) (reading : Reading)
    (text : List Char) : Option Reading :=
  match text with
  | [] => some reading
  | '?' :: rest => readTokens bracketsAreText (some '?') (reading.push .one) rest
  | '*' :: '*' :: rest =>
    if reading.branch.isEmpty then
      match rest with
      | [] => some (reading.push .partsInFront)
      | '/' :: behind =>
        readTokens bracketsAreText (some '/') (reading.push .partsInFront) behind
      | c :: behind => readTokens bracketsAreText (some '*') reading.pushTwoRuns (c :: behind)
    else if startsPart reading previous then
      match rest with
      -- The stars take in the slash in front of them, or the whole end of the branch.
      | [] => some (reading.pushParts true)
      | '/' :: behind =>
        readTokens bracketsAreText (some '/') (reading.pushParts false) behind
      | c :: behind =>
        -- Inside of braces a branch can end here.
        let closes := !reading.outer.isEmpty && (c == ',' || c == '}')
        readTokens bracketsAreText (some '*')
          (if closes then reading.pushParts true else reading.pushTwoRuns) (c :: behind)
    else readTokens bracketsAreText (some '*') reading.pushTwoRuns rest
  | '*' :: rest => readTokens bracketsAreText (some '*') (reading.push .run) rest
  | '[' :: rest =>
    if bracketsAreText then readTokens true (some '[') (reading.push (.literal '[')) rest
    else
      match h : readSetOrNegated rest with
      | (negated, .closed ranges behind) =>
        have := length_of_readSetOrNegated h
        readTokens false (some ']') (reading.push (.set negated ranges)) behind
      -- Without a closing bracket no later bracket can open a set either.
      | (_, .unclosed) => readTokens true (some '[') (reading.push (.literal '[')) rest
      | (_, .emptyRange) => none
  | '{' :: rest => readTokens bracketsAreText (some '{') reading.openChoice rest
  | '}' :: rest =>
    reading.closeChoice?.bind fun closed => readTokens bracketsAreText (some '}') closed rest
  | ',' :: rest => readTokens bracketsAreText (some ',') reading.nextBranch rest
  | '\\' :: c :: rest => readTokens bracketsAreText (some c) (reading.push (.literal c)) rest
  | ['\\'] => none
  | c :: rest => readTokens bracketsAreText (some c) (reading.push (.literal c)) rest
termination_by text.length

/-- The tokens of a glob. -/
def tokens? (text : List Char) : Option (List Token) :=
  (readTokens false none {} text).bind fun reading =>
    if reading.outer.isEmpty then some reading.branch.reverse else none

/-- The bytes of a character. -/
def charBytes (c : Char) : Bytes := Bytes.ofString (String.singleton c)

/-- The ranges of bytes that a range of characters stands for in a set: the bytes of its ends, with a
range from the last byte of the one to the first byte of the other. -/
def byteRanges (range : Char × Char) : List (UInt8 × UInt8) :=
  let single := fun (b : UInt8) => (b, b)
  if range.1 == range.2 then (charBytes range.1).map single
  else
    match (charBytes range.1).reverse, charBytes range.2 with
    | last :: before, first :: behind =>
      before.reverse.map single ++ (last, first) :: behind.map single
    | _, _ => []

/-- All bytes but the slash. -/
def insidePart : SymbolSet UInt8 := .allBut Ascii.slash

/-- A slash. -/
def slash : Pattern UInt8 := .one (.only Ascii.slash)

mutual

/-- The patterns of a token, one after another. A choice without a branch that stands for anything
has none. -/
def Token.patterns : Token → List (Pattern UInt8)
  | .literal c => [.fixed (charBytes c)]
  | .one => [.one insidePart]
  | .run => [.run insidePart]
  | .partsInFront =>
    [.choice [.nothing, slash, .sequence [.anything, slash]]]
  | .partsBetween =>
    [.choice [slash, .sequence [slash, .anything, slash]]]
  | .partsBehind => [slash, .anything]
  | .set negated ranges => [.one ⟨negated, ranges.flatMap byteRanges⟩]
  | .choice branches =>
    let branches := branchPatterns branches
    if branches.isEmpty then [] else [.choice branches]

/-- The patterns of some branches, without those that stand for nothing at all. -/
def branchPatterns : List (List Token) → List (Pattern UInt8)
  | [] => []
  | branch :: branches =>
    let parts := tokenPatterns branch
    if parts.isEmpty then branchPatterns branches
    else .sequence parts :: branchPatterns branches

/-- The patterns of some tokens, one after another. -/
def tokenPatterns : List Token → List (Pattern UInt8)
  | [] => []
  | token :: tokens => token.patterns ++ tokenPatterns tokens

end

/-- The pattern of a glob; two stars alone stand for every path. -/
def patternOfTokens : List Token → Pattern UInt8
  | [.partsInFront] => .anything
  | tokens => .sequence (tokenPatterns tokens)

/-- The pattern of a glob's text; nothing when it cannot be read. -/
def pattern? (text : List Char) : Option (Pattern UInt8) := (tokens? text).map patternOfTokens

end BracketLint.Ignore
