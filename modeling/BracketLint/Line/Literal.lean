import BracketLint.Diagnostic
import BracketLint.Line.Comment

/-!
Blanking of literals and comments. One scan from left to right writes a filler over the contents of
literals and blanks over block comments, and cuts the line at a line comment. Each step writes
exactly one byte for the byte it reads, so no column moves; what is still open at a line's end is
carried to the next line.
-/

namespace BracketLint

/-- The byte written over the contents of literals. -/
def filler : UInt8 := Ascii.grave

/-- What the scan of a line is in the middle of. -/
inductive ScanMode
  /-- Ordinary program text. -/
  | code
  /-- The contents of a literal. -/
  | literal (quote : Quote)
  /-- The byte behind a backslash in a literal. -/
  | escaped (quote : Quote)
  /-- The contents of a block comment. -/
  | comment
  /-- The second byte of the mark that opens a block comment. -/
  | opening
  /-- The second byte of the mark that closes a block comment. -/
  | closing
  /-- The second byte of a closing mark outside of comments. -/
  | stray
  deriving DecidableEq, Repr

/-- A scanned line: its new text, the mode at its end, the columns of closing marks outside of
comments, and the column and text of its line comment. -/
structure ScannedLine where
  text : Bytes
  mode : ScanMode
  strays : List Nat := []
  comment : Option (Nat × Bytes) := none
  deriving DecidableEq, Repr

/-- Adds the column of a closing mark outside of comments, left of those already found. -/
def ScannedLine.addStray (column : Nat) (line : ScannedLine) : ScannedLine :=
  { line with strays := column :: line.strays }

/-- Whether a single quote separates digits, as in `1'000`: a letter or digit follows it, and the
letters, digits and quotes right before it start with a digit. The bytes before it are given in
reverse. -/
def isDigitSeparator (before after : Bytes) : Bool :=
  after.head?.any Ascii.isAlphanumeric &&
    (before.takeWhile fun b => Ascii.isAlphanumeric b || b == Ascii.singleQuote).getLast?.any
      Ascii.isDigit

/-- The line up to a comment; a backslash at the comment's end still continues the line. -/
def cutAtComment (before body : Bytes) : ScannedLine where
  text := before.reverse ++ (if (Bytes.trimEnd body).endsIn Ascii.backslash then [Ascii.backslash] else [])
  mode := .code
  comment := some (before.length, body)

/-- Scans the rest of a line, the bytes before it being written already in reverse. -/
def scanFrom : ScanMode → (before : Bytes) → Bytes → ScannedLine
  | mode, before, [] => { text := before.reverse, mode }
  | .code, before, b :: rest =>
    if b == Ascii.doubleQuote then scanFrom (.literal .double) (b :: before) rest
    else if b == Ascii.singleQuote && !isDigitSeparator before rest then
      scanFrom (.literal .single) (b :: before) rest
    -- Two slashes: the rest of the line is a comment.
    else if b == Ascii.slash && rest.head? == some Ascii.slash then cutAtComment before rest.tail
    else if b == Ascii.slash && rest.head? == some Ascii.star then
      scanFrom .opening (Ascii.space :: before) rest
    -- A closing mark that closes nothing stays in the text.
    else if b == Ascii.star && rest.head? == some Ascii.slash then
      (scanFrom .stray (b :: before) rest).addStray before.length
    else scanFrom .code (b :: before) rest
  | .literal quote, before, b :: rest =>
    if b == Ascii.backslash then scanFrom (.escaped quote) (filler :: before) rest
    else if b == quote.byte then scanFrom .code (b :: before) rest
    else scanFrom (.literal quote) (filler :: before) rest
  | .escaped quote, before, _ :: rest => scanFrom (.literal quote) (filler :: before) rest
  | .comment, before, b :: rest =>
    if b == Ascii.star && rest.head? == some Ascii.slash then
      scanFrom .closing (Ascii.space :: before) rest
    else scanFrom .comment (Ascii.space :: before) rest
  | .opening, before, _ :: rest => scanFrom .comment (Ascii.space :: before) rest
  | .closing, before, _ :: rest => scanFrom .code (Ascii.space :: before) rest
  | .stray, before, b :: rest => scanFrom .code (b :: before) rest

/-- What the end of a line leaves open for the next one. -/
inductive Carry
  /-- Nothing is open. -/
  | code
  /-- A block comment is open. -/
  | comment
  /-- A literal is continued. -/
  | literal (quote : Quote)
  /-- The free text of a message directive is continued. -/
  | message
  deriving DecidableEq, Repr

/-- The mode in which the scan of the next line starts. -/
def Carry.mode : Carry → ScanMode
  | code | message => .code
  | comment => .comment
  | literal quote => .literal quote

/-- Whether a line is a directive whose argument is free text. -/
def isMessageDirective (line : Bytes) : Bool :=
  match Bytes.trimStart line with
  | [] => false
  | b :: rest =>
    let argument := Bytes.trimStart rest
    b == Ascii.hash &&
      ((Bytes.ofString "error").isPrefixOf argument ||
        (Bytes.ofString "warning").isPrefixOf argument)

/-- A line after the blanking, with what it found and what it leaves open. -/
structure BlankedLine where
  text : Bytes
  comment : Option LineComment := none
  diagnostics : List Diagnostic := []
  carry : Carry
  deriving DecidableEq, Repr

/-- The carry from a scan that ended outside of literals. -/
def ScanMode.carry : ScanMode → Carry
  | comment | opening => .comment
  | literal quote | escaped quote => .literal quote
  | code | closing | stray => .code

/-- A literal that is open at a line's end is continued if the line ends in a backslash, which
stays visible. Otherwise it is reported and closed there. -/
def closeLine (index : Nat) (raw : Bytes) (scan : ScannedLine) : BlankedLine :=
  let comment := scan.comment.map fun c => LineComment.ofBody c.1 c.2
  let strays := scan.strays.map fun column => ⟨.on index column, .strayCommentEnd⟩
  match scan.mode.carry with
  | .literal quote =>
    if raw.endsIn Ascii.backslash then
      -- The filler over the backslash is taken back.
      { text := scan.text.dropLast ++ [Ascii.backslash], comment, diagnostics := strays
        carry := .literal quote }
    else
      { text := scan.text, comment, carry := .code
        diagnostics := strays ++ [⟨.on index scan.text.length, .unterminatedLiteral quote⟩] }
  | carry => { text := scan.text, comment, diagnostics := strays, carry }

/-- Blanks one line. The free text of a message directive is left alone, and a backslash at its end
continues it. -/
def blankLine (index : Nat) (carry : Carry) (raw : Bytes) : BlankedLine :=
  if carry == .message || (carry == .code && isMessageDirective raw) then
    { text := raw, carry := if raw.endsIn Ascii.backslash then .message else .code }
  else closeLine index raw (scanFrom carry.mode [] raw)

/-- Blanks the lines from number `index` on. -/
def blankLines (index : Nat) (carry : Carry) : List Bytes → List BlankedLine
  | [] => []
  | raw :: rest =>
    let line := blankLine index carry raw
    line :: blankLines (index + 1) line.carry rest

/-- A comment that is open behind the last line is reported at that line's end. -/
def openCommentDiagnostic (lines : List BlankedLine) : List Diagnostic :=
  match lines.getLast? with
  | some last =>
    if last.carry == .comment then [⟨.on lines.length last.text.length, .openComment⟩] else []
  | none => []

end BracketLint
