import BracketLint.Line.Literal
import BracketLint.Line.Directive
import BracketLint.Line.Statement

/-!
The scrubbed lines of a file. Scrubbing reports tabs and overlong lines, blanks literals and
comments, trims the lines, blanks preprocessor text, and then reads the indent and the statement off
what is left. Nothing in front of the last byte of code on a line moves, so columns of the scrubbed
text are columns of the file.
-/

namespace BracketLint

/-- What the scrubbing can be told. -/
structure ScrubOptions where
  /-- Longer lines are reported. -/
  maxLineLength : Nat := 79
  /-- The starts of further assertion words. -/
  assertMarkers : List String := []
  deriving DecidableEq, Repr

/-- A scrubbed line beside its raw text. -/
structure Line where
  raw : Bytes := []
  text : Bytes := []
  comment : Option LineComment := none
  indent : Nat := 0
  statement : Statement := .blank
  isStatementEnd : Bool := true
  deriving DecidableEq, Repr

/-- The lines of a file with the role of the file. -/
structure Lines where
  kind : FileKind
  physical : Array Line

namespace Lines

/-- The number of lines of the file. -/
def count (lines : Lines) : Nat := lines.physical.size

/-- The number of the empty line behind the last line of the file. -/
def lastIndex (lines : Lines) : Nat := lines.count + 1

/-- The line with a number. Line 0 and all lines behind the file's own are empty. -/
def line (lines : Lines) : Nat → Line
  | 0 => {}
  | index + 1 => lines.physical.getD index {}

/-- The scrubbed text of a line. -/
def text (lines : Lines) (index : Nat) : Bytes := (lines.line index).text

/-- The text of a line as it was written. -/
def raw (lines : Lines) (index : Nat) : Bytes := (lines.line index).raw

/-- Whether a line has no code left. -/
def isBlank (lines : Lines) (index : Nat) : Bool := (lines.text index).isEmpty

end Lines

namespace Line

/-- The tab and the width of a line, as far as they are to be reported. -/
def hygiene (limit index : Nat) (raw : Bytes) : List Diagnostic :=
  let column := (raw.takeWhile (· != Ascii.tab)).length
  let width := Bytes.characterCount raw
  (if column < raw.length then [⟨.on index column, .tab⟩] else []) ++
    if limit < width then [⟨.on index limit, .longLine width limit⟩] else []

/-- The hygiene of the lines from number `index` on. -/
def hygieneFrom (limit index : Nat) : List Bytes → List Diagnostic
  | [] => []
  | raw :: rest => hygiene limit index raw ++ hygieneFrom limit (index + 1) rest

/-- The column of the first byte that is neither a space nor a tab; 0 when there is none. -/
def indentOf (text : Bytes) : Nat :=
  let blanks := (text.takeWhile fun b => b == Ascii.space || b == Ascii.tab).length
  if blanks < text.length then blanks else 0

/-- The line with its final text, the comment found on it, and what follows from the text. -/
def ofText (kind : FileKind) (options : ScrubOptions) (raw text : Bytes)
    (comment : Option LineComment) : Line :=
  let statement := Statement.ofLine kind options.assertMarkers text
  { raw, text, comment, indent := indentOf text, statement
    isStatementEnd := statement.isEndOf text }

end Line

namespace Lines

/-- The lines built from the raw texts, the lines after the blanking of literals, and the final
texts. -/
def assemble (kind : FileKind) (options : ScrubOptions) :
    List Bytes → List BlankedLine → List Bytes → List Line
  | raw :: raws, line :: lines, text :: texts =>
    Line.ofText kind options raw text line.comment :: assemble kind options raws lines texts
  | _, _, _ => []

/-- Scrubs the lines of a file. The findings come pass by pass, and in each pass line by line. -/
def ofRawLines (raws : List Bytes) (kind : FileKind) (options : ScrubOptions) :
    Lines × List Diagnostic :=
  let blanked := blankLines 1 .code raws
  let regions := blankDeadRegions 1 (blanked.map fun line => Bytes.trimEnd line.text)
  let texts := blankDirectives false regions.1
  ({ kind, physical := (assemble kind options raws blanked texts).toArray },
    Line.hygieneFrom options.maxLineLength 1 raws ++ blanked.flatMap (·.diagnostics) ++
      openCommentDiagnostic blanked ++ regions.2)

/-- Scrubs the text of a file, without the byte order mark it may start with. -/
def scrub (source : Bytes) (kind : FileKind) (options : ScrubOptions) : Lines × List Diagnostic :=
  ofRawLines (Bytes.lines (Bytes.dropByteOrderMark source)) kind options

end Lines
end BracketLint
