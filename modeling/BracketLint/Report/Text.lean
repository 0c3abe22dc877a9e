import BracketLint.FileTree
import BracketLint.Report.Json

/-!
Reports for readers: as text with colours, as JSON, with one line for each violation, or beside the
lines of the source.
-/

namespace BracketLint

/-- Forms in which a report is written. -/
inductive ReportFormat
  | text
  | json
  | compact
  | pretty
  deriving DecidableEq, Repr

/-- The form that a word names. -/
def ReportFormat.ofName? : String → Option ReportFormat
  | "text" => some text
  | "json" => some json
  | "compact" => some compact
  | "pretty" => some pretty
  | _ => none

/-- Colours of a terminal. -/
inductive Colour
  | red
  | green
  | yellow
  | blue

namespace Colour

/-- The end of coloured text. -/
def reset : String := "\x1b[0m"

/-- The start of coloured text. -/
def start : Colour → String
  | red => "\x1b[31m"
  | green => "\x1b[32m"
  | yellow => "\x1b[33m"
  | blue => "\x1b[34m"

/-- A text in a colour. -/
def paint (colour : Colour) (text : String) : String := colour.start ++ text ++ reset

end Colour

/-- The colour of a severity. -/
def Severity.colour : Severity → Colour
  | error => .red
  | warning => .yellow
  | info => .blue

/-- A text and the end of its line. -/
def Text.line (text : String) : String := text ++ "\n"

open Text (line)

/-- A violation in the text form, with an empty line behind it. -/
def Violation.coloured (v : Violation) : String :=
  line (v.code ++ " " ++ v.rule ++ " at " ++ v.location.file.text ++ ":" ++
      toString v.location.line ++ ":" ++ toString v.location.column) ++
    line ("  " ++ v.severity.colour.paint v.severity.name ++ ": " ++ v.message) ++
    (match v.suggestion with
      | some suggestion => line ("  = help: " ++ suggestion)
      | none => "") ++
    line ""

/-- A violation beside the line of the source that it points to. -/
def Violation.quoted (v : Violation) (content : Bytes) : String :=
  let excerpt := v.excerpt content
  let before := (content.take excerpt.offset).reverse.takeWhile (· != Ascii.lineFeed)
  let source := before.reverse ++ (content.drop excerpt.offset).takeWhile (· != Ascii.lineFeed)
  let mark := String.ofList
    (List.replicate (Bytes.characterCount before) ' ' ++ List.replicate (Nat.max excerpt.length 1) '^')
  line excerpt.message ++ line ("  --> " ++ v.location.file.text ++ ":" ++
      toString v.location.line ++ ":" ++ toString v.location.column) ++
    line ("  | " ++ Bytes.toText source) ++ line ("  | " ++ mark ++ " " ++ excerpt.label) ++
    (match excerpt.help with
      | some help => line ("  = help: " ++ help)
      | none => "") ++
    line ""

namespace Report

/-- The numbers of violations, and of files that could not be read. -/
def totals (report : Report) (start : String) : String :=
  line (start ++ "Found " ++ toString (report.count .error) ++ " error(s), " ++
      toString (report.count .warning) ++ " warning(s), " ++ toString (report.count .info) ++
      " info(s) in " ++ toString report.filesChecked ++ " file(s)" ++ Colour.reset) ++
    if 0 < report.filesSkipped then
      line (Colour.yellow.paint
        ("Skipped " ++ toString report.filesSkipped ++ " unreadable file(s)"))
    else ""

/-- The colour of the worst that a report holds. -/
def colour (report : Report) : Colour :=
  if 0 < report.count .error then .red
  else if 0 < report.count .warning then .yellow
  else .green

/-- A violation in the pretty form; one line where its file cannot be read below the root. -/
def prettyViolation (files : FileSystem) (root : Path) (v : Violation) : String :=
  match files.read (root.join v.location.file) with
  | .ok content => v.quoted content.repaired.dropByteOrderMark
  | .error _ => line v.summary ++ line ""

/-- A report in a form. The pretty one takes the source from the files below the root. -/
def render (report : Report) (format : ReportFormat) (files : FileSystem) (root : Path) : String :=
  match format with
  | .text => String.join (report.violations.map (·.coloured)) ++ report.totals report.colour.start
  | .json => line report.toJson.toPretty
  | .compact => String.join (report.violations.map fun v => line v.summary)
  | .pretty =>
    String.join (report.violations.map (prettyViolation files root)) ++ report.totals ""

end Report
end BracketLint
