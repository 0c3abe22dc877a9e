import BracketLint.Diagnostic
import BracketLint.Path
import BracketLint.Text.Bytes

/-!
What rules report: violations with their locations in files, and how they are written for readers.
-/

namespace BracketLint

/-- A location in a file. Lines and columns count from one; the offset and the length of the span
count bytes. -/
structure Location where
  file : Path
  line : Nat
  column : Nat
  offset : Nat
  length : Nat
  deriving DecidableEq, Repr

/-- A further location that explains a violation. -/
structure Label where
  location : Location
  message : String
  deriving DecidableEq, Repr

/-- A broken rule. -/
structure Violation where
  code : String
  rule : String
  severity : Severity
  location : Location
  message : String
  suggestion : Option String := none
  labels : List Label := []
  deriving DecidableEq, Repr

namespace Violation

/-- One line about a violation. -/
def summary (v : Violation) : String :=
  v.location.file.text ++ ":" ++ toString v.location.line ++ ":" ++ toString v.location.column ++
    ": " ++ v.severity.name ++ " [" ++ v.code ++ "] " ++ v.message

/-- All about a violation, with its labels and its suggestion. -/
def describe (v : Violation) : String :=
  v.code ++ " " ++ v.rule ++ " at " ++ v.location.file.text ++ ":" ++ toString v.location.line ++
    ":" ++ toString v.location.column ++ "\n" ++
    "  " ++ v.severity.name ++ ": " ++ v.message ++ "\n" ++
    String.join (v.labels.map fun label =>
      "  --> " ++ toString label.location.line ++ ":" ++ toString label.location.column ++ ": " ++
        label.message ++ "\n") ++
    match v.suggestion with
    | some suggestion => "  = help: " ++ suggestion ++ "\n"
    | none => ""

/-- The offset of a line and a column in a text, both counted from one, but not behind the text. -/
def offsetIn (content : Bytes) (line column : Nat) : Nat :=
  let before := (Bytes.splitOnLineFeed content).take (line - 1)
  Nat.min (Bytes.lengthOfLines before + (column - 1)) content.length

end Violation

/-- A violation beside the text it points into: what to say, and which bytes to mark. -/
structure Excerpt where
  message : String
  help : Option String
  offset : Nat
  length : Nat
  label : String
  deriving DecidableEq, Repr

/-- Marks a violation in the text of its file. A location without an offset is found by its line and
its column; at least one byte is marked, as far as the text reaches. -/
def Violation.excerpt (v : Violation) (content : Bytes) : Excerpt :=
  let location := v.location
  let offset :=
    if 0 < location.offset || (location.line ≤ 1 && location.column ≤ 1) then location.offset
    else offsetIn content location.line location.column
  { message := "[" ++ v.code ++ "] " ++ v.message
    help := v.suggestion
    offset
    length := Nat.min (Nat.max location.length 1) (content.length - offset)
    label := v.rule }

end BracketLint
