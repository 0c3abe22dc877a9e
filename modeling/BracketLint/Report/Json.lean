import BracketLint.Report
import BracketLint.Json.Printer
import BracketLint.Json.Reader

/-!
Reports as JSON. A record is an object with its fields in the order of their declaration. Reading
takes the fields in any order and ignores others; a field that is named twice is refused. A record may
also be given as the array of its fields.
-/

namespace BracketLint

namespace Location

/-- A location as JSON. -/
def toJson (location : Location) : Json := .object
  [("file", .string location.file.text), ("line", .natural location.line),
    ("column", .natural location.column), ("offset", .natural location.offset),
    ("length", .natural location.length)]

end Location

namespace Label

/-- A label as JSON. -/
def toJson (label : Label) : Json := .object
  [("location", label.location.toJson), ("message", .string label.message)]

end Label

namespace Violation

/-- A suggestion as JSON. -/
def suggestionJson (message : String) : Json := .object [("message", .string message)]

/-- A violation as JSON. -/
def toJson (v : Violation) : Json := .object
  [("code", .string v.code), ("rule", .string v.rule), ("severity", .string v.severity.name),
    ("location", v.location.toJson), ("message", .string v.message),
    ("suggestion", .ofOption (v.suggestion.map suggestionJson)),
    ("labels", .array (v.labels.map Label.toJson))]

end Violation

/-- A report as JSON. -/
def Report.toJson (report : Report) : Json := .object
  [("violations", .array (report.violations.map Violation.toJson)),
    ("files_checked", .natural report.filesChecked),
    ("files_skipped", .natural report.filesSkipped)]

namespace Json

/-- The value of a field of an object; refused when the object names it twice. -/
def uniqueMember? (name : String) (members : List (String × Json)) : Option (Option Json) :=
  match members.filter fun m => m.1 == name with
  | [] => some none
  | [(_, value)] => some (some value)
  | _ => none

/-- The fields of a record in the given order, from an object with these names or from an array. -/
def fields? (names : List String) : Json → Option (List (Option Json))
  | object members => names.mapM fun name => uniqueMember? name members
  | array items =>
    -- Fields that an array does not reach are missing.
    if items.length ≤ names.length then
      some (items.map some ++ List.replicate (names.length - items.length) none)
    else none
  | _ => none

/-- A count that fits into 64 bits. -/
def count? : Json → Option Nat
  | integer value => if 0 ≤ value ∧ value ≤ 18446744073709551615 then some value.toNat else none
  | _ => none

end Json

/-- The severity in a string, or in an object whose only member names it with the value `null`. -/
def Severity.ofJson? : Json → Option Severity
  | .string name => ofName? name
  | .object [(name, .null)] => ofName? name
  | _ => none

/-- The location in a JSON value. -/
def Location.ofJson? (j : Json) : Option Location :=
  match j.fields? ["file", "line", "column", "offset", "length"] with
  | some [some file, some line, some column, some offset, some length] => do
    return {
      file := ⟨← file.string?⟩
      line := ← line.count?
      column := ← column.count?
      offset := ← offset.count?
      length := ← length.count? }
  | _ => none

/-- The label in a JSON value. -/
def Label.ofJson? (j : Json) : Option Label :=
  match j.fields? ["location", "message"] with
  | some [some location, some message] => do
    return { location := ← Location.ofJson? location, message := ← message.string? }
  | _ => none

namespace Violation

/-- The suggestion in a JSON value, `null` for none. -/
def suggestionOfJson? : Json → Option (Option String)
  | .null => some none
  | j =>
    match j.fields? ["message"] with
    | some [some message] => message.string?.map some
    | _ => none

/-- The violation in a JSON value. An object may leave out the suggestion. -/
def ofJson? (j : Json) : Option Violation :=
  match j.fields? ["code", "rule", "severity", "location", "message", "suggestion", "labels"] with
  | some [some code, some rule, some severity, some location, some message, suggestion,
      some labels] => do
    return {
      code := ← code.string?
      rule := ← rule.string?
      severity := ← Severity.ofJson? severity
      location := ← Location.ofJson? location
      message := ← message.string?
      suggestion := ← suggestionOfJson? (Json.ofOption suggestion)
      labels := ← (← labels.array?).mapM Label.ofJson? }
  | _ => none

end Violation

/-- The report in a JSON value. It may leave out the number of skipped files. -/
def Report.ofJson? (j : Json) : Option Report :=
  match j.fields? ["violations", "files_checked", "files_skipped"] with
  | some [some violations, some checked, skipped] => do
    return {
      violations := ← (← violations.array?).mapM Violation.ofJson?
      filesChecked := ← checked.count?
      filesSkipped := ← (skipped.getD (.natural 0)).count? }
  | _ => none

end BracketLint
