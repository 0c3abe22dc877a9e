import BracketLint.Ignore.Glob
import BracketLint.Text.Blank
import BracketLint.Text.Search

/-!
Ignore files: one rule a line, each with a glob for the paths that it leaves out or, behind an
exclamation mark, takes in again. The last rule that fits a path decides.
-/

namespace BracketLint.Ignore

/-- What a rule does with the paths that fit it. -/
inductive Mark
  | leftOut
  | takenIn
  deriving DecidableEq, Repr

/-- A rule of an ignore file. -/
structure Rule where
  pattern : Pattern UInt8
  mark : Mark
  directoriesOnly : Bool

/-- What a line of an ignore file holds. -/
inductive Line
  | nothing
  | rule (rule : Rule)
  | fault

/-- The sign at the front of a rule, whether its glob is tied to the directory of the file, and the
glob. A slash in front ties it, and a backslash makes a sign part of the glob. -/
def splitSign : List Char → Mark × Bool × List Char
  | '\\' :: '!' :: rest => (.leftOut, false, '!' :: rest)
  | '\\' :: '#' :: rest => (.leftOut, false, '#' :: rest)
  | '!' :: '/' :: rest => (.takenIn, true, rest)
  | '!' :: rest => (.takenIn, false, rest)
  | '/' :: rest => (.leftOut, true, rest)
  | text => (.leftOut, false, text)

/-- A text without its last character, if that is `c`. -/
def dropLast (c : Char) (text : List Char) : List Char :=
  if text.getLast? == some c then text.dropLast else text

/-- Whether a rule is for directories only, and its glob without the slash that says so. -/
def splitSlash (text : List Char) : Bool × List Char :=
  if text.getLast? == some '/' then (true, dropLast '\\' text.dropLast) else (false, text)

/-- The glob for whole paths that a rule's glob stands for: one that is not tied to the directory and
holds no slash fits in every directory, and two stars behind a slash fit only what is inside. -/
def wholeGlob (tied : Bool) (glob : List Char) : List Char :=
  let glob := if tied || glob.contains '/' || glob == ['*', '*'] then glob else "**/".toList ++ glob
  if Text.endsWith glob "/**" then glob ++ "/*".toList else glob

/-- Reads a line. Blank characters at its end do not count, unless a backslash stands in front of a
last space. -/
def readLine (line : List Char) : Line :=
  let text := if Text.endsWith line "\\ " then line else Text.trimEnd line
  if line.head? == some '#' || text.isEmpty then .nothing
  else
    let (mark, tied, glob) := splitSign text
    let (directoriesOnly, glob) := splitSlash glob
    match pattern? (wholeGlob tied glob) with
    | some pattern => .rule { pattern, mark, directoriesOnly }
    | none => .fault

/-- An ignore file: its rules, and whether some line could not be read as one. -/
structure File where
  rules : List Rule := []
  isFaulty : Bool := false

namespace File

/-- A text without the byte order marks it starts with. -/
def dropMarks (text : List Char) : List Char := text.dropWhile (·.toNat == 0xFEFF)

/-- Whether a line is UTF-8. -/
def isReadable (line : Bytes) : Bool := line.repaired == line

/-- The lines of an ignore file. A line that is no UTF-8 ends the file. -/
def lines (content : Bytes) : List Line :=
  match ((Bytes.lines content).takeWhile isReadable).map Bytes.decode with
  | [] => []
  | first :: others => readLine (dropMarks first) :: others.map readLine

/-- The ignore file with some content. -/
def ofContent (content : Bytes) : File where
  rules := (lines content).filterMap fun line =>
    match line with
    | .rule rule => some rule
    | _ => none
  isFaulty := (lines content).any fun line =>
    match line with
    | .fault => true
    | _ => false

/-- What the rules say about a path below the directory of the file. -/
def mark? (file : File) (path : Bytes) (isDirectory : Bool) : Option Mark :=
  (file.rules.reverse.find? fun rule =>
    (isDirectory || !rule.directoriesOnly) && rule.pattern.matchesAll path).map (·.mark)

end File
end BracketLint.Ignore
