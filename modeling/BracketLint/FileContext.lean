import BracketLint.FileKind
import BracketLint.Violation

/-!
A file as rules see it: where it lies, its text, and the locations of positions in it.
-/

namespace BracketLint

/-- A file to check. The text has no byte order mark, so offsets agree with columns. -/
structure FileContext where
  path : Path
  relative : Path
  kind : FileKind
  content : Bytes
  deriving DecidableEq, Repr

namespace FileContext

/-- The file at a path with the given text, seen from a root. -/
def ofFile (path root : Path) (content : Bytes) : FileContext where
  path := path
  relative := (path.relativeTo? root).getD path
  kind := FileKind.ofPath path
  content := content.dropByteOrderMark

/-- The offset of a line and a column, both counted from one. A column behind the end of its line
counts as that end. -/
def offset (file : FileContext) (line column : Nat) : Nat :=
  let pieces := Bytes.splitOnLineFeed file.content
  match line with
  | 0 => 0
  | before + 1 =>
    Bytes.lengthOfLines (pieces.take before) +
      match pieces[before]? with
      | some piece => Nat.min (column - 1) piece.length
      | none => 0

/-- The location of a position, one byte long. -/
def location (file : FileContext) (place : Place) : Location where
  file := file.relative
  line := place.line
  column := place.column + 1
  offset := file.offset place.line (place.column + 1)
  length := 1

end FileContext
end BracketLint
