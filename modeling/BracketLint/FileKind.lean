import BracketLint.Path
import BracketLint.Text.Search

/-!
The role of a source file, read off its path. Test drivers know more assertion words, and rules may
skip them.
-/

namespace BracketLint

/-- Roles of source files. -/
inductive FileKind
  | header
  | implementation
  | testDriver
  deriving DecidableEq, Repr

namespace FileKind

/-- The word for a role. -/
def name : FileKind → String
  | header => "header"
  | implementation => "implementation"
  | testDriver => "test-driver"

/-- The role that a word names. -/
def ofName? : String → Option FileKind
  | "header" => some header
  | "implementation" => some implementation
  | "test-driver" => some testDriver
  | _ => none

/-- Whether the file is a test driver. -/
def isTest (kind : FileKind) : Bool := kind == testDriver

/-- The file extensions of headers. -/
def headerExtensions : List String := ["h", "hh", "hpp", "hxx", "inl"]

/-- Whether a file's name marks a test driver: it holds `.t.`, or the part before its first dot
starts with `test_` or ends in `_test` or `_unittest`. -/
def isTestName (name : String) : Bool :=
  let chars := name.toList
  let stem := chars.takeWhile (· != '.')
  (Text.after? ".t." chars).isSome || Text.endsWith stem "_test" ||
    Text.endsWith stem "_unittest" || Text.startsWith stem "test_"

/-- The role of the file at a path. -/
def ofPath (path : Path) : FileKind :=
  if path.components.any fun c => c == .normal "tests" || c == .normal "test" then testDriver
  else if path.fileName?.any isTestName then testDriver
  else if path.extension?.any headerExtensions.contains then header
  else implementation

end FileKind
end BracketLint
