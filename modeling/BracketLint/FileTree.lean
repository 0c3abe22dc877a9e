import BracketLint.Path
import BracketLint.Text.Bytes

/-!
Trees of files and directories, and file systems: a tree together with the directory that relative
paths start from.
-/

namespace BracketLint

/-- A file, or a directory with its entries. -/
inductive FileTree
  | file (content : Bytes)
  | directory (entries : List (String × FileTree))
  deriving Inhabited

namespace FileTree

/-- A directory without entries. -/
def empty : FileTree := directory []

/-- Whether this is a directory. -/
def isDirectory : FileTree → Bool
  | file _ => false
  | directory _ => true

/-- The content of a file. -/
def content? : FileTree → Option Bytes
  | file content => some content
  | directory _ => none

/-- The entries of a directory. -/
def entries : FileTree → List (String × FileTree)
  | file _ => []
  | directory entries => entries

/-- The entry with a name. -/
def child? (tree : FileTree) (name : String) : Option FileTree := tree.entries.lookup name

/-- What lies behind some names, one below another. -/
def at? (tree : FileTree) : List String → Option FileTree
  | [] => some tree
  | name :: names => (tree.child? name).bind (·.at? names)

/-- Entries with another one for a name. -/
def putEntry (name : String) (tree : FileTree) : List (String × FileTree) → List (String × FileTree)
  | [] => [(name, tree)]
  | entry :: entries =>
    if entry.1 == name then (name, tree) :: entries else entry :: putEntry name tree entries

/-- The tree with another one behind some names. Directories on the way are made, and a file on the
way gives place to one. -/
def put (new : FileTree) : List String → FileTree → FileTree
  | [], _ => new
  | name :: names, tree =>
    directory (putEntry name (put new names ((tree.child? name).getD empty)) tree.entries)

end FileTree

/-- Why a file cannot be read. -/
inductive ReadFailure
  | missing
  | notDirectory
  | isDirectory
  deriving DecidableEq, Repr

/-- The words for a failure, with the number that the system has for it. -/
def ReadFailure.message : ReadFailure → String
  | missing => "No such file or directory (os error 2)"
  | notDirectory => "Not a directory (os error 20)"
  | isDirectory => "Is a directory (os error 21)"

/-- A tree from its root on, and the names of the directories from there to the working directory. -/
structure FileSystem where
  tree : FileTree
  workingDirectory : List String := []

namespace FileSystem

/-- The place that some components lead to from the directory with the given names. A step is taken
from a directory only, and two dots lead to the directory around. -/
def follow (tree : FileTree) (names : List String) : List Path.Component → Except ReadFailure (List String)
  | [] => .ok names
  | .root :: steps => follow tree [] steps
  | .current :: steps => follow tree names steps
  | .parent :: steps =>
    match tree.at? names with
    | some (.directory _) => follow tree names.dropLast steps
    | some (.file _) => .error .notDirectory
    | none => .error .missing
  | .normal name :: steps =>
    match tree.at? names with
    | some (.directory entries) =>
      if (entries.lookup name).isSome then follow tree (names ++ [name]) steps else .error .missing
    | some (.file _) => .error .notDirectory
    | none => .error .missing

/-- The names on the way to what a path names. A path that ends in a slash or a dot names a directory
only. -/
def locate (files : FileSystem) (path : Path) : Except ReadFailure (List String) :=
  if path.text.isEmpty then .error .missing
  else
    match follow files.tree files.workingDirectory path.components with
    | .error failure => .error failure
    | .ok names =>
      -- A slash or a dot at the end of a path asks for a directory.
      let isFile := (files.tree.at? names).any (!·.isDirectory)
      if isFile && path.pieces.getLast?.any Path.isSkipped then .error .notDirectory else .ok names

/-- What a path names. -/
def node? (files : FileSystem) (path : Path) : Option FileTree :=
  match files.locate path with
  | .ok names => files.tree.at? names
  | .error _ => none

/-- Whether a path names anything. -/
def contains (files : FileSystem) (path : Path) : Bool := (files.node? path).isSome

/-- Whether a path names a file. -/
def isFile (files : FileSystem) (path : Path) : Bool := (files.node? path).any (!·.isDirectory)

/-- Whether a path names a directory. -/
def isDirectory (files : FileSystem) (path : Path) : Bool := (files.node? path).any (·.isDirectory)

/-- The content of the file that a path names. -/
def read (files : FileSystem) (path : Path) : Except ReadFailure Bytes :=
  match files.locate path with
  | .error failure => .error failure
  | .ok names =>
    match files.tree.at? names with
    | some (.file content) => .ok content
    | some (.directory _) => .error .isDirectory
    | none => .error .missing

/-- The absolute path with some names. -/
def absolute (names : List String) : Path := ⟨"/" ++ "/".intercalate names⟩

/-- The absolute path, without dots, to what a path names. -/
def canonical? (files : FileSystem) (path : Path) : Option Path :=
  match files.locate path with
  | .ok names => some (absolute names)
  | .error _ => none

/-- The working directory as a path. -/
def here (files : FileSystem) : Path := absolute files.workingDirectory

end FileSystem
end BracketLint
