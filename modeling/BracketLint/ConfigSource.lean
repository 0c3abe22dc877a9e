import BracketLint.Config
import BracketLint.FileTree

/-!
Where the configuration for a path comes from: a file that is named, the nearest project file around
the path, the user's own file, or the standard settings. The search for project files ends at the
directory that holds the repository.
-/

namespace BracketLint

/-- Where a configuration comes from. -/
inductive ConfigSource
  | named (file : Path)
  | project (file : Path)
  | user (file : Path)
  | standard
  deriving DecidableEq, Repr

namespace ConfigSource

/-- The file that holds the configuration. -/
def file? : ConfigSource → Option Path
  | named file => some file
  | project file => some file
  | user file => some file
  | standard => none

/-- The names of project files, the preferred one first. -/
def projectNames : List String := ["cxxlint.toml", ".cxxlint.toml"]

/-- The project file in a directory. -/
def projectFileIn? (files : FileSystem) (directory : Path) : Option Path :=
  (projectNames.map fun name => directory.join ⟨name⟩).find? files.isFile

/-- Whether a directory holds a repository. -/
def holdsRepository (files : FileSystem) (directory : Path) : Bool :=
  files.contains (directory.join ⟨".git"⟩)

/-- The project file of the first directory that has one, up to the first that holds a repository. -/
def nearestProjectFile? (files : FileSystem) : List Path → Option Path
  | [] => none
  | directory :: around =>
    match projectFileIn? files directory with
    | some file => some file
    | none => if holdsRepository files directory then none else nearestProjectFile? files around

/-- The directory in which the search for a path begins: the path itself if it is a directory, or
else the directory around it. -/
def searchStart (files : FileSystem) (target : Path) : Path :=
  let path := (files.canonical? target).getD target
  if files.isDirectory path then path
  else
    match path.parent? with
    | some parent => if parent.text.isEmpty then ⟨"."⟩ else parent
    | none => ⟨"."⟩

/-- The source of the configuration for a path. -/
def resolve (files : FileSystem) (userDirectory : Option Path) (asked : Option Path)
    (target : Path) : ConfigSource :=
  match asked with
  | some file => named file
  | none =>
    match nearestProjectFile? files (searchStart files target).ancestors with
    | some file => project file
    | none =>
      match (userDirectory.map fun directory => directory.join ⟨"config.toml"⟩).filter files.isFile with
      | some file => user file
      | none => standard

/-- The configuration in a file; nothing when it cannot be read. -/
def read? (files : FileSystem) (file : Path) : Option Config :=
  match files.read file with
  | .ok content => if content.repaired == content then Config.parse? content.toText else none
  | .error _ => none

/-- The configuration from a source. -/
def load? (files : FileSystem) (source : ConfigSource) : Option Config :=
  match source.file? with
  | some file => read? files file
  | none => some {}

end ConfigSource
end BracketLint
