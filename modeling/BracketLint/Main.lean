import BracketLint.Command.Run

/-!
The program: reads the part of the file system that a call can look at, makes the call, prints what it
comes to and writes its files.
-/

namespace BracketLint.Program

/-- The file at a path, or a directory of which nothing is read. -/
def readShallow (path : String) : IO (Option FileTree) := do
  try
    return some (.file (← IO.FS.readBinFile path).data.toList)
  catch _ =>
    try
      let _ ← (← IO.FS.realPath path).readDir
      return some .empty
    catch _ => return none

/-- The names of the entries of a directory; nothing when a path names none. -/
def entryNames? (path : String) : IO (Option (List String)) := do
  try
    return some ((← (← IO.FS.realPath path).readDir).toList.map (·.fileName))
  catch _ => return none

/-- Whether an entry of a directory is a link to another place. -/
def isLink (path name : String) : IO Bool := do
  try
    let real := (← IO.FS.realPath path).toString
    return (← IO.FS.realPath (path ++ "/" ++ name)).toString != real ++ "/" ++ name
  catch _ => return true

/-- The tree at a path, down to some depth. Directories behind links are not entered. -/
def readTree (path : String) : Nat → IO (Option FileTree)
  | 0 => readShallow path
  | depth + 1 => do
    match ← entryNames? path with
    | none => readShallow path
    | some names =>
      let entries ← names.filterMapM fun name => do
        let below := path ++ "/" ++ name
        let tree ← if ← isLink path name then readShallow below else readTree below depth
        return tree.map fun tree => (name, tree)
      return some (.directory entries)

/-- More than the number of directories that one path can lead through. -/
def depthLimit : Nat := 4096

/-- The names on the way to a path. Two dots lead to the directory around. -/
def namesOf (here : List String) (path : Path) : List String :=
  path.components.foldl (fun names step =>
    match step with
    | .root => []
    | .current => names
    | .parent => names.dropLast
    | .normal name => names ++ [name]) here

/-- A tree together with what some reader finds behind some names. -/
def add (read : String → IO (Option FileTree)) (tree : FileTree) (names : List String) :
    IO FileTree := do
  match ← read (FileSystem.absolute names).text with
  | some found => return .put found names tree
  | none => return tree

/-- The files that matter in the directories around a path. -/
def filesAround : List (List String) :=
  [[".git"], [".git", "info", "exclude"], [".gitignore"], [".ignore"], ["cxxlint.toml"],
    [".cxxlint.toml"]]

/-- A tree together with a path and the files that matter in the directories around it. -/
def addTarget (tree : FileTree) (names : List String) : IO FileTree := do
  let mut tree ← add (readTree · depthLimit) tree names
  for depth in List.range names.length do
    for file in filesAround do
      tree ← add readShallow tree (names.take depth ++ file)
  return tree

/-- The paths that a command looks at, besides the configurations of the user. -/
def targets : Command → List Path
  | .check path .. => [path]
  | .tree file => [file]
  | .init _ => [Command.configFile]
  | .listRules => []

/-- The surroundings of a call with some arguments. -/
def surroundings (arguments : List String) : IO Environment := do
  let here := namesOf [] ⟨(← IO.currentDir).toString⟩
  let home := (← IO.getEnv "HOME").map Path.mk
  let configDirectory := (← IO.getEnv "CXXLINT_CONFIG_DIR").map Path.mk
  let mut tree : FileTree := .put .empty here .empty
  match Command.parse arguments with
  | .error _ => pure ()
  | .ok invocation =>
    for target in targets invocation.command do
      tree ← addTarget tree (namesOf here target)
    let alone := invocation.config.toList ++
      (configDirectory.toList.map fun directory => directory.join ⟨"config.toml"⟩) ++
      (home.toList.flatMap fun home =>
        home.join ⟨".cxxlint/config.toml"⟩ :: Environment.settingsFiles home)
    for file in alone do
      tree ← add readShallow tree (namesOf here file)
    for directory in home.toList do
      let environment : Environment := { files := { tree, workingDirectory := here }, home }
      tree ← add readShallow tree (namesOf here (environment.userIgnorePath directory))
  return { files := { tree, workingDirectory := here }, home, configDirectory }

end BracketLint.Program

/-- Calls the program with the arguments on the command line. -/
def main (arguments : List String) : IO UInt32 := do
  let environment ← BracketLint.Program.surroundings arguments
  let outcome := BracketLint.Command.call environment arguments
  try
    for file in outcome.written do
      IO.FS.writeFile file.1.text file.2
  catch failure =>
    IO.eprint (BracketLint.Outcome.failure "Failed to write" (some failure.toString)).errors
    return 1
  IO.print outcome.output
  IO.eprint outcome.errors
  return outcome.status.toUInt32
