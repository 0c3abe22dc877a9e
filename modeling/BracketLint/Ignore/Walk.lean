import BracketLint.FileTree
import BracketLint.Ignore.File

/-!
The files that a walk from a root finds. Ignore files hold for everything below their directory; those
of the directories around the root hold as well. An ignored directory is not entered.
-/

namespace BracketLint.Ignore

/-- The ignore files of a directory that lies `depth` names below the root of all paths. -/
structure Layer where
  depth : Nat
  plain : File := {}
  git : File := {}
  exclude : File := {}

namespace Layer

/-- The ignore file behind some names in a directory; an empty one where there is no such file. -/
def fileAt (tree : FileTree) (names : List String) : File :=
  match (tree.at? names).bind FileTree.content? with
  | some content => File.ofContent content
  | none => {}

/-- The ignore files that lie in a directory. Those for Git count only if they are to be respected,
apart from the one in the repository's own settings, which always counts. -/
def ofDirectory (respectGit : Bool) (depth : Nat) (tree : FileTree) : Layer where
  depth := depth
  plain := fileAt tree [".ignore"]
  git := if respectGit then fileAt tree [".gitignore"] else {}
  exclude := fileAt tree [".git", "info", "exclude"]

/-- Whether some line of the ignore files could not be read. -/
def isFaulty (layer : Layer) : Bool :=
  layer.plain.isFaulty || layer.git.isFaulty || layer.exclude.isFaulty

end Layer

/-- The text of the path with some names. -/
def pathBytes (names : List String) : Bytes := Bytes.ofString ("/".intercalate names)

/-- What one kind of ignore file says about a path, from the innermost directory outwards. -/
def markOf? (kind : Layer → File) (layers : List Layer) (names : List String)
    (isDirectory : Bool) : Option Mark :=
  layers.findSome? fun layer =>
    (kind layer).mark? (pathBytes (names.drop layer.depth)) isDirectory

/-- The ignore file that a user keeps for all repositories, and the directory whose paths its rules
speak of. -/
structure UserFile where
  base : Path
  file : File := {}

namespace UserFile

/-- The text of a path behind that of the base directory; the whole text where it does not start with
that. Texts are compared as they are spelled, so a dot between the two stays in front of the rest. -/
def below (user : UserFile) (path : Path) : Bytes :=
  let base := Bytes.ofString user.base.text
  let text := Bytes.ofString path.text
  if base.isPrefixOf text then
    match text.drop base.length with
    | [] => []
    | b :: rest => if b == Ascii.slash then rest else b :: rest
  else text

/-- What the user's rules say about a path. -/
def mark? (user : UserFile) (path : Path) (isDirectory : Bool) : Option Mark :=
  user.file.mark? (user.below path) isDirectory

end UserFile

/-- Whether a path is left out: the kinds of ignore files are asked one after another, and the user's
own rules last. -/
def isLeftOut (user : UserFile) (layers : List Layer) (names : List String) (path : Path)
    (isDirectory : Bool) : Bool :=
  let ask := fun kind => markOf? kind layers names isDirectory
  -- A kind that says nothing leaves the question to the next one.
  ((((ask (·.plain)).or (ask (·.git))).or (ask (·.exclude))).or (user.mark? path isDirectory)) ==
    some .leftOut

mutual

/-- The files in a tree that is found at `path`. `names` are the names from the root of all paths, and
`layers` the ignore files that hold for the tree. -/
def filesIn (respectGit : Bool) (user : UserFile) (layers : List Layer) (names : List String)
    (path : Path) : FileTree → List Path
  | .file _ => [path]
  | .directory entries =>
    let layer := Layer.ofDirectory respectGit names.length (.directory entries)
    filesInEntries respectGit user (layer :: layers) names path entries

/-- The files in the entries of a directory. -/
def filesInEntries (respectGit : Bool) (user : UserFile) (layers : List Layer)
    (names : List String) (path : Path) : List (String × FileTree) → List Path
  | [] => []
  | (name, tree) :: entries =>
    let below := path.join ⟨name⟩
    let found :=
      if isLeftOut user layers (names ++ [name]) below tree.isDirectory then []
      else filesIn respectGit user layers (names ++ [name]) below tree
    found ++ filesInEntries respectGit user layers names path entries

end

/-- The ignore files of the directories around the one with the given names, the innermost first. -/
def layersAround (respectGit : Bool) (tree : FileTree) (names : List String) : List Layer :=
  ((List.range names.length).reverse).map fun depth =>
    Layer.ofDirectory respectGit depth ((tree.at? (names.take depth)).getD .empty)

/-- The files that a walk from a root finds: the root itself if it is a file. The rules of `user` speak
of paths below the working directory. Nothing when there is no root, or when an ignore file around it
cannot be read. -/
def walk? (respectGit : Bool) (user : File) (files : FileSystem) (root : Path) :
    Option (List Path) :=
  match files.locate root with
  | .error _ => none
  | .ok names =>
    match files.tree.at? names with
    | none => none
    | some (.file _) => some [root]
    | some (.directory entries) =>
      let around := layersAround respectGit files.tree names
      if around.any (·.isFaulty) then none
      else some (filesIn respectGit ⟨files.here, user⟩ around names root (.directory entries))

end BracketLint.Ignore
