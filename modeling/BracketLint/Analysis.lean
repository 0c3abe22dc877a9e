import BracketLint.Group.Classification

/-!
The analysis of one file: its scrubbed lines, its bracket groups, their roles, and everything that was
found on the way.
-/

namespace BracketLint

/-- An analysed file. -/
structure Analysis where
  lines : Lines
  tree : GroupTree
  record : Record
  diagnostics : List Diagnostic

namespace Analysis

/-- Scrubs the text of a file, matches its brackets and decides the role of every group. -/
def ofSource (source : Bytes) (kind : FileKind) (options : ScrubOptions) : Analysis :=
  let (lines, scrubbed) := Lines.scrub source kind options
  let (tree, built) := GroupTree.build lines
  let record := (Record.start tree).classifyAll lines tree
  { lines, tree, record, diagnostics := scrubbed ++ built ++ record.diagnostics }

/-- The role of a group. -/
def kind (analysis : Analysis) (id : Nat) : GroupKind := analysis.record.kind id

/-- The name of a class, namespace or enumeration. -/
def name? (analysis : Analysis) (id : Nat) : Option String := analysis.record.name? id

/-- The line of the dump for a group: its role, its brackets and their positions, the word in front
of it and its name, indented by its depth. -/
def renderGroup (analysis : Analysis) (id : Nat) : String :=
  match analysis.tree.group? id with
  | none => ""
  | some group =>
    let brackets :=
      if group.parent.isSome then
        " " ++ group.shape.opener ++ group.shape.closer ++ " " ++ group.opened.render ++ ".." ++
          group.closed.render
      else ""
    let word := if group.word.text == "" then "" else " after \"" ++ group.word.text ++ "\""
    let name := match analysis.name? id with
      | some name => " name=" ++ name
      | none => ""
    String.ofList (List.replicate (2 * analysis.tree.depth id) ' ') ++
      (analysis.kind id).name ++ brackets ++ word ++ name ++ "\n"

/-- The dump of all groups, one a line. -/
def render (analysis : Analysis) : String :=
  String.join (analysis.tree.walk.map analysis.renderGroup)

end Analysis
end BracketLint
