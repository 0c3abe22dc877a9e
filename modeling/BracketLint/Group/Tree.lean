import BracketLint.Group.Forest

/-!
The bracket groups of a file as a numbered tree. Group 0 is the whole file, and the groups are
numbered in the order of their opening brackets. Each group knows the word in front of its opening
bracket and the start of the statement that the bracket belongs to.
-/

namespace BracketLint

namespace Lines

/-- The bytes of the names of operators. -/
def operatorBytes : Bytes := Bytes.ofString "=!<>+-*/%^&|~[](),"

/-- The operator whose name ends right before a bracket: the word `operator` and its symbol, both on
the line of the bracket. -/
def operatorName? (lines : Lines) (opened : Place) : Option Word :=
  let text := Bytes.trimEnd ((lines.text opened.line).take opened.column)
  let symbol := (text.reverse.takeWhile operatorBytes.contains).reverse
  let head := Bytes.trimEnd (text.take (text.length - symbol.length))
  let keyword := Bytes.ofString "operator"
  let start := head.length - keyword.length
  if symbol.isEmpty || !keyword.isSuffixOf head then none
  else if (head.take start).getLast?.any Ascii.isWordByte then none
  else some ⟨"operator" ++ Bytes.toWord symbol, .on opened.line start⟩

/-- The word in front of an opening bracket: the name of an operator, the name in front of a list in
angle brackets, or the name right before the bracket. Before a brace, the list has to touch it. -/
def wordInFrontOf (lines : Lines) (shape : Shape) (opened : Place) : Word :=
  let word := lines.wordBefore (lines.prev opened)
  if word.text == "" then
    match lines.operatorName? opened with
    | some operator => operator
    | none =>
      -- The byte that is no word may close a list in angle brackets.
      let touches := word.place.line == opened.line && word.place.column + 1 == opened.column
      if lines.byteAt word.place == Ascii.greater && (shape == .paren || touches) then
        let name := lines.templateNameBefore word.place
        if name.text == "" then word else name
      else word
  else if word.text == "new" || word.text == "delete" then
    -- `operator new` and `operator delete` are one name.
    let before := lines.wordBefore (lines.prev word.place)
    if before.text == "operator" then ⟨"operator " ++ word.text, before.place⟩ else word
  else word

/-- The start of the statement that an opening bracket belongs to. It lies at or in front of the word
before the bracket, also where that word stands on an earlier line. -/
def groupStart (lines : Lines) (opened : Place) (word : Word) : Place :=
  let start := lines.statementStart opened
  if word.place.isFront then start
  else
    -- The statement start found from the bracket can lie behind the word on an earlier line.
    let before := lines.byteAt (lines.skipSpaceBack (lines.prev opened))
    let endsStatement :=
      before == Ascii.semicolon || before == Ascii.openBrace || before == Ascii.closeBrace
    if word.place < start || (word.text == "" && !endsStatement) then
      lines.statementStart word.place
    else start

end Lines

/-- A bracket group: its brackets, the word in front of it, the start of its statement, the group
around it, and the groups directly inside it, in order. -/
structure Group where
  shape : Shape
  opened : Place
  closed : Place
  word : Word
  statementStart : Place
  parent : Option Nat
  children : List Nat
  deriving DecidableEq, Repr

namespace Group

/-- Whether a position lies at or between the brackets of a group. -/
def contains (group : Group) (p : Place) : Bool := group.opened ≤ p && p ≤ group.closed

/-- The number of lines from the opening to the closing bracket, both counted. -/
def lineSpan (group : Group) : Nat := group.closed.line - group.opened.line + 1

end Group

namespace Forest

/-- The numbers of the groups side by side, with `first` the number of the first one. -/
def roots (first : Nat) : Forest → List Nat
  | empty => []
  | group _ _ _ inside behind => first :: behind.roots (first + 1 + inside.size)

/-- The groups in the order of their numbers, with `first` the number of the first one. -/
def toGroups (lines : Lines) (parent first : Nat) : Forest → List Group
  | empty => []
  | group shape opened closed inside behind =>
    let word := lines.wordInFrontOf shape opened
    { shape, opened, closed, word, statementStart := lines.groupStart opened word
      parent := some parent, children := inside.roots (first + 1) } ::
      (inside.toGroups lines first (first + 1) ++
        behind.toGroups lines parent (first + 1 + inside.size))

end Forest

/-- The groups of a file, and whether the matching stopped early. -/
structure GroupTree where
  groups : Array Group
  earlyEnd : Bool

namespace GroupTree

/-- The group of the whole file. -/
def fileGroup (lines : Lines) (children : List Nat) : Group where
  shape := .brace
  opened := .on 0 0
  closed := lines.stop
  word := ⟨"", .front⟩
  statementStart := .on 0 0
  parent := none
  children := children

/-- The tree of the groups of a forest. -/
def ofForest (lines : Lines) (forest : Forest) (earlyEnd : Bool) : GroupTree where
  groups := (fileGroup lines (forest.roots 1) :: forest.toGroups lines 0 1).toArray
  earlyEnd := earlyEnd

/-- The tree of the brackets of a file, and the brackets that fit nowhere. -/
def build (lines : Lines) : GroupTree × List Diagnostic :=
  let matching := Forest.ofBrackets lines.brackets
  (ofForest lines matching.groups matching.earlyEnd, matching.diagnostics)

/-- The number of groups. -/
def size (tree : GroupTree) : Nat := tree.groups.size

/-- The group with a number. -/
def group? (tree : GroupTree) (id : Nat) : Option Group := tree.groups[id]?

/-- The groups directly inside a group. -/
def children (tree : GroupTree) (id : Nat) : List Nat :=
  ((tree.group? id).map (·.children)).getD []

/-- The group around a group. -/
def parent? (tree : GroupTree) (id : Nat) : Option Nat := (tree.group? id).bind (·.parent)

/-- The groups around a group, from the inside out. -/
def ancestors (tree : GroupTree) (id : Nat) : List Nat :=
  match tree.parent? id with
  | some parent => if parent < id then parent :: ancestors tree parent else []
  | none => []
termination_by id

/-- The number of groups around a group. -/
def depth (tree : GroupTree) (id : Nat) : Nat := (tree.ancestors id).length

/-- The innermost group from `id` inwards that contains a position: the last child that opens at or
before the position is followed as long as it contains it. -/
def findFrom (tree : GroupTree) (p : Place) (id : Nat) : Nat :=
  match (tree.children id).reverse.find? fun child =>
      (tree.group? child).any fun group => group.opened ≤ p with
  | some child =>
    if id < child ∧ child < tree.size ∧ (tree.group? child).any (·.contains p) then
      findFrom tree p child
    else id
  | none => id
termination_by tree.size - id

/-- The innermost group that contains a position. -/
def groupAt (tree : GroupTree) (p : Place) : Nat := tree.findFrom p 0

/-- The group right before another one among those side by side with it. -/
def previousSibling? (tree : GroupTree) (id : Nat) : Option Nat :=
  (tree.parent? id).bind fun parent => ((tree.children parent).takeWhile (· != id)).getLast?

/-- The group right before another one, if it closes at a position. -/
def previousSiblingClosingAt? (tree : GroupTree) (id : Nat) (p : Place) : Option Nat :=
  (tree.previousSibling? id).filter fun sibling =>
    (tree.group? sibling).any fun group => group.closed == p

/-- The group right behind another one among those side by side with it. -/
def nextSibling? (tree : GroupTree) (id : Nat) : Option Nat :=
  (tree.parent? id).bind fun parent => ((tree.children parent).dropWhile (· != id)).tail.head?

/-- A group and all groups inside it, each in front of those inside it. -/
def walkFrom (tree : GroupTree) (id : Nat) : List Nat :=
  id :: (tree.children id).flatMap fun child =>
    if id < child ∧ child < tree.size then walkFrom tree child else []
termination_by tree.size - id

/-- All groups, each in front of those inside it. -/
def walk (tree : GroupTree) : List Nat := tree.walkFrom 0

end GroupTree
end BracketLint
