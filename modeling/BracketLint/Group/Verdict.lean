import BracketLint.Group.Tree
import BracketLint.Group.Kind
import BracketLint.Group.ClassHead

/-!
The role of each bracket group, decided from the text around it. A decision may depend on the role of
the group around it or of the group right before it. It is written as an inquiry, which names the
groups it asks for, so that one and the same decision can be answered from a record of roles or from
first principles.
-/

namespace BracketLint

/-- The role of a group, its name if it has one, and what there is to report about it. -/
structure Verdict where
  kind : GroupKind
  name : Option String := none
  report : Option Diagnostic := none
  deriving DecidableEq, Repr, Inhabited

/-- A computation that may ask for the roles of other groups. -/
inductive Inquiry (α : Type)
  | answer (value : α)
  | ask (id : Nat) (proceed : GroupKind → Inquiry α)

namespace Verdict

/-- The words in front of parentheses around a part of an expression. -/
def expressionWords : List String :=
  ["return", "sizeof", "alignof", "decltype", "typeid", "new", "delete", "case", "__attribute__",
    "alignas", "co_return", "co_await"]

/-- The words between the parameters of a routine and its body. -/
def routineWords : List String :=
  ["const", "override", "final", "noexcept", "mutable", "volatile", "NOEXCEPT"]

/-- The role that the word in front of parentheses gives them by itself. -/
def keywordKind? (word : String) : Option GroupKind :=
  match word with
  | "if" => some .condition
  | "while" => some .condition
  | "for" => some .condition
  | "switch" => some .switchParens
  | "catch" => some .catchParens
  | "__except" => some .catchParens
  | "asm" => some .asmBody
  | "__asm" => some .asmBody
  | "__asm__" => some .asmBody
  | "throw" => some .throwParens
  | "noexcept" => some .throwParens
  | word => if expressionWords.contains word then some .expressionParens else none

/-- The roles that only make sense among statements. -/
def belongsToBody : GroupKind → Bool
  | .condition | .switchParens | .catchParens => true
  | _ => false

/-- The bytes behind which parentheses without a word belong to an expression. -/
def expressionBytes : Bytes := Bytes.ofString "=+-*/%^&|!~<>?:,;\"'([\x7b"

/-- The last byte that is no blank in front of the word before a group, with its position. -/
def byteBeforeWord (lines : Lines) (group : Group) : UInt8 × Place :=
  if group.word.text == "" then (lines.byteAt group.word.place, group.word.place)
  else
    let p := lines.skipSpaceBack (lines.prev group.word.place)
    (lines.byteAt p, p)

/-- What the statement at a position starts with. -/
def statementAt (lines : Lines) (start : Place) : Statement :=
  Statement.ofKeyword (lines.nameAfter start).text

/-- Whether a group in braces follows some parentheses with only qualifiers in between, as it does
after the parameters of a routine. -/
def opensDefinition (lines : Lines) (tree : GroupTree) (id : Nat) (group : Group) : Bool :=
  match (tree.nextSibling? id).bind tree.group? with
  | none => false
  | some next =>
    next.shape == .brace &&
      (lines.stretch (lines.next group.closed) next.opened).all fun entry =>
        Stretch.isQualifierByte entry.2

/-- The role of parentheses among declarations. -/
def declarationKind (lines : Lines) (tree : GroupTree) (id : Nat) (group : Group) : GroupKind :=
  let start := group.statementStart
  let before := byteBeforeWord lines group
  -- A comma or a single colon in front, as before the members that a constructor sets.
  let separates := before.1 == Ascii.comma ||
    (before.1 == Ascii.colon && lines.byteAt (lines.prev before.2) != Ascii.colon)
  let ahead := lines.stretch start group.word.place
  if separates && start ≤ before.2 && !(statementAt lines start).isLabelContext then
    .constructorClause
  else if (lines.namesIn ahead).any fun w => w.text == "template" || w.text == "typedef" then
    .routineDeclaration
  else if !Stretch.holdsAssignment lines 0 0 ahead || opensDefinition lines tree id group then
    .routineDeclaration
  else .routineCall

/-- The role of parentheses. A control keyword among declarations is reported. -/
def ofParens (lines : Lines) (tree : GroupTree) (id parent : Nat) (group : Group) :
    Inquiry Verdict :=
  match keywordKind? group.word.text with
  | some kind =>
    if belongsToBody kind then
      .ask parent fun around =>
        .answer
          { kind
            report :=
              if around.isDeclarationScope then
                some ⟨group.word.place, .keywordOutsideBody group.word.text⟩
              else none }
    else .answer { kind }
  | none =>
    if group.word.text == "" && expressionBytes.contains (byteBeforeWord lines group).1 then
      .answer { kind := .expressionParens }
    else
      .ask parent fun around =>
        .answer
          { kind :=
              if around == .unknown then .unknown
              else if around.isDeclarationScope then declarationKind lines tree id group
              else if opensDefinition lines tree id group then .routineDeclaration
              else .routineCall }

/-- Whether a brace starts an initializer, by what stands in front of it. -/
def isInitializer (tree : GroupTree) (parent : Nat) (group : Group) (around : GroupKind)
    (before : UInt8) : Bool :=
  let bare := group.word.text == ""
  -- Behind `=` or `return`; then as an argument; then inside another initializer.
  (bare && before == Ascii.equal) || group.word.text == "return" ||
    (bare && (before == Ascii.openParen || before == Ascii.comma) &&
      (tree.group? parent).any (·.shape == .paren)) ||
    (bare && (before == Ascii.comma || before == Ascii.openBrace) && around == .initializer)

/-- The statements that may start with the head of a class. -/
def mayHoldClassHead (statement : Statement) : Bool :=
  statement.isClassKey || statement == .template || statement == .typedefName ||
    statement == .friendGrant

/-- The statements whose block is a block of code. -/
def opensCode (statement : Statement) : Bool :=
  statement == .doLoop || statement == .elseBranch || statement == .tryBlock ||
    statement == .caseLabel || statement == .defaultLabel

/-- The name behind `enum`, `enum class` or `enum struct`. -/
def enumName? (words : List String) : Option String :=
  (words.dropWhile (· != "enum")).tail.find? fun w => w != "class" && w != "struct"

/-- The string literal of a line whose closing quote stands at a position, quotes included. -/
def literalBefore? (lines : Lines) (p : Place) : Option String :=
  let raw := lines.raw p.line
  let ahead := raw.take p.column
  let inner := (ahead.reverse.takeWhile (· != Ascii.doubleQuote)).length
  if inner < ahead.length then
    some (Bytes.toText (Lines.slice raw (p.column - inner - 1) (p.column + 1)))
  else none

/-- The verdict on a brace whose role shows in the text in front of it, whatever group that text
closes. -/
def ofBraceHead? (lines : Lines) (tree : GroupTree) (parent : Nat) (group : Group)
    (around : GroupKind) : Option Verdict :=
  let word := group.word.text
  let start := group.statementStart
  let (before, beforeAt) := byteBeforeWord lines group
  let statement := statementAt lines start
  let words := lines.namesIn (lines.stretch start group.opened)
  let classHead :=
    if mayHoldClassHead statement then ClassHead.name? lines start group.opened else none
  if isInitializer tree parent group around before then some { kind := .initializer }
  else match classHead with
  | some name => some { kind := .classBody, name }
  | none =>
    -- A block of code behind a keyword, if that keyword is all there is.
    if opensCode statement && (word == "" || word == "do" || word == "else" || word == "try") then
      some { kind := .codeBody }
    -- The block of `extern "C"`, named by its literal.
    else if statement == .externItem && word == "" && before == Ascii.doubleQuote then
      some { kind := .namespaceBody, name := literalBefore? lines beforeAt }
    else match words.find? fun w => w.text == "namespace" with
    | some key =>
      let name := (lines.nameAfter key.behind).text
      some { kind := .namespaceBody, name := if name == "" then none else some name }
    | none =>
      if statement == .enumBlock ||
          (statement == .typedefName && (words[1]?).any fun w => w.text == "enum") then
        some { kind := .enumBody, name := enumName? (words.map (·.text)) }
      else if ClassHead.classKeys.contains word then some { kind := .classBody }
      else if routineWords.contains word then some { kind := .routineBody }
      else none

/-- The role of a brace right behind the closing parenthesis of a group. -/
def bodyBehind? : GroupKind → Option GroupKind
  | .routineCall | .routineDeclaration | .constructorClause | .throwParens => some .routineBody
  | .catchParens | .condition | .switchParens => some .codeBody
  | _ => none

/-- Whether the word before a brace, or the template name that ends there, is the return type behind
an arrow. -/
def followsArrow (lines : Lines) (group : Group) : Bool :=
  let (before, beforeAt) := byteBeforeWord lines group
  let typeStart :=
    if group.word.text != "" then some group.word.place
    else if before != Ascii.greater then none
    else
      let name := lines.templateNameBefore beforeAt
      if name.text == "" then none else some name.place
  typeStart.any fun p =>
    let tip := lines.skipSpaceBack (lines.prev p)
    lines.byteAt tip == Ascii.greater && lines.byteAt (lines.prev tip) == Ascii.hyphen

/-- Whether a brace and the word in front of it form a value, by what follows the group. -/
def isNamedInitializer (lines : Lines) (group : Group) : Bool :=
  let next := lines.byteAt (lines.skipSpaceForward (lines.next group.closed))
  group.word.text != "" &&
    (next == Ascii.semicolon || next == Ascii.comma || next == Ascii.closeParen)

/-- The context to name in the report of a strange brace. -/
def strangeContext (group : Group) (before : UInt8) : BraceContext :=
  if group.word.text != "" then .word group.word.text
  else if before == 0 then .startOfFile
  else .byte before

/-- The verdict on a brace that neither its head nor a group before it explains. A brace that nothing
explains is reported. -/
def ofBareBrace (lines : Lines) (group : Group) (around : GroupKind) : Verdict :=
  let bare := group.word.text == ""
  let (before, beforeAt) := byteBeforeWord lines group
  -- Where a new statement starts, a brace among statements is a block.
  let behindBlock := bare && (beforeAt.isFront || before == Ascii.semicolon ||
    before == Ascii.openBrace || before == Ascii.closeBrace)
  if behindBlock && around.isExecutable then { kind := .codeBody }
  -- The captures of a lambda without parameters.
  else if bare && before == Ascii.closeBracket then { kind := .routineBody }
  else if followsArrow lines group then { kind := .routineBody }
  else if isNamedInitializer lines group then { kind := .initializer }
  else
    { kind := .unknown
      report := some ⟨group.opened, .strangeBrace (strangeContext group before)⟩ }

/-- The role of braces. -/
def ofBraces (lines : Lines) (tree : GroupTree) (id parent : Nat) (group : Group) :
    Inquiry Verdict :=
  .ask parent fun around =>
    match ofBraceHead? lines tree parent group around with
    | some verdict => .answer verdict
    | none =>
      let (before, beforeAt) := byteBeforeWord lines group
      let sibling :=
        if group.word.text == "" && before == Ascii.closeParen then
          -- Only a parenthesis that closes the group right before this one can explain it.
          tree.previousSiblingClosingAt? id beforeAt
        else none
      match sibling with
      | none => .answer (ofBareBrace lines group around)
      | some sibling =>
        .ask sibling fun kind =>
          match bodyBehind? kind with
          | some body => .answer { kind := body }
          | none => .answer (ofBareBrace lines group around)

/-- The inquiry that decides the role of a group. -/
def inquiry (lines : Lines) (tree : GroupTree) (id : Nat) : Inquiry Verdict :=
  match tree.group? id with
  | none => .answer { kind := .unknown }
  | some group =>
    match group.parent with
    | none => .answer { kind := .file }
    | some parent =>
      match group.shape with
      | .paren => ofParens lines tree id parent group
      | .brace => ofBraces lines tree id parent group

end Verdict
end BracketLint
