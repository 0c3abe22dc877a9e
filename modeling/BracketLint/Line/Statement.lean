import BracketLint.FileKind
import BracketLint.Text.Blank
import BracketLint.Text.Search

/-!
What a line of code starts with, and whether a statement ends with it. Both are read from the
scrubbed text of the line alone.
-/

namespace BracketLint

/-- Lines by their leading keyword. -/
inductive Statement
  | blank
  | other
  | ifCondition
  | elseBranch
  | forLoop
  | whileLoop
  | doLoop
  | switchBlock
  | caseLabel
  | defaultLabel
  | returnJump
  | jump
  | tryBlock
  | catchBlock
  | throwJump
  | classKey
  | structKey
  | unionKey
  | publicLabel
  | protectedLabel
  | privateLabel
  | namespaceBlock
  | usingNames
  | template
  | enumBlock
  | friendGrant
  | inlineRoutine
  | staticItem
  | externItem
  | typedefName
  | virtualRoutine
  | assertion
  deriving DecidableEq, Repr

namespace Statement

/-- The word for a kind of line. -/
def name : Statement → String
  | blank => "blank"
  | other => "other"
  | ifCondition => "if"
  | elseBranch => "else"
  | forLoop => "for"
  | whileLoop => "while"
  | doLoop => "do"
  | switchBlock => "switch"
  | caseLabel => "case"
  | defaultLabel => "default"
  | returnJump => "return"
  | jump => "jump"
  | tryBlock => "try"
  | catchBlock => "catch"
  | throwJump => "throw"
  | classKey => "class"
  | structKey => "struct"
  | unionKey => "union"
  | publicLabel => "public"
  | protectedLabel => "protected"
  | privateLabel => "private"
  | namespaceBlock => "namespace"
  | usingNames => "using"
  | template => "template"
  | enumBlock => "enum"
  | friendGrant => "friend"
  | inlineRoutine => "inline"
  | staticItem => "static"
  | externItem => "extern"
  | typedefName => "typedef"
  | virtualRoutine => "virtual"
  | assertion => "assert"

/-- The assertion words that every file knows. -/
def assertionWords : List String :=
  ["assert", "static_assert", "ASSERT", "BSLS_ASSERT", "BSLS_ASSERT_SAFE", "BSLS_ASSERT_OPT",
    "DCHECK", "CHECK"]

/-- The starts of the assertion words of test drivers. -/
def testAssertionStarts : List String := ["ASSERT", "EXPECT", "LOOP_ASSERT", "TEST"]

/-- The kind of line that a leading word makes. -/
def ofKeyword (word : String) : Statement :=
  match word with
  | "" => blank
  | "if" => ifCondition
  | "else" => elseBranch
  | "for" => forLoop
  | "while" => whileLoop
  | "do" => doLoop
  | "switch" => switchBlock
  | "case" => caseLabel
  | "default" => defaultLabel
  | "return" => returnJump
  | "co_return" => returnJump
  | "break" => jump
  | "continue" => jump
  | "goto" => jump
  | "try" => tryBlock
  | "__try" => tryBlock
  | "catch" => catchBlock
  | "__except" => catchBlock
  | "throw" => throwJump
  | "class" => classKey
  | "struct" => structKey
  | "union" => unionKey
  | "public" => publicLabel
  | "protected" => protectedLabel
  | "private" => privateLabel
  | "namespace" => namespaceBlock
  | "using" => usingNames
  | "template" => template
  | "enum" => enumBlock
  | "friend" => friendGrant
  | "inline" => inlineRoutine
  | "static" => staticItem
  | "extern" => externItem
  | "typedef" => typedefName
  | "virtual" => virtualRoutine
  | word => if assertionWords.contains word then assertion else other

/-- The lines that may end in a single colon. -/
def isLabelContext : Statement → Bool
  | caseLabel | defaultLabel | publicLabel | protectedLabel | privateLabel => true
  | _ => false

/-- The lines that start the definition of a class, a structure or a union. -/
def isClassKey : Statement → Bool
  | classKey | structKey | unionKey => true
  | _ => false

/-- A line without the blanks and closing braces it starts with. -/
def dropClosers : Bytes → Bytes
  | [] => []
  | b :: rest =>
    -- Blanks first, however many bytes long; then one closing brace.
    let text := Bytes.trimStart (b :: rest)
    if _h : text.length < (b :: rest).length then dropClosers text
    else if b == Ascii.closeBrace then dropClosers rest else b :: rest
termination_by text => text.length
decreasing_by
  · exact _h
  · exact Nat.lt_succ_self rest.length

/-- The identifier that a line starts with, blanks and closing braces aside. -/
def firstWord (line : Bytes) : String :=
  Bytes.toWord ((dropClosers line).takeWhile Ascii.isWordByte)

/-- The kind of a line. The words in `markers`, and in test drivers some more, start further
assertions. -/
def ofLine (kind : FileKind) (markers : List String) (line : Bytes) : Statement :=
  if (Bytes.trim line).isEmpty then blank
  else
    let word := firstWord line
    let statement := ofKeyword word
    if statement != other then statement
    else if markers.any (Text.startsWith word.toList ·) ||
        (kind.isTest && testAssertionStarts.any (Text.startsWith word.toList ·)) then assertion
    else other

/-- Whether a statement ends with a line. -/
def isEndOf (statement : Statement) (line : Bytes) : Bool :=
  let text := Bytes.trimEnd line
  match text.getLast? with
  | none => true
  | some b =>
    if b == Ascii.openBrace || b == Ascii.closeBrace || b == Ascii.semicolon then true
    else if b == Ascii.colon then
      text.dropLast.getLast? != some Ascii.colon && statement.isLabelContext
    else if b == Ascii.closeParen then statement == assertion
    else false

end Statement
end BracketLint
