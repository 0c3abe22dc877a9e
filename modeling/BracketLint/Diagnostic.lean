import BracketLint.Severity
import BracketLint.Place

/-!
What the three stages of an analysis find: scrubbing the lines, matching the brackets, and
classifying the bracket groups. A finding is a position and a cause; its stage, its severity and
its wording follow from the cause.
-/

namespace BracketLint

/-- The stages that report diagnostics. -/
inductive Stage
  | scrub
  | build
  | classify
  deriving DecidableEq, Repr

/-- The word for a stage. -/
def Stage.name : Stage → String
  | scrub => "scrub"
  | build => "build"
  | classify => "classify"

/-- The quotes around literals. -/
inductive Quote
  | double
  | single
  deriving DecidableEq, Repr

/-- The byte of a quote. -/
def Quote.byte : Quote → UInt8
  | double => 34
  | single => 39

/-- What a pair of such quotes encloses. -/
def Quote.literalName : Quote → String
  | double => "string"
  | single => "character"

/-- The two shapes of brackets that form groups. -/
inductive Shape
  | paren
  | brace
  deriving DecidableEq, Repr, Inhabited

/-- The opening bracket of a shape. -/
def Shape.opener : Shape → String
  | paren => "("
  | brace => "\x7b"

/-- The closing bracket of a shape. -/
def Shape.closer : Shape → String
  | paren => ")"
  | brace => "\x7d"

/-- The directives that can start a dead region. -/
inductive RegionOpener
  | ifCondition
  | elifCondition
  | elseBranch
  deriving DecidableEq, Repr

/-- The name of the directive. -/
def RegionOpener.name : RegionOpener → String
  | ifCondition => "if"
  | elifCondition => "elif"
  | elseBranch => "else"

/-- What stands in front of a brace that no rule explains. -/
inductive BraceContext
  | startOfFile
  | byte (b : UInt8)
  | word (w : String)
  deriving DecidableEq, Repr

/-- How that context is named; a byte stands for the character with its number. -/
def BraceContext.render : BraceContext → String
  | startOfFile => "start of file"
  | byte b => "'" ++ String.singleton (Char.ofNat b.toNat) ++ "'"
  | word w => "'" ++ w ++ "'"

/-- The causes of diagnostics. -/
inductive Issue
  /-- A line holds a tab character. -/
  | tab
  /-- A line has more characters than allowed. -/
  | longLine (width limit : Nat)
  /-- A literal is neither closed nor continued on its line. -/
  | unterminatedLiteral (quote : Quote)
  /-- A comment is closed where none is open. -/
  | strayCommentEnd
  /-- A block comment is still open at the end of the file. -/
  | openComment
  /-- A dead region has no end. -/
  | missingEndif (opener : RegionOpener)
  /-- A closing bracket stands where no group is open. -/
  | unmatchedCloser (shape : Shape)
  /-- A closing brace meets an open parenthesis. -/
  | braceClosesParen (opened : Place)
  /-- A closing parenthesis meets an open brace. -/
  | parenInBrace (opened : Place)
  /-- More groups are open than allowed. -/
  | tooDeep (limit : Nat)
  /-- A group is still open at the end of the file. -/
  | unclosed (shape : Shape)
  /-- A control keyword stands among declarations. -/
  | keywordOutsideBody (word : String)
  /-- No rule explains a brace. -/
  | strangeBrace (context : BraceContext)
  deriving DecidableEq, Repr

namespace Issue

/-- The stage that reports the cause. -/
def stage : Issue → Stage
  | tab | longLine .. | unterminatedLiteral _ | strayCommentEnd | openComment
  | missingEndif _ => .scrub
  | unmatchedCloser _ | braceClosesParen _ | parenInBrace _ | tooDeep _ | unclosed _ => .build
  | keywordOutsideBody _ | strangeBrace _ => .classify

/-- Broken structure is an error; what may still be right is a warning. -/
def severity : Issue → Severity
  | tab | longLine .. | unterminatedLiteral _ | strayCommentEnd | openComment
  | strangeBrace _ => .warning
  | missingEndif _ | unmatchedCloser _ | braceClosesParen _ | parenInBrace _ | tooDeep _
  | unclosed _ | keywordOutsideBody _ => .error

/-- The wording of the cause. -/
def message : Issue → String
  | tab => "tab character"
  | longLine width limit =>
    "line is " ++ toString width ++ " characters long (max: " ++ toString limit ++ ")"
  | unterminatedLiteral quote => "unterminated " ++ quote.literalName ++ " literal"
  | strayCommentEnd => "'*/' outside of a block comment"
  | openComment => "block comment is not closed at end of file"
  | missingEndif opener => "#" ++ opener.name ++ " without matching #endif"
  | unmatchedCloser shape => "unmatched '" ++ shape.closer ++ "'"
  | braceClosesParen opened => "'\x7d' closes '(' opened at " ++ opened.render
  | parenInBrace opened => "unmatched ')' inside '\x7b' opened at " ++ opened.render
  | tooDeep limit => "brackets nested deeper than " ++ toString limit ++ " levels"
  | unclosed shape => "'" ++ shape.opener ++ "' is not closed before end of file"
  | keywordOutsideBody word => "'" ++ word ++ "' outside of a code body"
  | strangeBrace context => "strange context for '\x7b' after " ++ context.render

end Issue

/-- A finding of one of the stages. -/
structure Diagnostic where
  place : Place
  issue : Issue
  deriving DecidableEq, Repr

namespace Diagnostic

/-- The stage that reported the finding. -/
def stage (d : Diagnostic) : Stage := d.issue.stage

/-- How serious the finding is. -/
def severity (d : Diagnostic) : Severity := d.issue.severity

/-- The wording of the finding, without its position. -/
def message (d : Diagnostic) : String := d.issue.message

end Diagnostic
end BracketLint
