import BracketLint.Lines
import BracketLint.Text.Search

/-!
Directives in line comments that allow a rule to be broken, such as
`// cxxlint: allow(routine-length) reason="generated table"`. A directive holds for its own line and
for the line below it.
-/

namespace BracketLint

/-- A directive: the rules it names and the reason it gives. -/
structure AllowDirective where
  rules : List String
  reason : Option String
  deriving DecidableEq, Repr

namespace AllowDirective

/-- The rest of a text behind a word that it starts with. -/
def dropWord? (word : String) (cs : List Char) : Option (List Char) :=
  if Text.startsWith cs word then some (cs.drop word.length) else none

/-- The reason in the text behind the list of rules: a text in double quotes behind `reason=`. -/
def reason? (cs : List Char) : Option String := do
  let behind ← dropWord? "reason=" (Text.trim cs)
  let quoted ← dropWord? "\"" (Text.trim behind)
  let inside := quoted.takeWhile (·.toNat != 34)
  if inside.length < quoted.length then some (String.ofList inside) else none

/-- The directive in the text behind the slashes of a comment. -/
def ofBody? (body : List Char) : Option AllowDirective := do
  -- Further slashes in front belong to the mark of the comment.
  let directive ← dropWord? "cxxlint:" (Text.trim (body.dropWhile (· == '/')))
  let content ← dropWord? "allow(" (Text.trim directive)
  let content := Text.trim content
  let names := content.takeWhile (· != ')')
  if names.length < content.length then
    let rules := Text.namesBetweenCommas names
    if rules.isEmpty then none
    else some { rules, reason := reason? (content.drop (names.length + 1)) }
  else none

/-- Whether a directive names a rule, by its own name or by `all`. -/
def names (directive : AllowDirective) (rule : String) : Bool :=
  directive.rules.contains rule || directive.rules.contains "all"

end AllowDirective

/-- Whether a rule may be broken on a line, and the reason if one is given. -/
inductive Allowance
  | denied
  | allowed (reason : Option String)
  deriving DecidableEq, Repr

namespace Allowance

/-- Whether the rule may be broken. -/
def isAllowed : Allowance → Bool
  | denied => false
  | allowed _ => true

/-- The reason, if one is given. -/
def reason? : Allowance → Option String
  | denied => none
  | allowed reason => reason

end Allowance

namespace Lines

/-- The directive in the line comment of a line. -/
def allowDirective? (lines : Lines) (index : Nat) : Option AllowDirective :=
  (lines.line index).comment.bind fun comment =>
    AllowDirective.ofBody? (Bytes.decode ((lines.raw index).drop (comment.column + 2)))

/-- Whether a rule may be broken on a line: the directive on the line above it that names the rule
counts, else the one on the line itself. -/
def allowance (lines : Lines) (index : Nat) (rule : String) : Allowance :=
  -- Line 0 is empty, so the first line has no line above it.
  match ([index - 1, index].filterMap lines.allowDirective?).find? (·.names rule) with
  | some directive => .allowed directive.reason
  | none => .denied

end Lines
end BracketLint
