import BracketLint.Diagnostic
import BracketLint.Text.Blank
import BracketLint.Text.Search

/-!
Blanking of preprocessor text, on lines without comments and trailing blanks. Regions that cannot be
compiled, and second branches of conditionals, go first; every directive that is left goes next,
together with the lines that continue it.
-/

namespace BracketLint

/-- A directive, as far as conditionals need to know it. -/
inductive Directive
  | ifCondition (condition : Bytes)
  | ifDefined
  | elifCondition (condition : Bytes)
  | elseBranch
  | endif
  | other
  deriving DecidableEq, Repr

namespace Directive

/-- The directive with a given name and argument. -/
def ofName (name : String) (argument : Bytes) : Directive :=
  match name with
  | "if" => ifCondition argument
  | "ifdef" => ifDefined
  | "ifndef" => ifDefined
  | "elif" => elifCondition argument
  | "else" => elseBranch
  | "endif" => endif
  | _ => other

/-- The directive on a line whose first character, blanks aside, is a hash sign. -/
def ofLine? (line : Bytes) : Option Directive :=
  match Bytes.trimStart line with
  | [] => none
  | b :: rest =>
    if b == Ascii.hash then
      let text := Bytes.trimStart rest
      some (ofName (Bytes.toWord (text.takeWhile Ascii.isWordByte))
        (Bytes.trim (text.dropWhile Ascii.isWordByte)))
    else none

end Directive

/-- Whether a condition's text, with all blanks removed, is one of the forms that never hold. -/
def isAlwaysFalse (condition : List Char) : Bool :=
  let text := condition.filter (!isBlank ·)
  [ "0", "(0)", "false", "!1" ].any (fun form => text == form.toList) ||
    Text.startsWith text "0&&" || Text.startsWith text "(0)&&" ||
    Text.endsWith text "&&0" || Text.endsWith text "&&(0)"

/-- The directive that starts a dead region at a line: a condition that never holds, or the second
branch of a conditional. -/
def regionOpener? (line : Bytes) : Option RegionOpener :=
  match Directive.ofLine? line with
  | some (.ifCondition condition) =>
    if isAlwaysFalse condition.decode then some .ifCondition else none
  | some (.elifCondition condition) =>
    if isAlwaysFalse condition.decode then some .elifCondition else none
  | some .elseBranch => some .elseBranch
  | _ => none

/-- The number of lines through the directive that ends the conditional, with `depth` more
conditionals open inside it. -/
def endifLength? (depth : Nat) : List Bytes → Option Nat
  | [] => none
  | line :: rest =>
    match Directive.ofLine? line with
    | some (.ifCondition _) => (endifLength? (depth + 1) rest).map (· + 1)
    | some .ifDefined => (endifLength? (depth + 1) rest).map (· + 1)
    | some .endif =>
      -- The end of an inner conditional is passed over.
      match depth with
      | 0 => some 1
      | outer + 1 => (endifLength? outer rest).map (· + 1)
    | _ => (endifLength? depth rest).map (· + 1)

/-- Empties the lines of dead regions, from line number `index` on. A region without an end reaches
to the end of the file and is reported at the directive that starts it. -/
def blankDeadRegions (index : Nat) : List Bytes → List Bytes × List Diagnostic
  | [] => ([], [])
  | line :: rest =>
    match regionOpener? line with
    | none =>
      let (lines, diagnostics) := blankDeadRegions (index + 1) rest
      (line :: lines, diagnostics)
    | some opener =>
      match endifLength? 0 rest with
      | some length =>
        -- The directives of the region are emptied with it, the last one included.
        let (lines, diagnostics) := blankDeadRegions (index + 1 + length) (rest.drop length)
        ([] :: List.replicate length [] ++ lines, diagnostics)
      | none =>
        ([] :: rest.map fun _ => [],
          [⟨.on index (line.length - (Bytes.trimStart line).length), .missingEndif opener⟩])
termination_by lines => lines.length
decreasing_by all_goals simp only [List.length_drop, List.length_cons]; omega

/-- Empties every directive and the lines that continue it; `continued` tells whether the line
before was emptied and ended in a backslash. -/
def blankDirectives (continued : Bool) : List Bytes → List Bytes
  | [] => []
  | line :: rest =>
    if continued || (Directive.ofLine? line).isSome then
      [] :: blankDirectives (line.endsIn Ascii.backslash) rest
    else line :: blankDirectives false rest

end BracketLint
