import BracketLint.Lines.Cursor

/-!
Matching of brackets. The brackets of the scrubbed lines are listed in order, and groups are built
from that list: a group holds the groups between its two brackets. Brackets that fit nowhere are
reported, and the groups they break are dropped.
-/

namespace BracketLint

/-- A bracket with its position. -/
structure Bracket where
  place : Place
  shape : Shape
  closes : Bool
  deriving DecidableEq, Repr

/-- The shape of a bracket byte and whether it closes a group. -/
def Bracket.ofByte? (b : UInt8) : Option (Shape × Bool) :=
  if b == Ascii.openParen then some (.paren, false)
  else if b == Ascii.closeParen then some (.paren, true)
  else if b == Ascii.openBrace then some (.brace, false)
  else if b == Ascii.closeBrace then some (.brace, true)
  else none

namespace Lines

/-- The brackets of a line from a column on. -/
def bracketsFrom (line : Nat) : (column : Nat) → Bytes → List Bracket
  | _, [] => []
  | column, b :: rest =>
    match Bracket.ofByte? b with
    | some (shape, closes) =>
      ⟨.on line column, shape, closes⟩ :: bracketsFrom line (column + 1) rest
    | none => bracketsFrom line (column + 1) rest

/-- The brackets of a file, in order. -/
def brackets (lines : Lines) : List Bracket :=
  (List.range lines.lastIndex).flatMap fun line => bracketsFrom line 0 (lines.text line)

end Lines

/-- Groups side by side: the first one with the groups inside it, and those behind it. -/
inductive Forest
  | empty
  | group (shape : Shape) (opened closed : Place) (inside behind : Forest)
  deriving DecidableEq, Repr

namespace Forest

/-- The number of groups, those inside of others included. -/
def size : Forest → Nat
  | empty => 0
  | group _ _ _ inside behind => 1 + inside.size + behind.size

/-- The deepest nesting of groups. -/
def nestingLimit : Nat := 256

/-- How the search for the end of a group ends, in a list of fewer than `bound` brackets. -/
inductive Outcome (bound : Nat)
  /-- The group closes at a position, with some groups inside it, and `rest` lies behind it. -/
  | closed (place : Place) (inside : Forest) (rest : List Bracket) (shorter : rest.length < bound)
  /-- A parenthesis meets a closing brace, which an outer brace may take as its own. -/
  | crossed (place : Place) (rest : List Bracket) (shorter : rest.length < bound)
  /-- The brackets run out, or are nested too deep. -/
  | unfinished

/-- Why a group could not be closed. -/
inductive Breakage
  | crossed (place : Place)
  | unfinished
  deriving DecidableEq, Repr

/-- The wording of the reason. -/
def Breakage.message : Breakage → String
  | crossed place => "closed by the wrong bracket at " ++ place.render
  | unfinished => "not closed before end of file"

namespace Outcome

/-- The same outcome in a longer list. -/
def relax {m n : Nat} (h : m ≤ n) : Outcome m → Outcome n
  | closed place inside rest shorter => closed place inside rest (Nat.lt_of_lt_of_le shorter h)
  | crossed place rest shorter => crossed place rest (Nat.lt_of_lt_of_le shorter h)
  | unfinished => unfinished

/-- Puts a group in front of those inside the group whose end was searched. -/
def addGroup {n : Nat} (shape : Shape) (opened closedAt : Place) (inner : Forest) :
    Outcome n → Outcome n
  | closed place inside rest shorter =>
    closed place (group shape opened closedAt inner inside) rest shorter
  | crossed place rest shorter => crossed place rest shorter
  | unfinished => unfinished

end Outcome

/-- Searches the end of a group that was opened at a position, with `depth` groups open. A closing
parenthesis in a brace is passed over; a closing brace in a parenthesis breaks the parentheses open
and closes the brace around them. -/
def search (depth : Nat) (shape : Shape) (opened : Place) :
    (brackets : List Bracket) → Outcome brackets.length × List Diagnostic
  | [] => (.unfinished, [⟨opened, .unclosed shape⟩])
  | b :: rest =>
    if b.closes then
      if b.shape = shape then (.closed b.place .empty rest (Nat.lt_succ_self _), [])
      else match shape with
        | .paren => (.crossed b.place rest (Nat.lt_succ_self _), [⟨b.place, .braceClosesParen opened⟩])
        | .brace =>
          -- The parenthesis is passed over as if it were not there.
          let (outcome, found) := search depth .brace opened rest
          (outcome.relax (Nat.le_succ _), ⟨b.place, .parenInBrace opened⟩ :: found)
    -- A bracket beyond the limit ends the matching of the whole file.
    else if nestingLimit ≤ depth then (.unfinished, [⟨b.place, .tooDeep nestingLimit⟩])
    else
      match search (depth + 1) b.shape b.place rest with
      | (.closed place inside rest₁ shorter, found) =>
        -- The inner group is complete, and the search goes on behind it.
        let (outcome, found₁) := search depth shape opened rest₁
        ((outcome.relax (Nat.le_of_lt (Nat.lt_succ_of_lt shorter))).addGroup b.shape b.place place
          inside, found ++ found₁)
      | (.crossed place rest₁ shorter, found) =>
        match shape with
        | .paren => (.crossed place rest₁ (Nat.lt_succ_of_lt shorter), found)
        -- The brace closes where its parentheses broke, and these leave no group behind.
        | .brace => (.closed place .empty rest₁ (Nat.lt_succ_of_lt shorter), found)
      | (.unfinished, found) => (.unfinished, found)
termination_by brackets => brackets.length
decreasing_by
  · exact Nat.lt_succ_self _
  · exact Nat.lt_succ_self _
  · exact Nat.lt_succ_of_lt shorter

/-- The groups of a list of brackets, whether a group was still open at its end, and the brackets
that fit nowhere. -/
structure Matching where
  groups : Forest
  earlyEnd : Bool
  diagnostics : List Diagnostic
  deriving DecidableEq, Repr

/-- Matches the brackets of a file. Closing brackets outside of groups are reported; a group that is
not finished ends the matching. -/
def ofBrackets : List Bracket → Matching
  | [] => ⟨.empty, false, []⟩
  | b :: rest =>
    if b.closes then
      let behind := ofBrackets rest
      { behind with diagnostics := ⟨b.place, .unmatchedCloser b.shape⟩ :: behind.diagnostics }
    else
      match search 1 b.shape b.place rest with
      | (.closed place inside rest₁ _, found) =>
        let behind := ofBrackets rest₁
        { behind with
          groups := .group b.shape b.place place inside behind.groups
          diagnostics := found ++ behind.diagnostics }
      | (.crossed _ rest₁ _, found) =>
        let behind := ofBrackets rest₁
        { behind with diagnostics := found ++ behind.diagnostics }
      | (.unfinished, found) => ⟨.empty, true, found⟩
termination_by brackets => brackets.length
decreasing_by
  all_goals simp only [List.length_cons]; omega

end Forest
end BracketLint
