import BracketLint.Path
import BracketLint.Pattern

/-!
Globs that leave files out, such as `**/build/**`. A question mark stands for one character and a
star for any number of them, slashes included. Two stars that fill a part of the path stand for any
number of parts, and a set in square brackets for one of its characters.
-/

namespace BracketLint

/-- A glob, as it was written and as a pattern of paths. -/
structure Glob where
  text : String
  pattern : Pattern Char

namespace Glob

/-- What can be wrong with a glob. -/
inductive Cause
  | unclosedSet
  | threeStars
  | partialRecursion
  deriving DecidableEq, Repr

/-- The words for what is wrong. -/
def Cause.message : Cause → String
  | unclosedSet => "invalid range pattern"
  | threeStars => "wildcards are either regular `*` or recursive `**`"
  | partialRecursion => "recursive wildcards must form a single path component"

/-- A fault in a glob, with the number of characters in front of it. -/
structure Fault where
  position : Nat
  cause : Cause
  deriving DecidableEq, Repr

/-- The message about a fault. -/
def Fault.message (fault : Fault) : String :=
  "Pattern syntax error near position " ++ toString fault.position ++ ": " ++ fault.cause.message

/-- The ranges that the characters between square brackets stand for. A dash between two characters
makes them the ends of a range. -/
def ranges : List Char → List (Char × Char)
  | a :: '-' :: b :: rest => (a, b) :: ranges rest
  | a :: rest => (a, a) :: ranges rest
  | [] => []

/-- The members of a set up to its closing bracket, and the text behind it. The first character is a
member whatever it is. -/
def members? : List Char → Option (List (Char × Char) × List Char)
  | [] => none
  | first :: more =>
    match more.dropWhile (· != ']') with
    | [] => none
    | _ :: rest => some (ranges (first :: more.takeWhile (· != ']')), rest)

/-- The set in the text behind an opening bracket; an exclamation mark in front turns it into all
other characters. -/
def set? : List Char → Option (SymbolSet Char × List Char)
  | '!' :: text => (members? text).map fun found => (⟨true, found.1⟩, found.2)
  | text => (members? text).map fun found => (⟨false, found.1⟩, found.2)

theorem length_of_members? {text rest : List Char} {found : List (Char × Char)}
    (h : members? text = some (found, rest)) : rest.length < text.length := by
  match text with
  | [] => simp [members?] at h
  | first :: more =>
    have bound : (more.dropWhile (· != ']')).length ≤ more.length :=
      (List.dropWhile_sublist _).length_le
    simp only [members?] at h
    match hd : more.dropWhile (· != ']') with
    | [] => simp [hd] at h
    | _ :: behind =>
      simp only [hd, Option.some.injEq, Prod.mk.injEq] at h
      obtain ⟨-, rfl⟩ := h
      rw [hd] at bound
      simp only [List.length_cons] at bound ⊢
      omega

theorem length_of_set? {text rest : List Char} {set : SymbolSet Char}
    (h : set? text = some (set, rest)) : rest.length < text.length := by
  unfold set? at h
  split at h
  · obtain ⟨⟨found, behind⟩, hfound, heq⟩ := Option.map_eq_some_iff.1 h
    simp only [Prod.mk.injEq] at heq
    obtain ⟨-, rfl⟩ := heq
    have := length_of_members? hfound
    simp only [List.length_cons]
    omega
  · obtain ⟨⟨found, behind⟩, hfound, heq⟩ := Option.map_eq_some_iff.1 h
    simp only [Prod.mk.injEq] at heq
    obtain ⟨-, rfl⟩ := heq
    exact length_of_members? hfound

/-- Any number of parts of a path, each with its slash. -/
def someParts : Pattern Char :=
  .choice [.nothing, .sequence [.anything, .one (.only '/')]]

/-- The pattern of a glob's text from a position on. `atStart` says whether a part of the path starts
there. Two stars that end the glob stand for anything, also in front of a last slash. -/
def read (position : Nat) (atStart : Bool) (text : List Char) :
    Except Fault (List (Pattern Char)) :=
  match text with
  | [] => .ok []
  | '?' :: rest => (read (position + 1) false rest).map (.one .all :: ·)
  | '*' :: '*' :: '*' :: _ => .error ⟨position + 2, .threeStars⟩
  | '*' :: '*' :: rest =>
    if atStart then
      match rest with
      -- Behind two stars only a slash may follow, and that slash may end the glob.
      | [] => .ok [.anything]
      | ['/'] => .ok [.anything]
      | '/' :: behind => (read (position + 3) true behind).map (someParts :: ·)
      | _ :: _ => .error ⟨position + 2, .partialRecursion⟩
    else .error ⟨position - 1, .partialRecursion⟩
  | '*' :: rest => (read (position + 1) false rest).map (.anything :: ·)
  | '[' :: rest =>
    match h : set? rest with
    | none => .error ⟨position, .unclosedSet⟩
    | some (set, behind) =>
      have := length_of_set? h
      (read (position + 1 + (rest.length - behind.length)) false behind).map (.one set :: ·)
  | c :: rest => (read (position + 1) (c == '/') rest).map (.one (.only c) :: ·)
termination_by text.length
decreasing_by all_goals simp_all; try omega

/-- The glob with a text. -/
def parse (text : String) : Except Fault Glob :=
  (read 0 true text.toList).map fun parts => ⟨text, .sequence parts⟩

/-- Whether a glob stands for a path, character by character. -/
def matchesPath (glob : Glob) (path : Path) : Bool :=
  glob.pattern.matchesAll path.text.toList

end Glob
end BracketLint
