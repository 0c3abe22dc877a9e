import BracketLint.Text.Search

/-!
File paths with `/` between their parts. Two spellings of a path are the same path when they have
the same components; the spelling is kept because messages and reports show it.
-/

namespace BracketLint

/-- A path as it is written. -/
structure Path where
  text : String
  deriving DecidableEq, Repr, Inhabited

namespace Path

/-- A step of a path, in the order in which paths are compared. -/
inductive Component
  | root
  | current
  | parent
  | normal (name : String)
  deriving DecidableEq, Repr

namespace Component

/-- The component that a part of a path stands for; empty parts and dots stand for none. -/
def ofPiece? : String → Option Component
  | "" => none
  | "." => none
  | ".." => some parent
  | name => some (normal name)

/-- The rank of a component among those of other kinds. -/
def rank : Component → Nat
  | root => 0
  | current => 1
  | parent => 2
  | normal _ => 3

/-- Components are ordered by kind, and names by their characters. -/
def compare : Component → Component → Ordering
  | normal a, normal b => compareOfLessAndEq a b
  | a, b => Ord.compare a.rank b.rank

end Component

/-- Whether a path starts at the root of the file system. -/
def isAbsolute (p : Path) : Bool := p.text.toList.head? == some '/'

/-- The parts of a path between its slashes, the root's own slash apart. -/
def pieces (p : Path) : List String :=
  let parts := (Text.split '/' p.text.toList).map String.ofList
  if p.isAbsolute then parts.tail else parts

/-- The component in front of all named ones: the root, or a leading dot. -/
def start? (p : Path) : Option Component :=
  if p.isAbsolute then some .root
  else if p.pieces.head? == some "." then some .current else none

/-- The components of a path. -/
def components (p : Path) : List Component :=
  p.start?.toList ++ p.pieces.filterMap Component.ofPiece?

/-- The last component, if it is a name. -/
def fileName? (p : Path) : Option String :=
  match p.components.getLast? with
  | some (.normal name) => some name
  | _ => none

/-- The part of a file's name behind its last dot; a dot in front of the name starts none. -/
def extension? (p : Path) : Option String :=
  p.fileName?.bind fun name =>
    match name.toList.reverse.span (· != '.') with
    | (_, []) => none
    | (_, [_]) => none
    | (reversed, _) => some (String.ofList reversed.reverse)

/-- Whether a part of a path stands for no component. -/
def isSkipped (piece : String) : Bool := piece == "" || piece == "."

/-- The parts left when the given components are taken off the front. -/
def dropComponents : List Component → List String → Option (List String)
  | [], pieces => some pieces
  | _ :: _, [] => none
  | c :: cs, piece :: pieces =>
    match Component.ofPiece? piece with
    | none => dropComponents (c :: cs) pieces
    | some d => if c == d then dropComponents cs pieces else none

/-- Parts without those at the end that stand for no component. -/
def dropSkippedEnd (pieces : List String) : List String :=
  (pieces.reverse.dropWhile isSkipped).reverse

/-- The path as seen from `base`; `none` when it does not lie below it. What is left keeps its
spelling, empty ends apart. -/
def relativeTo? (p base : Path) : Option Path :=
  if base.components.isEmpty then
    let kept := dropSkippedEnd p.pieces
    if p.isAbsolute then some ⟨"/" ++ "/".intercalate kept⟩
    else if kept.isEmpty && p.start? == some .current then some ⟨"."⟩
    else some ⟨"/".intercalate kept⟩
  else if p.start? == base.start? then
    (dropComponents (base.pieces.filterMap Component.ofPiece?) p.pieces).map fun rest =>
      ⟨"/".intercalate (dropSkippedEnd (rest.dropWhile isSkipped))⟩
  else none

/-- A path below another one; an absolute path replaces it. -/
def join (p q : Path) : Path :=
  if q.isAbsolute then q
  else if p.text == "" || p.text.toList.getLast? == some '/' then ⟨p.text ++ q.text⟩
  else ⟨p.text ++ "/" ++ q.text⟩

/-- The path without its last component; nothing for a root and for an empty path. What is left keeps
its spelling, empty ends apart. -/
def parent? (p : Path) : Option Path :=
  let dotted := p.start? == some .current
  let pieces := dropSkippedEnd (if dotted then p.pieces.tail else p.pieces)
  if pieces.isEmpty then if dotted then some ⟨""⟩ else none
  else
    let kept := dropSkippedEnd pieces.dropLast
    let text := "/".intercalate (if dotted then "." :: kept else kept)
    some ⟨if p.isAbsolute then "/" ++ text else text⟩

/-- A path and at most `count` paths around it. -/
def outwards (p : Path) : Nat → List Path
  | 0 => [p]
  | count + 1 =>
    match p.parent? with
    | some q => p :: q.outwards count
    | none => [p]

/-- A path and all paths around it, from the inside outwards. -/
def ancestors (p : Path) : List Path := p.outwards p.components.length

/-- Component by component, as words in a dictionary. -/
def compareComponents : List Component → List Component → Ordering
  | [], [] => .eq
  | [], _ :: _ => .lt
  | _ :: _, [] => .gt
  | a :: as, b :: bs => (a.compare b).then (compareComponents as bs)

/-- The order of paths in reports. -/
def compare (p q : Path) : Ordering := compareComponents p.components q.components

end Path
end BracketLint
