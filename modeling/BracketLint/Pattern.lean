/-!
Patterns over symbols, as wildcards need them: a symbol of a set, a run of symbols of a set, parts
one after another, and a choice of branches. A pattern is followed through a text by what it can
leave of it; it matches a text of which it can leave nothing.
-/

namespace BracketLint

/-- A set of symbols: those in some ranges, ends included, or all others. -/
structure SymbolSet (α : Type) where
  negated : Bool
  ranges : List (α × α)
  deriving DecidableEq, Repr

namespace SymbolSet

variable {α : Type}

/-- All symbols. -/
def all : SymbolSet α := ⟨true, []⟩

/-- One symbol. -/
def only (a : α) : SymbolSet α := ⟨false, [(a, a)]⟩

/-- All symbols but one. -/
def allBut (a : α) : SymbolSet α := ⟨true, [(a, a)]⟩

/-- Whether a symbol is in the set. -/
def contains [LE α] [DecidableLE α] (set : SymbolSet α) (a : α) : Bool :=
  (set.ranges.any fun range => range.1 ≤ a && a ≤ range.2) != set.negated

end SymbolSet

/-- A pattern of texts over some symbols. -/
inductive Pattern (α : Type)
  | one (set : SymbolSet α)
  | run (set : SymbolSet α)
  | sequence (parts : List (Pattern α))
  | choice (branches : List (Pattern α))

namespace Pattern

variable {α : Type}

/-- The empty text. -/
def nothing : Pattern α := sequence []

/-- Any text. -/
def anything : Pattern α := run .all

/-- A fixed text. -/
def fixed (text : List α) : Pattern α := sequence (text.map fun a => one (.only a))

variable [LE α] [DecidableLE α]

/-- What is left of a text behind a run of symbols of a set, for each length that the run can
have. -/
def runRests (set : SymbolSet α) : List α → List (List α)
  | [] => [[]]
  | a :: rest => (a :: rest) :: if set.contains a then runRests set rest else []

variable [BEq α]

mutual

/-- What is left of a text behind a pattern, for each way in which it can start the text. -/
def rests : Pattern α → List α → List (List α)
  | one _, [] => []
  | one set, a :: rest => if set.contains a then [rest] else []
  | run set, text => runRests set text
  | sequence parts, text => restsOfParts parts [text]
  | choice branches, text => restsOfBranches branches text

/-- What is left of some texts behind parts one after another. Texts that several ways leave are
followed once. -/
def restsOfParts : List (Pattern α) → List (List α) → List (List α)
  | [], texts => texts
  | part :: parts, texts => restsOfParts parts (texts.flatMap (rests part)).eraseDups

/-- What is left of a text behind one of some branches. -/
def restsOfBranches : List (Pattern α) → List α → List (List α)
  | [], _ => []
  | branch :: branches, text => rests branch text ++ restsOfBranches branches text

end

/-- Whether a pattern matches the whole of a text. -/
def matchesAll (pattern : Pattern α) (text : List α) : Bool :=
  (pattern.rests text).any (·.isEmpty)

end Pattern
end BracketLint
