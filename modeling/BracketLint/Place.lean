/-!
Positions in a file of scrubbed lines.
-/

namespace BracketLint

/-- A position: a line and a byte column on it, or the position in front of all lines. Line 0 is
the empty line that stands before the file's own lines. -/
inductive Place
  | front
  | on (line column : Nat)
  deriving DecidableEq, Repr, Inhabited

namespace Place

/-- The line of a position; the front counts as line 0. -/
def line : Place → Nat
  | front => 0
  | on line _ => line

/-- The byte column of a position. -/
def column : Place → Nat
  | front => 0
  | on _ column => column

/-- Positions are ordered by line and then by column, behind the front. -/
def le : Place → Place → Bool
  | front, _ => true
  | on _ _, front => false
  | on l c, on l' c' => l < l' || (l == l' && c ≤ c')

/-- One position comes before another one. -/
def lt (p q : Place) : Bool := !le q p

instance : LE Place := ⟨fun p q => le p q = true⟩
instance : LT Place := ⟨fun p q => lt p q = true⟩
instance (p q : Place) : Decidable (p ≤ q) := inferInstanceAs (Decidable (le p q = true))
instance (p q : Place) : Decidable (p < q) := inferInstanceAs (Decidable (lt p q = true))

/-- The earlier of two positions. -/
def min (p q : Place) : Place := if q < p then q else p

/-- Whether a position is the front. -/
def isFront : Place → Bool
  | front => true
  | on _ _ => false

/-- How a position is written in messages, with columns counted from one. -/
def render : Place → String
  | front => "rend"
  | on line column => toString line ++ ":" ++ toString (column + 1)

end Place
end BracketLint
