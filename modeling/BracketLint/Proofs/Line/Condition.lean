import Mathlib.Data.List.Basic
import BracketLint.Line.Directive

/-!
Conditions of the preprocessor: how they are written and what they say. A condition is built from
integer literals, identifiers and tests whether a name is defined; its operators bind as in the
language, so a condition that is written without parentheses is a disjunction of conjunctions of
comparisons.
-/

namespace BracketLint

/-- The operators between two conditions. -/
inductive ConditionOp
  | or
  | and
  | equal
  | notEqual
  | less
  | lessEqual
  | greater
  | greaterEqual
  deriving DecidableEq, Repr

namespace ConditionOp

/-- How tight an operator binds. -/
def precedence : ConditionOp → Nat
  | or => 0
  | and => 1
  | equal | notEqual => 2
  | less | lessEqual | greater | greaterEqual => 3

def spelling : ConditionOp → List Char
  | or => ['|', '|']
  | and => ['&', '&']
  | equal => ['=', '=']
  | notEqual => ['!', '=']
  | less => ['<']
  | lessEqual => ['<', '=']
  | greater => ['>']
  | greaterEqual => ['>', '=']

/-- Truth as a number. -/
def ofBool (b : Bool) : Int := if b then 1 else 0

/-- What an operator makes of two values. -/
def eval : ConditionOp → Int → Int → Int
  | or, a, b => ofBool (a != 0 || b != 0)
  | and, a, b => ofBool (a != 0 && b != 0)
  | equal, a, b => ofBool (a == b)
  | notEqual, a, b => ofBool (a != b)
  | less, a, b => ofBool (a < b)
  | lessEqual, a, b => ofBool (a ≤ b)
  | greater, a, b => ofBool (b < a)
  | greaterEqual, a, b => ofBool (b ≤ a)

end ConditionOp

/-- A condition as it is parsed. -/
inductive Condition
  | literal (text : List Char)
  | identifier (name : List Char)
  /-- Whether a name is defined; the name may stand in parentheses. -/
  | defined (name : List Char) (inParens : Bool)
  | parens (inner : Condition)
  | not (operand : Condition)
  | binary (op : ConditionOp) (left right : Condition)
  deriving DecidableEq, Repr

/-- What the names in a condition stand for. -/
structure Valuation where
  value : List Char → Int
  isDefined : List Char → Bool

namespace Condition

/-- The characters of identifiers. Beyond ASCII all characters count. -/
def isNameChar (c : Char) : Bool := c.isAlphanum || c == '_' || 128 ≤ c.toNat

/-- The characters of integer literals, with those of prefixes and suffixes and the separator of
digits. -/
def isLiteralChar (c : Char) : Bool := c.isAlphanum || c == '\''

/-- An identifier starts with no digit. -/
def isName : List Char → Bool
  | [] => false
  | c :: cs => !c.isDigit && isNameChar c && cs.all isNameChar

/-- An integer literal starts with a digit. -/
def isLiteral : List Char → Bool
  | [] => false
  | c :: cs => c.isDigit && cs.all isLiteralChar

/-- The value of a digit in some base; letters are digits from ten on. -/
def digit? (base : Nat) (c : Char) : Option Nat :=
  let value :=
    if c.isDigit then c.toNat - '0'.toNat
    else if c.isAlpha then c.toLower.toNat - 'a'.toNat + 10
    else base
  if value < base then some value else none

/-- The number that the digits at the start of a text form; a suffix has no digits. -/
def number (base value : Nat) : List Char → Nat
  | [] => value
  | c :: cs =>
    match digit? base c with
    | some d => number base (value * base + d) cs
    | none => value

/-- The value of an integer literal: hexadecimal, binary, octal or decimal. -/
def literalValue (text : List Char) : Nat :=
  match text.filter (· != '\'') with
  | '0' :: c :: cs =>
    if c == 'x' || c == 'X' then number 16 0 cs
    else if c == 'b' || c == 'B' then number 2 0 cs
    else number 8 0 (c :: cs)
  | digits => number 10 0 digits

/-- How tight a condition binds. -/
def precedence : Condition → Nat
  | binary op _ _ => op.precedence
  | not _ => 4
  | literal _ | identifier _ | defined _ _ | parens _ => 5

/-- Whether a condition is one that a text is parsed to: its names and literals are such, and its
operands bind tighter than its operators, on the left at least as tight. -/
def isWellFormed : Condition → Bool
  | literal text => isLiteral text
  | identifier name => isName name
  | defined name _ => isName name
  | parens inner => inner.isWellFormed
  | not operand => operand.isWellFormed && 4 ≤ operand.precedence
  | binary op left right =>
    left.isWellFormed && right.isWellFormed && op.precedence ≤ left.precedence &&
      op.precedence < right.precedence

def definedWord : List Char := ['d', 'e', 'f', 'i', 'n', 'e', 'd']

def falseWord : List Char := ['f', 'a', 'l', 's', 'e']

def trueWord : List Char := ['t', 'r', 'u', 'e']

/-- How a condition is written, blanks aside. -/
def spelling : Condition → List Char
  | literal text => text
  | identifier name => name
  | defined name inParens =>
    definedWord ++ if inParens then '(' :: (name ++ [')']) else name
  | parens inner => '(' :: (inner.spelling ++ [')'])
  | not operand => '!' :: operand.spelling
  | binary op left right => left.spelling ++ (op.spelling ++ right.spelling)

/-- The value of a condition. The two truth values are no identifiers. -/
def eval (v : Valuation) : Condition → Int
  | literal text => literalValue text
  | identifier name =>
    if name = falseWord then 0 else if name = trueWord then 1 else v.value name
  | defined name _ => ConditionOp.ofBool (v.isDefined name)
  | parens inner => inner.eval v
  | not operand => ConditionOp.ofBool (operand.eval v == 0)
  | binary op left right => op.eval (left.eval v) (right.eval v)

/-- A condition that is false whatever its names stand for. -/
def NeverHolds (c : Condition) : Prop := ∀ v, c.eval v = 0

/-- The first of the conditions between the outermost `||`. -/
def firstDisjunct : Condition → Condition
  | binary .or left _ => left.firstDisjunct
  | c => c

/-- The last of the conditions between the outermost `||`. -/
def lastDisjunct : Condition → Condition
  | binary .or _ right => right
  | c => c

/-- The first of the conditions between the outermost `&&`. -/
def firstConjunct : Condition → Condition
  | binary .and left _ => left.firstConjunct
  | c => c

/-- The last of the conditions between the outermost `&&`. -/
def lastConjunct : Condition → Condition
  | binary .and _ right => right
  | c => c

/-- Whether the outermost operator of a condition is `||`. -/
def isDisjunction : Condition → Bool
  | binary .or _ _ => true
  | _ => false

/-- Whether the outermost operator of a condition is `&&`. -/
def isConjunction : Condition → Bool
  | binary .and _ _ => true
  | _ => false

/-- A zero, which may stand in parentheses. -/
def IsZero (c : Condition) : Prop := c = literal ['0'] ∨ c = parens (literal ['0'])

section Eval

variable {c left right : Condition}

theorem neverHolds_of_isZero (h : c.IsZero) : c.NeverHolds := by
  rcases h with rfl | rfl <;> exact fun _ => rfl

theorem neverHolds_and_left (h : left.NeverHolds) (right : Condition) :
    (binary .and left right).NeverHolds := by
  intro v
  rw [eval, h v]
  rfl

theorem neverHolds_and_right (h : right.NeverHolds) (left : Condition) :
    (binary .and left right).NeverHolds := by
  intro v
  rw [eval, h v, ConditionOp.eval]
  simp [ConditionOp.ofBool]

theorem neverHolds_of_firstConjunct (h : c.firstConjunct.NeverHolds) : c.NeverHolds := by
  fun_induction firstConjunct c with
  | case1 left right ih => exact neverHolds_and_left (ih h) right
  | case2 => exact h

theorem neverHolds_of_lastConjunct (h : c.lastConjunct.NeverHolds) : c.NeverHolds := by
  unfold lastConjunct at h
  split at h
  · exact neverHolds_and_right h _
  · exact h

end Eval

end Condition
end BracketLint
