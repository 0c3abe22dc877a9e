/-!
Decimal texts of floating-point numbers: the fewest digits that read back as the same number, and the
nearest such decimal where several have that many digits. Numbers of common size are written without
an exponent and with at least one digit behind the point.
-/

namespace BracketLint.Decimal

/-- A positive number `mantissa * 2 ^ exponent`, and whether its lower neighbour is only half as far
away as the upper one. -/
structure Binary where
  mantissa : Nat
  exponent : Int
  narrowBelow : Bool
  deriving DecidableEq, Repr

/-- How many fractions a number of one exponent can have: 52 bits hold them. -/
def fractionRange : Nat := 4503599627370496

/-- The number with the given bits, without its sign; infinities and what is no number have none. -/
def Binary.ofBits? (bits : UInt64) : Option Binary :=
  let fraction := bits.toNat % fractionRange
  let exponent := bits.toNat / fractionRange % 2048
  if exponent == 2047 then none
  else if exponent == 0 then some ⟨fraction, -1074, false⟩
  else some ⟨fraction + fractionRange, (exponent : Int) - 1075, fraction == 0 && exponent != 1⟩

/-- A number times powers of two and of ten, where a negative exponent counts as zero. To compare two
numbers, each side takes the powers that the other would divide by. -/
def scaled (a : Nat) (p k : Int) : Nat := a * Nat.pow 2 p.toNat * Nat.pow 10 k.toNat

/-- Whether `a * 2 ^ p` is less than `c * 10 ^ k`. -/
def isBelow (a : Nat) (p : Int) (c : Nat) (k : Int) : Bool := scaled a p (-k) < scaled c (-p) k

/-- Whether `a * 2 ^ p` is greater than `c * 10 ^ k`. -/
def isAbove (a : Nat) (p : Int) (c : Nat) (k : Int) : Bool := scaled c (-p) k < scaled a p (-k)

/-- The integer part of `a * 2 ^ p / 10 ^ k`. -/
def quotient (a : Nat) (p k : Int) : Nat := scaled a p (-k) / scaled 1 (-p) k

/-- Whether a decimal reads back as a number: it lies between the midpoints to the neighbours, or on
one of them when the mantissa is even. -/
def readsBack (x : Binary) (c : Nat) (k : Int) : Bool :=
  -- Midpoints are quarters of the last place where the lower neighbour is nearer.
  let low := 4 * x.mantissa - (if x.narrowBelow then 1 else 2)
  let high := 4 * x.mantissa + 2
  let p := x.exponent - 2
  if x.mantissa % 2 == 0 then !isAbove low p c k && !isBelow high p c k
  else isBelow low p c k && isAbove high p c k

/-- The nearer of two decimals next to each other around a number; the upper one of two equally
near. -/
def nearer (x : Binary) (c : Nat) (k : Int) : Nat :=
  if isBelow x.mantissa (x.exponent + 1) (2 * c + 1) k then c else c + 1

/-- The decimal with its last digit at `10 ^ k` that reads back as a number, if there is one. -/
def onGrid? (x : Binary) (k : Int) : Option Nat :=
  let c := quotient x.mantissa x.exponent k
  match readsBack x c k, readsBack x (c + 1) k with
  | true, true => some (nearer x c k)
  | true, false => some c
  | false, true => some (c + 1)
  | false, false => none

/-- Tries ever finer grids, `steps` of them. -/
def search (x : Binary) : (steps : Nat) → Int → Nat × Int
  | 0, k => (quotient x.mantissa x.exponent k, k)
  | steps + 1, k =>
    match onGrid? x k with
    | some c => (c, k)
    | none => search x steps (k - 1)

/-- The shortest decimal `c * 10 ^ k` that reads back as a number. No double has more than 309 digits
in front of its point, and 324 behind it are enough. -/
def shortest (x : Binary) : Nat × Int := search x 640 309

/-- The digits of a decimal whose last one stands for `10 ^ k`, with a point and at least one digit
on either side of it. -/
def plain (digits : List Char) (k : Int) : List Char :=
  if 0 ≤ k then digits ++ List.replicate k.toNat '0' ++ ['.', '0']
  else
    let places := (-k).toNat
    let padded := List.replicate (places + 1 - digits.length) '0' ++ digits
    padded.take (padded.length - places) ++ '.' :: padded.drop (padded.length - places)

/-- The digits of a decimal whose first one stands for `10 ^ power`, with a point behind that one if
others follow, and the power. -/
def scientific (digits : List Char) (power : Int) : List Char :=
  digits.take 1 ++ (if digits.length ≤ 1 then [] else '.' :: digits.drop 1) ++
    'e' :: (toString power).toList

/-- Whether a decimal whose first digit stands for `10 ^ power` is written without an exponent. -/
def isPlain (power : Int) : Bool := -4 ≤ power && power < 16

/-- The text of the decimal `c * 10 ^ k`. -/
def text (c : Nat) (k : Int) : String :=
  let digits := (toString c).toList
  let power := k + digits.length - 1
  String.ofList (if isPlain power then plain digits k else scientific digits power)

/-- The decimal text of a floating-point number. -/
def ofFloat (value : Float) : String :=
  let sign := if fractionRange * 2048 ≤ value.toBits.toNat then "-" else ""
  match Binary.ofBits? value.toBits with
  | none => if value.isNaN then "NaN" else sign ++ "inf"
  | some x =>
    if x.mantissa == 0 then sign ++ text 0 0
    else
      let (c, k) := shortest x
      sign ++ text c k

end BracketLint.Decimal
