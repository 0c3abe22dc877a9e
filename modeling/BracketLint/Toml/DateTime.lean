/-!
Dates and times of TOML: a date, a time of day, or a date with a time and perhaps the offset of a time
zone. Each has one text, however it was written.
-/

namespace BracketLint.Toml

/-- Decimal digits. -/
def isDigit (c : Char) : Bool := '0' ≤ c && c ≤ '9'

/-- The number that two digits write. -/
def twoDigits? (a b : Char) : Option Nat :=
  if isDigit a && isDigit b then some ((a.toNat - 48) * 10 + (b.toNat - 48)) else none

/-- The digits of a number, with zeros in front up to some width. -/
def padded (width n : Nat) : List Char :=
  List.replicate (width - (Nat.toDigits 10 n).length) '0' ++ Nat.toDigits 10 n

/-- A day. -/
structure Date where
  year : Nat
  month : Nat
  day : Nat
  deriving DecidableEq, Repr

namespace Date

/-- The number of days of a month. -/
def daysIn (year month : Nat) : Nat :=
  if month == 2 then
    if (year % 4 == 0 && year % 100 != 0) || year % 400 == 0 then 29 else 28
  else if month == 4 || month == 6 || month == 9 || month == 11 then 30
  else 31

/-- Reads a date. -/
def read? (cs : List Char) : Option (Date × List Char) :=
  match cs with
  | a :: b :: c :: d :: '-' :: e :: f :: '-' :: g :: h :: rest => do
    let year := (← twoDigits? a b) * 100 + (← twoDigits? c d)
    let month ← twoDigits? e f
    let day ← twoDigits? g h
    if 1 ≤ month && month ≤ 12 && 1 ≤ day && day ≤ daysIn year month then
      some (⟨year, month, day⟩, rest)
    else none
  | _ => none

/-- The text of a date. -/
def text (date : Date) : List Char :=
  padded 4 date.year ++ '-' :: padded 2 date.month ++ '-' :: padded 2 date.day

end Date

/-- A time of day. -/
structure TimeOfDay where
  hour : Nat
  minute : Nat
  second : Nat
  nanosecond : Nat := 0
  deriving DecidableEq, Repr

namespace TimeOfDay

/-- The nanoseconds that the digits of a fraction of a second write. Digits behind the ninth do not
count. -/
def nanoseconds (digits : List Char) : Nat :=
  let kept := digits.take 9
  (kept ++ List.replicate (9 - kept.length) '0').foldl (fun n c => n * 10 + (c.toNat - 48)) 0

/-- Reads a time of day. A minute may have a leap second. -/
def read? (cs : List Char) : Option (TimeOfDay × List Char) :=
  match cs with
  | a :: b :: ':' :: c :: d :: ':' :: e :: f :: rest => do
    let hour ← twoDigits? a b
    let minute ← twoDigits? c d
    let second ← twoDigits? e f
    if hour ≤ 23 && minute ≤ 59 && second ≤ 60 then
      match rest with
      | '.' :: rest₁ =>
        let digits := rest₁.takeWhile isDigit
        if digits.isEmpty then none
        else some (⟨hour, minute, second, nanoseconds digits⟩, rest₁.dropWhile isDigit)
      | _ => some (⟨hour, minute, second, 0⟩, rest)
    else none
  | _ => none

/-- The text of a time of day. A fraction of a second ends in no zero. -/
def text (time : TimeOfDay) : List Char :=
  padded 2 time.hour ++ ':' :: padded 2 time.minute ++ ':' :: padded 2 time.second ++
    if time.nanosecond == 0 then []
    else '.' :: ((padded 9 time.nanosecond).reverse.dropWhile (· == '0')).reverse

end TimeOfDay

/-- How far a time zone is ahead of universal time. -/
inductive Offset
  | universal
  | minutes (ahead : Int)
  deriving DecidableEq, Repr

namespace Offset

/-- The offset that a whole text writes. -/
def ofText? (cs : List Char) : Option Offset :=
  match cs with
  | ['Z'] => some universal
  | ['z'] => some universal
  | [sign, a, b, ':', c, d] => do
    let hours ← twoDigits? a b
    let minutes ← twoDigits? c d
    let ahead : Int := hours * 60 + minutes
    if 23 < hours || 59 < minutes then none
    else if sign == '+' then some (.minutes ahead)
    else if sign == '-' then some (.minutes (-ahead))
    else none
  | _ => none

/-- The text of an offset. -/
def text : Offset → List Char
  | universal => ['Z']
  | minutes ahead =>
    (if ahead < 0 then '-' else '+') :: padded 2 (ahead.natAbs / 60) ++
      ':' :: padded 2 (ahead.natAbs % 60)

end Offset

/-- A date, a time of day, or both, perhaps with an offset. -/
structure DateTime where
  date : Option Date := none
  time : Option TimeOfDay := none
  offset : Option Offset := none
  deriving DecidableEq, Repr

namespace DateTime

/-- The date or time that a whole text writes. Only a date with a time of day has an offset. -/
def ofText? (cs : List Char) : Option DateTime :=
  match Date.read? cs with
  | none =>
    match TimeOfDay.read? cs with
    | some (time, []) => some { time := some time }
    | _ => none
  | some (date, []) => some { date := some date }
  | some (date, mark :: rest) =>
    if mark == 'T' || mark == 't' || mark == ' ' then
      match TimeOfDay.read? rest with
      | none => none
      | some (time, []) => some { date := some date, time := some time }
      | some (time, rest) =>
        (Offset.ofText? rest).map fun offset =>
          { date := some date, time := some time, offset := some offset }
    else none

/-- The text of a date or time. -/
def text (value : DateTime) : String :=
  let mark := if value.date.isSome && value.time.isSome then ['T'] else []
  String.ofList ((value.date.map (·.text)).getD [] ++ mark ++ (value.time.map (·.text)).getD [] ++
    (value.offset.map (·.text)).getD [])

end DateTime
end BracketLint.Toml
