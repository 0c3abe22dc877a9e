import BracketLint.Json.Reader

/-!
The grammar of JSON texts, with blanks wherever JSON allows them and every escape inside strings.
-/

namespace BracketLint.Json

/-- A text of blanks. -/
def IsGap (text : List Char) : Prop := ∀ c ∈ text, isSpace c = true

/-- Spellings of a character inside a string. -/
inductive WritesChar : Char → List Char → Prop
  | plain {c : Char} (quote : c.toNat ≠ 34) (backslash : c ≠ '\\') (control : 32 ≤ c.toNat) :
    WritesChar c [c]
  | short {c letter : Char} (escape : simpleEscape? letter = some c) :
    WritesChar c ['\\', letter]
  | unit {a b d e : Char} {n : Nat} (digits : fourDigits? a b d e = some n)
    (high : isHighSurrogate n = false) (low : isLowSurrogate n = false) :
    WritesChar (Char.ofNat n) ['\\', 'u', a, b, d, e]
  | pair {a b d e a₂ b₂ d₂ e₂ : Char} {high low : Nat} (first : fourDigits? a b d e = some high)
    (second : fourDigits? a₂ b₂ d₂ e₂ = some low) (isHigh : isHighSurrogate high = true)
    (isLow : isLowSurrogate low = true) :
    WritesChar (Char.ofNat (0x10000 + (high - 0xD800) * 1024 + (low - 0xDC00)))
      ['\\', 'u', a, b, d, e, '\\', 'u', a₂, b₂, d₂, e₂]

/-- Spellings of the characters of a string, one behind the other. -/
inductive WritesChars : List Char → List Char → Prop
  | nil : WritesChars [] []
  | cons {c : Char} {cs spelling text : List Char} (first : WritesChar c spelling)
    (others : WritesChars cs text) : WritesChars (c :: cs) (spelling ++ text)

/-- Texts of a string, quotes included. -/
inductive WritesString : String → List Char → Prop
  | mk {s : String} {text : List Char} (chars : WritesChars s.toList text) :
    WritesString s ('\x22' :: (text ++ ['\x22']))

/-- The digits of a whole number: at least one, and no zero in front of others. -/
structure IsWhole (digits : List Char) : Prop where
  nonempty : digits ≠ []
  isDigit : ∀ c ∈ digits, isDigit c = true
  leadingZero : digits.head? = some '0' → digits.length = 1

/-- A fraction with its dot, or nothing. -/
inductive IsFraction : List Char → Prop
  | none : IsFraction []
  | digits {digits : List Char} (nonempty : digits ≠ [])
    (isDigit : ∀ c ∈ digits, isDigit c = true) : IsFraction ('.' :: digits)

/-- An exponent with its letter, or nothing. -/
inductive IsExponent : List Char → Prop
  | none : IsExponent []
  | digits {letter : Char} {sign digits : List Char} (isLetter : letter = 'e' ∨ letter = 'E')
    (isSign : sign = [] ∨ sign = ['+'] ∨ sign = ['-']) (nonempty : digits ≠ [])
    (isDigit : ∀ c ∈ digits, isDigit c = true) : IsExponent (letter :: (sign ++ digits))

/-- The sign of a number. -/
def minus (negative : Bool) : List Char := if negative then ['-'] else []

/-- Spellings of numbers that are no integers: they have a fraction or an exponent, or are minus
zero. -/
inductive IsDecimal : List Char → Prop
  | fraction (negative : Bool) {digits fraction exponent : List Char} (whole : IsWhole digits)
    (hasFraction : IsFraction fraction) (hasExponent : IsExponent exponent)
    (proper : fraction ≠ [] ∨ exponent ≠ []) :
    IsDecimal (minus negative ++ digits ++ fraction ++ exponent)
  | minusZero : IsDecimal ['-', '0']

mutual

/-- Texts of a value, blanks in front of it included. -/
inductive Writes : Json → List Char → Prop
  | blank {v : Json} {text : List Char} {c : Char} (space : isSpace c = true)
    (value : Writes v text) : Writes v (c :: text)
  | null : Writes null "null".toList
  | true : Writes (bool true) "true".toList
  | false : Writes (bool false) "false".toList
  | integer (n : Int) : Writes (integer n) (toString n).toList
  | decimal {spelling : String} (isDecimal : IsDecimal spelling.toList) :
    Writes (decimal spelling) spelling.toList
  | string {s : String} {text : List Char} (quoted : WritesString s text) :
    Writes (string s) text
  | emptyArray {gap : List Char} (isGap : IsGap gap) : Writes (array []) ('[' :: (gap ++ [']']))
  | array {items : List Json} {text : List Char} (written : WritesItems items text) :
    Writes (array items) ('[' :: (text ++ [']']))
  | emptyObject {gap : List Char} (isGap : IsGap gap) :
    Writes (object []) ('\x7b' :: (gap ++ ['\x7d']))
  | object {members : List (String × Json)} {text : List Char}
    (written : WritesMembers members text) : Writes (object members) ('\x7b' :: (text ++ ['\x7d']))

/-- Texts of the items of an array, up to its closing bracket; there is at least one item. -/
inductive WritesItems : List Json → List Char → Prop
  | last {v : Json} {text gap : List Char} (value : Writes v text) (behind : IsGap gap) :
    WritesItems [v] (text ++ gap)
  | cons {v : Json} {items : List Json} {text gap others : List Char} (value : Writes v text)
    (behind : IsGap gap) (written : WritesItems items others) :
    WritesItems (v :: items) (text ++ (gap ++ ',' :: others))

/-- Texts of a member of an object, blanks in front of its name included. -/
inductive WritesMember : String → Json → List Char → Prop
  | mk {name : String} {v : Json} {front quoted gap text : List Char} (before : IsGap front)
    (written : WritesString name quoted) (between : IsGap gap) (value : Writes v text) :
    WritesMember name v (front ++ (quoted ++ (gap ++ ':' :: text)))

/-- Texts of the members of an object, up to its closing brace; there is at least one member. -/
inductive WritesMembers : List (String × Json) → List Char → Prop
  | last {name : String} {v : Json} {text gap : List Char} (member : WritesMember name v text)
    (behind : IsGap gap) : WritesMembers [(name, v)] (text ++ gap)
  | cons {name : String} {v : Json} {members : List (String × Json)} {text gap others : List Char}
    (member : WritesMember name v text) (behind : IsGap gap)
    (written : WritesMembers members others) :
    WritesMembers ((name, v) :: members) (text ++ (gap ++ ',' :: others))

end

end BracketLint.Json
