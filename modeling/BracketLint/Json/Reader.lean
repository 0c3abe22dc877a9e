import BracketLint.Json.Basic

/-!
Reading of JSON texts. Each function returns what it read together with the rest of the text; the
depth of nested values is bounded by the length of the text.
-/

namespace BracketLint.Json

/-- The blank characters of JSON. -/
def isSpace (c : Char) : Bool := c == ' ' || c == '\t' || c == '\n' || c == '\r'

/-- A text without the blanks it starts with. -/
def skipSpace (cs : List Char) : List Char := cs.dropWhile isSpace

/-- The value of a hexadecimal digit. -/
def hexValue? (c : Char) : Option Nat :=
  if '0' ≤ c && c ≤ '9' then some (c.toNat - 48)
  else if 'a' ≤ c && c ≤ 'f' then some (c.toNat - 87)
  else if 'A' ≤ c && c ≤ 'F' then some (c.toNat - 55)
  else none

/-- The number that four hexadecimal digits write. -/
def fourDigits? (a b c d : Char) : Option Nat := do
  return (← hexValue? a) * 4096 + (← hexValue? b) * 256 + (← hexValue? c) * 16 + (← hexValue? d)

/-- The first half of a pair that writes a character behind U+FFFF. -/
def isHighSurrogate (n : Nat) : Bool := 0xD800 ≤ n && n ≤ 0xDBFF

/-- The second half of such a pair. -/
def isLowSurrogate (n : Nat) : Bool := 0xDC00 ≤ n && n ≤ 0xDFFF

/-- The character that one letter behind a backslash stands for. -/
def simpleEscape? (c : Char) : Option Char :=
  if c.toNat == 34 then some c
  else if c == '\\' || c == '/' then some c
  else if c == 'b' then some (Char.ofNat 8)
  else if c == 'f' then some (Char.ofNat 12)
  else if c == 'n' then some '\n'
  else if c == 'r' then some '\r'
  else if c == 't' then some '\t'
  else none

/-- Reads the rest of a string behind its opening quote, with the characters read before it given
in reverse. -/
def readString (read : List Char) : List Char → Option (String × List Char)
  | [] => none
  | c :: rest =>
    if c.toNat == 34 then some (String.ofList read.reverse, rest)
    else if c.toNat < 32 then none
    else if c != '\\' then readString (c :: read) rest
    else match rest with
      | 'u' :: a :: b :: d :: e :: rest₁ =>
        match fourDigits? a b d e with
        | none => none
        | some high =>
          if isHighSurrogate high then
            match rest₁ with
            | '\\' :: 'u' :: a₂ :: b₂ :: d₂ :: e₂ :: rest₂ =>
              match fourDigits? a₂ b₂ d₂ e₂ with
              | none => none
              | some low =>
                if isLowSurrogate low then
                  readString
                    (Char.ofNat (0x10000 + (high - 0xD800) * 1024 + (low - 0xDC00)) :: read) rest₂
                else none
            | _ => none
          else if isLowSurrogate high then none
          else readString (Char.ofNat high :: read) rest₁
      | e :: rest₁ =>
        match simpleEscape? e with
        | some c => readString (c :: read) rest₁
        | none => none
      | [] => none

/-- The number that decimal digits write. -/
def naturalOfDigits (digits : List Char) : Nat :=
  digits.foldl (fun n c => n * 10 + (c.toNat - 48)) 0

/-- Decimal digits. -/
def isDigit (c : Char) : Bool := '0' ≤ c && c ≤ '9'

/-- Reads the digits of a fraction, dot included; nothing where no dot stands. -/
def readFraction (cs : List Char) : Option (List Char × List Char) :=
  match cs with
  | '.' :: rest =>
    let digits := rest.takeWhile isDigit
    if digits.isEmpty then none else some ('.' :: digits, rest.dropWhile isDigit)
  | _ => some ([], cs)

/-- Reads an exponent; nothing where none stands. -/
def readExponent (cs : List Char) : Option (List Char × List Char) :=
  match cs with
  | c :: rest =>
    if c == 'e' || c == 'E' then
      let (sign, rest₁) :=
        match rest with
        | '+' :: rest₁ => (['+'], rest₁)
        | '-' :: rest₁ => (['-'], rest₁)
        | _ => ([], rest)
      let digits := rest₁.takeWhile isDigit
      if digits.isEmpty then none else some (c :: (sign ++ digits), rest₁.dropWhile isDigit)
    else some ([], cs)
  | [] => some ([], [])

/-- Reads a number behind its sign. -/
def readNumber (negative : Bool) (cs : List Char) : Option (Json × List Char) := do
  let digits := cs.takeWhile isDigit
  if digits.isEmpty || (digits.head? == some '0' && digits.length != 1) then none
  else
    let (fraction, rest) ← readFraction (cs.dropWhile isDigit)
    let (exponent, rest) ← readExponent rest
    let value := naturalOfDigits digits
    if fraction.isEmpty && exponent.isEmpty && !(negative && value == 0) then
      return (integer (if negative then -(value : Int) else value), rest)
    else
      return (decimal (String.ofList
        ((if negative then ['-'] else []) ++ digits ++ fraction ++ exponent)), rest)

/-- The rest of a text behind a word that it starts with. -/
def dropWord? (word : String) (cs : List Char) : Option (List Char) :=
  if word.toList.isPrefixOf cs then some (cs.drop word.length) else none

mutual

/-- Reads a value, blanks in front of it included. -/
def readValue : Nat → List Char → Option (Json × List Char)
  | 0, _ => none
  | fuel + 1, cs =>
    match skipSpace cs with
    | [] => none
    | c :: rest =>
      if c == 'n' then (dropWord? "ull" rest).map fun rest => (null, rest)
      else if c == 't' then (dropWord? "rue" rest).map fun rest => (bool true, rest)
      else if c == 'f' then (dropWord? "alse" rest).map fun rest => (bool false, rest)
      else if c.toNat == 34 then (readString [] rest).map fun r => (string r.1, r.2)
      else if c == '-' then readNumber true rest
      else if isDigit c then readNumber false (c :: rest)
      else if c == '[' then
        match skipSpace rest with
        | ']' :: rest₁ => some (array [], rest₁)
        | _ => (readItems fuel rest).map fun r => (array r.1, r.2)
      else if c == '\x7b' then
        match skipSpace rest with
        | '\x7d' :: rest₁ => some (object [], rest₁)
        | _ => (readMembers fuel rest).map fun r => (object r.1, r.2)
      else none

/-- Reads the items of an array through its closing bracket; there is at least one. -/
def readItems : Nat → List Char → Option (List Json × List Char)
  | 0, _ => none
  | fuel + 1, cs =>
    match readValue fuel cs with
    | none => none
    | some (item, rest) =>
      match skipSpace rest with
      | ',' :: rest₁ => (readItems fuel rest₁).map fun r => (item :: r.1, r.2)
      | ']' :: rest₁ => some ([item], rest₁)
      | _ => none

/-- Reads the members of an object through its closing brace; there is at least one. -/
def readMembers : Nat → List Char → Option (List (String × Json) × List Char)
  | 0, _ => none
  | fuel + 1, cs =>
    match skipSpace cs with
    | [] => none
    | c :: rest =>
      if c.toNat != 34 then none
      else match readString [] rest with
        | none => none
        | some (name, rest₁) =>
          match skipSpace rest₁ with
          | ':' :: rest₂ =>
            match readValue fuel rest₂ with
            | none => none
            | some (value, rest₃) =>
              match skipSpace rest₃ with
              | ',' :: rest₄ => (readMembers fuel rest₄).map fun r => ((name, value) :: r.1, r.2)
              | '\x7d' :: rest₄ => some ([(name, value)], rest₄)
              | _ => none
          | _ => none

end

/-- The value that a whole text writes. -/
def read? (cs : List Char) : Option Json :=
  match readValue (2 * cs.length + 2) cs with
  | some (value, rest) => if (skipSpace rest).isEmpty then some value else none
  | none => none

/-- The value that a string writes. -/
def ofString? (s : String) : Option Json := read? s.toList

end BracketLint.Json
