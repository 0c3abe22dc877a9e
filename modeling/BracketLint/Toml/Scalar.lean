import BracketLint.Toml.Value

/-!
TOML strings, numbers, dates and times, and keys.
-/

namespace BracketLint.Toml

/-- The blanks inside a line. -/
def isBlankChar (c : Char) : Bool := c == ' ' || c == '\t'

/-- A text without the blanks it starts with. -/
def skipBlanks (cs : List Char) : List Char := cs.dropWhile isBlankChar

/-- The control characters that no string or comment may hold. -/
def isControl (c : Char) : Bool := (c.toNat < 32 && c != '\t') || c.toNat == 127

/-- The value of a hexadecimal digit. -/
def digitValue? (c : Char) : Option Nat :=
  if isDigit c then some (c.toNat - 48)
  else if 'a' ≤ c && c ≤ 'f' then some (c.toNat - 87)
  else if 'A' ≤ c && c ≤ 'F' then some (c.toNat - 55)
  else none

/-- The number that digits write in a base up to 16. -/
def numberIn? (base : Nat) (digits : List Char) : Option Nat :=
  digits.foldlM (fun n c => do
    let d ← digitValue? c
    if d < base then some (n * base + d) else none) 0

/-- The character with the number that hexadecimal digits write. -/
def charOfHex? (digits : List Char) : Option Char :=
  (numberIn? 16 digits).bind fun n =>
    if n < 0xD800 ∨ (0xDFFF < n ∧ n < 0x110000) then some (Char.ofNat n) else none

/-- The character that one letter behind a backslash stands for. -/
def simpleEscape? (c : Char) : Option Char :=
  if c.toNat == 34 || c == '\\' then some c
  else if c == 'b' then some (Char.ofNat 8)
  else if c == 't' then some '\t'
  else if c == 'n' then some '\n'
  else if c == 'f' then some (Char.ofNat 12)
  else if c == 'r' then some '\r'
  else none

/-- What a basic string is in the middle of. -/
inductive StringMode
  /-- Its text. -/
  | text
  /-- The blanks between a backslash and the line end that it hides. -/
  | hidden
  /-- The blanks and line ends behind a hidden line end. -/
  | trimming
  deriving DecidableEq, Repr

/-- How a quote in a string of several lines goes on: the quotes that belong to the text and the rest
behind the closing ones, or nothing when the string is not closed here. -/
def closeQuotes? (isQuote : Char → Bool) : List Char → Option (Nat × List Char)
  | a :: b :: rest =>
    if isQuote a && isQuote b then
      match rest with
      | c :: d :: rest₁ =>
        if isQuote c && isQuote d then some (2, rest₁)
        else if isQuote c then some (1, d :: rest₁)
        else some (0, rest)
      | [c] => if isQuote c then some (1, []) else some (0, rest)
      | [] => some (0, [])
    else none
  | _ => none

/-- The double quote. -/
def isDoubleQuote (c : Char) : Bool := c.toNat == 34

/-- The single quote. -/
def isSingleQuote (c : Char) : Bool := c.toNat == 39

/-- Reads a basic string behind its opening quotes, with the characters read before it given in
reverse. -/
def readBasic (multiline : Bool) (mode : StringMode) (read : List Char) :
    List Char → Option (String × List Char)
  | [] => none
  | c :: rest =>
    if mode != .text && isBlankChar c then readBasic multiline mode read rest
    else if mode != .text && c == '\n' then readBasic multiline .trimming read rest
    else if c == '\r' then
      match rest with
      | '\n' :: rest₁ =>
        if mode != .text then readBasic multiline .trimming read rest₁
        else if multiline then readBasic multiline .text ('\n' :: read) rest₁
        else none
      | _ => none
    else if mode == .hidden then none
    else if isDoubleQuote c then
      if multiline then
        match closeQuotes? isDoubleQuote rest with
        | some (quotes, rest₁) =>
          some (String.ofList (read.reverse ++ List.replicate quotes c), rest₁)
        | none => readBasic multiline .text (c :: read) rest
      else some (String.ofList read.reverse, rest)
    else if c == '\n' then
      if multiline then readBasic multiline .text (c :: read) rest else none
    else if isControl c then none
    else if c != '\\' then readBasic multiline .text (c :: read) rest
    else match rest with
      | 'u' :: a :: b :: d :: e :: rest₁ =>
        match charOfHex? [a, b, d, e] with
        | some c => readBasic multiline .text (c :: read) rest₁
        | none => none
      | 'U' :: a :: b :: d :: e :: f :: g :: h :: i :: rest₁ =>
        match charOfHex? [a, b, d, e, f, g, h, i] with
        | some c => readBasic multiline .text (c :: read) rest₁
        | none => none
      | e :: rest₁ =>
        match simpleEscape? e with
        | some c => readBasic multiline .text (c :: read) rest₁
        | none =>
          if multiline && (isBlankChar e || e == '\n' || e == '\r') then
            readBasic multiline .hidden read (e :: rest₁)
          else none
      | [] => none

/-- Reads a literal string behind its opening quotes, with the characters read before it given in
reverse. -/
def readLiteral (multiline : Bool) (read : List Char) : List Char → Option (String × List Char)
  | [] => none
  | c :: rest =>
    if isSingleQuote c then
      if multiline then
        match closeQuotes? isSingleQuote rest with
        | some (quotes, rest₁) =>
          some (String.ofList (read.reverse ++ List.replicate quotes c), rest₁)
        | none => readLiteral multiline (c :: read) rest
      else some (String.ofList read.reverse, rest)
    else if c == '\n' then
      if multiline then readLiteral multiline (c :: read) rest else none
    else if c == '\r' then
      match rest with
      | '\n' :: rest₁ => if multiline then readLiteral multiline ('\n' :: read) rest₁ else none
      | _ => none
    else if isControl c then none
    else readLiteral multiline (c :: read) rest

/-- The text behind the line end that a string of several lines may start with. -/
def dropFirstLineEnd : List Char → List Char
  | '\n' :: rest => rest
  | '\r' :: '\n' :: rest => rest
  | cs => cs

/-- Reads a string, quotes included. -/
def readString (cs : List Char) : Option (String × List Char) :=
  match cs with
  | a :: b :: c :: rest =>
    if isDoubleQuote a then
      if isDoubleQuote b && isDoubleQuote c then readBasic true .text [] (dropFirstLineEnd rest)
      else readBasic false .text [] (b :: c :: rest)
    else if isSingleQuote a then
      if isSingleQuote b && isSingleQuote c then readLiteral true [] (dropFirstLineEnd rest)
      else readLiteral false [] (b :: c :: rest)
    else none
  | a :: rest =>
    if isDoubleQuote a then readBasic false .text [] rest
    else if isSingleQuote a then readLiteral false [] rest
    else none
  | [] => none

/-- The digits in a text where single underscores may stand between two digits. -/
def digitsOf? (isDigit : Char → Bool) : List Char → Option (List Char)
  | [] => none
  | [c] => if isDigit c then some [c] else none
  | c :: '_' :: rest => if isDigit c then (digitsOf? isDigit rest).map (c :: ·) else none
  | c :: rest => if isDigit c then (digitsOf? isDigit rest).map (c :: ·) else none

/-- A whole number in the range of 64-bit integers. -/
def integerInRange? (value : Int) : Option Toml :=
  if -9223372036854775808 ≤ value ∧ value ≤ 9223372036854775807 then some (integer value) else none

/-- A sign and the text behind it. -/
def splitSign : List Char → Bool × List Char
  | '+' :: rest => (false, rest)
  | '-' :: rest => (true, rest)
  | cs => (false, cs)

/-- The digits of a whole number, which has no leading zero. -/
def wholeDigits? (cs : List Char) : Option (List Char) :=
  (digitsOf? isDigit cs).filter fun digits => digits.length == 1 || digits.head? != some '0'

/-- The integer that a word writes in base ten, or behind a mark in another base. -/
def integerOfWord? (word : List Char) : Option Toml :=
  let inBase (base : Nat) (digits : List Char) : Option Toml :=
    (digitsOf? (fun c => (digitValue? c).any (· < base)) digits).bind fun digits =>
      (numberIn? base digits).bind fun n => integerInRange? n
  match word with
  | '0' :: 'x' :: digits => inBase 16 digits
  | '0' :: 'o' :: digits => inBase 8 digits
  | '0' :: 'b' :: digits => inBase 2 digits
  | _ =>
    let (negative, digits) := splitSign word
    (wholeDigits? digits).bind fun digits =>
      (numberIn? 10 digits).bind fun n => integerInRange? (if negative then -(n : Int) else n)

/-- The nearest floating-point number to `digits * 10 ^ exponent`. -/
def floatOfDecimal (negative : Bool) (digits : Nat) (exponent : Int) : Float :=
  let magnitude :=
    if exponent < -1000000 || digits == 0 then 0.0
    else if 1000000 < exponent then 1.0 / 0.0
    else if 0 ≤ exponent then Float.ofScientific digits false exponent.toNat
    else Float.ofScientific digits true (-exponent).toNat
  if negative then -magnitude else magnitude

/-- The floating-point number that a word writes; one that is too large is refused. -/
def floatOfWord? (word : List Char) : Option Toml :=
  let (negative, unsigned) := splitSign word
  if unsigned == "inf".toList then some (float (if negative then "-inf" else "inf"))
  else if unsigned == "nan".toList then some (float "NaN")
  else
    let mark := fun c => c == 'e' || c == 'E'
    let number := unsigned.takeWhile (!mark ·)
    let power := unsigned.dropWhile (!mark ·)
    let whole := number.takeWhile (· != '.')
    let point := number.dropWhile (· != '.')
    if power.isEmpty && point.isEmpty then none
    else do
      let wholeDigits ← wholeDigits? whole
      let fraction ← if point.isEmpty then some [] else digitsOf? isDigit point.tail
      let exponent : Int ←
        if power.isEmpty then some 0
        else
          let (below, digits) := splitSign power.tail
          ((digitsOf? isDigit digits).bind (numberIn? 10)).map fun n =>
            if below then -(n : Int) else (n : Int)
      let digits ← numberIn? 10 (wholeDigits ++ fraction)
      let value := floatOfDecimal negative digits (exponent - fraction.length)
      if value.isInf && !negative then none else some (float (Decimal.ofFloat value))

/-- The characters of numbers, dates and names of values. -/
def isWordChar (c : Char) : Bool :=
  isDigit c || ('a' ≤ c && c ≤ 'z') || ('A' ≤ c && c ≤ 'Z') || c == '+' || c == '-' || c == '.' ||
    c == '_' || c == ':'

/-- The value that a word writes. -/
def ofWord? (word : List Char) : Option Toml :=
  if word == "true".toList then some (boolean true)
  else if word == "false".toList then some (boolean false)
  else
    match DateTime.ofText? word with
    | some value => some (dateTime value)
    | none => (floatOfWord? word).or (integerOfWord? word)

/-- Reads a value that is no string and no collection. A date may be followed by a blank and a time
of day. -/
def readWord (cs : List Char) : Option (Toml × List Char) :=
  let word := cs.takeWhile isWordChar
  let rest := cs.dropWhile isWordChar
  let short := (ofWord? word).map fun value => (value, rest)
  match rest with
  | ' ' :: behind =>
    match DateTime.ofText? (word ++ ' ' :: behind.takeWhile isWordChar) with
    | some value => some (dateTime value, behind.dropWhile isWordChar)
    | none => short
  | _ => short

/-- The characters of keys without quotes. -/
def isKeyChar (c : Char) : Bool :=
  isDigit c || ('a' ≤ c && c ≤ 'z') || ('A' ≤ c && c ≤ 'Z') || c == '_' || c == '-'

/-- Reads one part of a key. -/
def readKeyPart (cs : List Char) : Option (String × List Char) :=
  match cs with
  | [] => none
  | c :: rest =>
    if isDoubleQuote c then readBasic false .text [] rest
    else if isSingleQuote c then readLiteral false [] rest
    else
      let part := cs.takeWhile isKeyChar
      if part.isEmpty then none else some (String.ofList part, cs.dropWhile isKeyChar)

/-- Reads the parts of a key between dots, blanks around them included. -/
def readKey : (fuel : Nat) → List Char → Option (List String × List Char)
  | 0, _ => none
  | fuel + 1, cs => do
    let (part, rest) ← readKeyPart (skipBlanks cs)
    match skipBlanks rest with
    | '.' :: rest₁ =>
      let (parts, rest₂) ← readKey fuel rest₁
      some (part :: parts, rest₂)
    | rest₁ => some ([part], rest₁)

end BracketLint.Toml
