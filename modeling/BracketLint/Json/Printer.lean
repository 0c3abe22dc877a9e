import BracketLint.Json.Basic

/-!
JSON texts of values, on one line or with an indent of two spaces for each level.
-/

namespace BracketLint.Json

/-- A hexadecimal digit, in lower case. -/
def hexDigit (n : Nat) : Char := if n < 10 then Char.ofNat (48 + n) else Char.ofNat (87 + n)

/-- A character inside a string: quotes, backslashes and control characters are escaped. -/
def escapeChar (c : Char) : List Char :=
  if c.toNat == 34 then ['\\', '\x22']
  else if c == '\\' then ['\\', '\\']
  else if c.toNat == 8 then ['\\', 'b']
  else if c.toNat == 12 then ['\\', 'f']
  else if c == '\n' then ['\\', 'n']
  else if c == '\r' then ['\\', 'r']
  else if c == '\t' then ['\\', 't']
  else if c.toNat < 32 then
    ['\\', 'u', '0', '0', hexDigit (c.toNat / 16), hexDigit (c.toNat % 16)]
  else [c]

/-- A string between quotes. -/
def quoted (s : String) : List Char :=
  '\x22' :: (s.toList.flatMap escapeChar ++ ['\x22'])

mutual

/-- The text of a value on one line, without blanks. -/
def compact : Json → List Char
  | null => "null".toList
  | bool true => "true".toList
  | bool false => "false".toList
  | integer value => (toString value).toList
  | decimal spelling => spelling.toList
  | string value => quoted value
  | array items => '[' :: (compactItems items ++ [']'])
  | object members => '\x7b' :: (compactMembers members ++ ['\x7d'])

/-- The items of an array between commas. -/
def compactItems : List Json → List Char
  | [] => []
  | [item] => compact item
  | item :: next :: items => compact item ++ ',' :: compactItems (next :: items)

/-- The members of an object between commas. -/
def compactMembers : List (String × Json) → List Char
  | [] => []
  | [(name, value)] => quoted name ++ ':' :: compact value
  | (name, value) :: next :: members =>
    quoted name ++ ':' :: (compact value ++ ',' :: compactMembers (next :: members))

end

/-- A line end and the indent of the next line. -/
def newLine (level : Nat) : List Char := '\n' :: List.replicate (2 * level) ' '

mutual

/-- The text of a value with one item or member a line, in a line that is indented by `level`. -/
def prettyAt (level : Nat) : Json → List Char
  | array [] => ['[', ']']
  | array (item :: items) =>
    '[' :: (newLine (level + 1) ++ prettyItems (level + 1) (item :: items) ++ newLine level ++ [']'])
  | object [] => ['\x7b', '\x7d']
  | object (member :: members) =>
    '\x7b' :: (newLine (level + 1) ++ prettyMembers (level + 1) (member :: members) ++
      newLine level ++ ['\x7d'])
  | null => "null".toList
  | bool true => "true".toList
  | bool false => "false".toList
  | integer value => (toString value).toList
  | decimal spelling => spelling.toList
  | string value => quoted value

/-- The items of an array, one a line. -/
def prettyItems (level : Nat) : List Json → List Char
  | [] => []
  | [item] => prettyAt level item
  | item :: next :: items =>
    prettyAt level item ++ ',' :: (newLine level ++ prettyItems level (next :: items))

/-- The members of an object, one a line. -/
def prettyMembers (level : Nat) : List (String × Json) → List Char
  | [] => []
  | [(name, value)] => quoted name ++ ':' :: ' ' :: prettyAt level value
  | (name, value) :: next :: members =>
    quoted name ++ ':' :: ' ' ::
      (prettyAt level value ++ ',' :: (newLine level ++ prettyMembers level (next :: members)))

end

/-- The text of a value on one line. -/
def toCompact (j : Json) : String := String.ofList (compact j)

/-- The text of a value on indented lines. -/
def toPretty (j : Json) : String := String.ofList (prettyAt 0 j)

end BracketLint.Json
