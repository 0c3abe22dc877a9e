/-!
The ASCII bytes that the program looks for in a line, by name, and the byte classes built from
them. Every delimiter of the language is a single ASCII byte, so a line can be read byte by byte
whatever else it holds.
-/

namespace BracketLint.Ascii

abbrev nul : UInt8 := 0
abbrev tab : UInt8 := 9
abbrev lineFeed : UInt8 := 10
abbrev carriageReturn : UInt8 := 13
abbrev space : UInt8 := 32
abbrev bang : UInt8 := 33
abbrev doubleQuote : UInt8 := 34
abbrev hash : UInt8 := 35
abbrev ampersand : UInt8 := 38
abbrev singleQuote : UInt8 := 39
abbrev openParen : UInt8 := 40
abbrev closeParen : UInt8 := 41
abbrev star : UInt8 := 42
abbrev comma : UInt8 := 44
abbrev hyphen : UInt8 := 45
abbrev slash : UInt8 := 47
abbrev colon : UInt8 := 58
abbrev semicolon : UInt8 := 59
abbrev less : UInt8 := 60
abbrev equal : UInt8 := 61
abbrev greater : UInt8 := 62
abbrev openBracket : UInt8 := 91
abbrev backslash : UInt8 := 92
abbrev closeBracket : UInt8 := 93
abbrev underscore : UInt8 := 95
abbrev grave : UInt8 := 96
abbrev openBrace : UInt8 := 123
abbrev closeBrace : UInt8 := 125

/-- Decimal digits. -/
def isDigit (b : UInt8) : Bool := 48 ≤ b && b ≤ 57

/-- Letters of either case and decimal digits. -/
def isAlphanumeric (b : UInt8) : Bool :=
  isDigit b || (65 ≤ b && b ≤ 90) || (97 ≤ b && b ≤ 122)

/-- The bytes of an identifier. -/
def isWordByte (b : UInt8) : Bool := isAlphanumeric b || b == underscore

end BracketLint.Ascii
