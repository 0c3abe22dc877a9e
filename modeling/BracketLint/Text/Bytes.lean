import BracketLint.Text.Ascii

/-!
Text as the list of its UTF-8 bytes. Columns and offsets of the program are counted in bytes, so
lines are kept in this form and turned into characters only where a rule speaks of characters.
-/

namespace BracketLint

/-- A text as its UTF-8 bytes. -/
abbrev Bytes := List UInt8

namespace Bytes

/-- The bytes of a string. -/
def ofString (s : String) : Bytes := s.toByteArray.data.toList

/-- Whether a byte continues a character that an earlier byte began. -/
def isContinuation (b : UInt8) : Bool := 0x80 ≤ b && b ≤ 0xBF

/-- The second byte that may follow `lead` at the start of a three-byte character. -/
def isSecondOfThree (lead b : UInt8) : Bool :=
  if lead == 0xE0 then 0xA0 ≤ b && b ≤ 0xBF
  else if lead == 0xED then 0x80 ≤ b && b ≤ 0x9F
  else isContinuation b

/-- The second byte that may follow `lead` at the start of a four-byte character. -/
def isSecondOfFour (lead b : UInt8) : Bool :=
  if lead == 0xF0 then 0x90 ≤ b && b ≤ 0xBF
  else if lead == 0xF4 then 0x80 ≤ b && b ≤ 0x8F
  else isContinuation b

/-- Stands for bytes that are no UTF-8. -/
def replacement : Char := Char.ofNat 0xFFFD

/-- The low six bits of a continuation byte. -/
def payload (b : UInt8) : Nat := b.toNat % 64

/-- The characters of a text. Each longest run of bytes that starts a character without finishing
it, and each byte that starts none, becomes one replacement character. -/
def decode : Bytes → List Char
  | [] => []
  | a :: rest =>
    if a < 0x80 then Char.ofNat a.toNat :: decode rest
    -- Two bytes; smaller first bytes would write ASCII in two.
    else if 0xC2 ≤ a && a ≤ 0xDF then
      match rest with
      | b :: rest₁ =>
        if isContinuation b then Char.ofNat (a.toNat % 32 * 64 + payload b) :: decode rest₁
        else replacement :: decode (b :: rest₁)
      | [] => [replacement]
    -- Three bytes.
    else if 0xE0 ≤ a && a ≤ 0xEF then
      match rest with
      | b :: rest₁ =>
        if isSecondOfThree a b then
          match rest₁ with
          | c :: rest₂ =>
            if isContinuation c then
              Char.ofNat (a.toNat % 16 * 4096 + payload b * 64 + payload c) :: decode rest₂
            else replacement :: decode (c :: rest₂)
          | [] => [replacement]
        else replacement :: decode (b :: rest₁)
      | [] => [replacement]
    -- Four bytes, up to the last code point.
    else if 0xF0 ≤ a && a ≤ 0xF4 then
      match rest with
      | b :: rest₁ =>
        if isSecondOfFour a b then
          match rest₁ with
          | c :: rest₂ =>
            if isContinuation c then
              match rest₂ with
              | d :: rest₃ =>
                if isContinuation d then
                  Char.ofNat (a.toNat % 8 * 262144 + payload b * 4096 + payload c * 64 + payload d)
                    :: decode rest₃
                else replacement :: decode (d :: rest₃)
              | [] => [replacement]
            else replacement :: decode (c :: rest₂)
          | [] => [replacement]
        else replacement :: decode (b :: rest₁)
      | [] => [replacement]
    else replacement :: decode rest
termination_by bytes => bytes.length

/-- The text as a string, with replacement characters for what is no UTF-8. -/
def toText (bytes : Bytes) : String := String.ofList (decode bytes)

/-- The bytes with a replacement character for each stretch that is no UTF-8. -/
def repaired (bytes : Bytes) : Bytes := ofString (toText bytes)

/-- The string of a text that holds ASCII only, one character for each byte. -/
def toWord (bytes : Bytes) : String := String.ofList (bytes.map fun b => Char.ofNat b.toNat)

/-- The number of characters: every byte counts that does not continue a character. -/
def characterCount (bytes : Bytes) : Nat := bytes.countP fun b => !isContinuation b

/-- Whether the last byte of the text is `b`. -/
def endsIn (bytes : Bytes) (b : UInt8) : Bool := bytes.getLast? == some b

/-- The text without the byte order mark it may start with. -/
def dropByteOrderMark : Bytes → Bytes
  | a :: b :: c :: rest => if a == 0xEF && b == 0xBB && c == 0xBF then rest else a :: b :: c :: rest
  | short => short

/-- Puts a byte in front of the first of some lines. -/
def consToFirst (b : UInt8) : List Bytes → List Bytes
  | [] => [[b]]
  | line :: lines => (b :: line) :: lines

/-- The pieces between line feeds: one more than there are line feeds. -/
def splitOnLineFeed : Bytes → List Bytes
  | [] => [[]]
  | b :: rest =>
    if b == Ascii.lineFeed then [] :: splitOnLineFeed rest
    else consToFirst b (splitOnLineFeed rest)

/-- The number of bytes of some lines, each with the line feed behind it. -/
def lengthOfLines : List Bytes → Nat
  | [] => 0
  | line :: lines => line.length + 1 + lengthOfLines lines

/-- A line without the carriage return it may end with. -/
def dropCarriageReturn (line : Bytes) : Bytes :=
  if endsIn line Ascii.carriageReturn then line.dropLast else line

/-- The lines among the pieces between line feeds: only a piece that a line feed ends can lose a
carriage return, and an empty last piece is no line. -/
def linesOfPieces : List Bytes → List Bytes
  | [] => []
  | [last] => if last.isEmpty then [] else [last]
  | piece :: next :: pieces => dropCarriageReturn piece :: linesOfPieces (next :: pieces)

/-- The lines of a text. A line ends at a line feed, and a carriage return right before that line
feed belongs to the line end; a last line needs no line feed. -/
def lines (bytes : Bytes) : List Bytes := linesOfPieces (splitOnLineFeed bytes)

end Bytes
end BracketLint
