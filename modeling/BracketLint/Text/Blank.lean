import BracketLint.Text.Bytes
import BracketLint.Text.Search

/-!
Blank characters: the Unicode property `White_Space`, on characters and on UTF-8 bytes, and the
trimming and splitting of texts at them. All blank characters take one to three bytes.
-/

namespace BracketLint

/-- The characters with the Unicode property `White_Space`. -/
def isBlank (c : Char) : Bool :=
  (9 ≤ c.toNat && c.toNat ≤ 13) || c.toNat == 32 || c.toNat == 0x85 || c.toNat == 0xA0 ||
  c.toNat == 0x1680 || (0x2000 ≤ c.toNat && c.toNat ≤ 0x200A) || c.toNat == 0x2028 ||
  c.toNat == 0x2029 || c.toNat == 0x202F || c.toNat == 0x205F || c.toNat == 0x3000

namespace Bytes

/-- A blank character of one byte. -/
def isBlankByte (a : UInt8) : Bool := (9 ≤ a && a ≤ 13) || a == 32

/-- A blank character of two bytes. -/
def isBlankPair (a b : UInt8) : Bool := a == 0xC2 && (b == 0x85 || b == 0xA0)

/-- A blank character of three bytes. -/
def isBlankTriple (a b c : UInt8) : Bool :=
  (a == 0xE1 && b == 0x9A && c == 0x80) ||
  (a == 0xE2 && b == 0x80 && ((0x80 ≤ c && c ≤ 0x8A) || c == 0xA8 || c == 0xA9 || c == 0xAF)) ||
  (a == 0xE2 && b == 0x81 && c == 0x9F) ||
  (a == 0xE3 && b == 0x80 && c == 0x80)

/-- The text without the blank characters it starts with. -/
def trimStart : Bytes → Bytes
  | [] => []
  | a :: rest =>
    if isBlankByte a then trimStart rest
    else match rest with
      | [] => [a]
      | b :: rest₁ =>
        if isBlankPair a b then trimStart rest₁
        else match rest₁ with
          | [] => [a, b]
          | c :: rest₂ => if isBlankTriple a b c then trimStart rest₂ else a :: b :: c :: rest₂

/-- Drops the blank characters at the front of a text whose bytes stand in reverse order. -/
def trimReversed : Bytes → Bytes
  | [] => []
  | a :: rest =>
    if isBlankByte a then trimReversed rest
    else match rest with
      | [] => [a]
      | b :: rest₁ =>
        if isBlankPair b a then trimReversed rest₁
        else match rest₁ with
          | [] => [a, b]
          | c :: rest₂ => if isBlankTriple c b a then trimReversed rest₂ else a :: b :: c :: rest₂

/-- The text without the blank characters it ends with. -/
def trimEnd (bytes : Bytes) : Bytes := (trimReversed bytes.reverse).reverse

/-- The text without the blank characters at either end. -/
def trim (bytes : Bytes) : Bytes := trimEnd (trimStart bytes)

end Bytes

namespace Text

/-- The characters of a text without the blank ones at its start. -/
def trimStart (cs : List Char) : List Char := cs.dropWhile isBlank

/-- The characters of a text without the blank ones at its end. -/
def trimEnd (cs : List Char) : List Char := (cs.reverse.dropWhile isBlank).reverse

/-- The characters of a text without the blank ones at either end. -/
def trim (cs : List Char) : List Char := trimEnd (trimStart cs)

/-- The names in a list between commas. Blank characters around a name are not part of it, and empty
names do not count. -/
def namesBetweenCommas (cs : List Char) : List String :=
  ((split ',' cs).map fun piece => String.ofList (trim piece)).filter (· != "")

/-- The first word of a text that starts with one and what follows the blank character after it;
nothing when the text holds no blank character. -/
def splitAtBlank (cs : List Char) : Option (List Char × List Char) :=
  match cs.dropWhile (!isBlank ·) with
  | [] => none
  | _ :: rest => some (cs.takeWhile (!isBlank ·), rest)

/-- The words of a text, with `word` the part of the current one that was already read. -/
def wordsFrom (word : List Char) : List Char → List (List Char)
  | [] => if word.isEmpty then [] else [word.reverse]
  | c :: rest =>
    if isBlank c then
      if word.isEmpty then wordsFrom [] rest else word.reverse :: wordsFrom [] rest
    else wordsFrom (c :: word) rest

/-- The words of a text: its longest stretches without a blank character, in order. -/
def words (cs : List Char) : List String := (wordsFrom [] cs).map String.ofList

end Text
end BracketLint
