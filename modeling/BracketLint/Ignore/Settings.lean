import BracketLint.Path
import BracketLint.Text.Bytes

/-!
The settings of Git, as far as they name the file with a user's own ignore rules. Sections are not
looked at: the first line counts that gives `excludesFile` a value without blanks.
-/

namespace BracketLint.Ignore.Settings

/-- The blanks of settings, line ends included. -/
def isSpace (b : UInt8) : Bool := b == Ascii.space || (9 ≤ b && b ≤ 13)

/-- Whether only blanks follow on the line. -/
def endsLine (text : Bytes) : Bool :=
  (text.takeWhile isSpace).contains Ascii.lineFeed || (text.dropWhile isSpace).isEmpty

/-- Whether only blanks and a closing quote follow on the line. -/
def endsValue (text : Bytes) : Bool :=
  endsLine text ||
    match text.dropWhile isSpace with
    | [] => true
    | b :: rest => b == Ascii.doubleQuote && endsLine rest

/-- The value at the start of a text: the shortest one that the end of the line follows. The bytes
read before it are given in reverse. -/
def readValue? (before : Bytes) : Bytes → Option Bytes
  | [] => none
  | b :: rest =>
    if isSpace b then none
    else if endsValue rest then some (b :: before).reverse
    else readValue? (b :: before) rest

/-- The value in the text behind an equal sign. A quote in front is no part of it, unless nothing else
is. -/
def valueBehind? (text : Bytes) : Option Bytes :=
  match text.dropWhile isSpace with
  | [] => none
  | b :: rest =>
    let inside := if b == Ascii.doubleQuote then readValue? [] (rest.dropWhile isSpace) else none
    inside.or (readValue? [] (b :: rest))

/-- The name of the setting. -/
def name : Bytes := Bytes.ofString "excludesfile"

/-- A byte with small letters for capital ones. -/
def toSmall (b : UInt8) : UInt8 := if 65 ≤ b && b ≤ 90 then b + 32 else b

/-- The value that the setting has in a text that starts with it. -/
def valueAt? (text : Bytes) : Option Bytes :=
  let text := text.dropWhile isSpace
  if (text.take name.length).map toSmall == name then
    match (text.drop name.length).dropWhile isSpace with
    | [] => none
    | b :: rest => if b == Ascii.equal then valueBehind? rest else none
  else none

/-- The first value that the setting has at the start of a line; `atStart` says whether a line starts
here. -/
def value? (atStart : Bool) : Bytes → Option Bytes
  | [] => none
  | b :: rest =>
    (if atStart then valueAt? (b :: rest) else none).or (value? (b == Ascii.lineFeed) rest)

/-- The file with ignore rules that settings name. A tilde stands for the home. -/
def excludesFile? (home : Path) (settings : Bytes) : Option Path :=
  (value? true settings).bind fun value =>
    if value.repaired == value then
      some ⟨String.ofList (value.decode.flatMap fun c => if c == '~' then home.text.toList else [c])⟩
    else none

end BracketLint.Ignore.Settings
