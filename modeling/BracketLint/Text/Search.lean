/-!
Looking for words in texts and splitting texts, character by character.
-/

namespace BracketLint.Text

/-- Whether a text starts with a word. -/
def startsWith (cs : List Char) (word : String) : Bool := word.toList.isPrefixOf cs

/-- Whether a text ends with a word. -/
def endsWith (cs : List Char) (word : String) : Bool := word.toList.isSuffixOf cs

/-- The text behind the first occurrence of a word. -/
def after? (word : String) : List Char → Option (List Char)
  | [] => if word.isEmpty then some [] else none
  | c :: cs =>
    if startsWith (c :: cs) word then some ((c :: cs).drop word.length) else after? word cs

/-- The pieces of a text between the occurrences of a character: one more than there are of it. -/
def split (separator : Char) : List Char → List (List Char)
  | [] => [[]]
  | c :: cs =>
    if c == separator then [] :: split separator cs
    else match split separator cs with
      | [] => [[c]]
      | piece :: pieces => (c :: piece) :: pieces

end BracketLint.Text
