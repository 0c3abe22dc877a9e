import BracketLint.Lines.Stretch

/-!
The head of a class, structure or union: the words in front of the class key, the key itself, and the
name that follows it.
-/

namespace BracketLint.ClassHead

/-- The words that may stand in front of a class key. -/
def leadingWords : List String := ["typedef", "friend", "export"]

/-- The words that open the definition of a class. -/
def classKeys : List String := ["class", "struct", "union"]

/-- The words that take an argument in parentheses inside a head. -/
def attributeWords : List String := ["alignas", "__declspec", "__attribute__"]

/-- The words behind a class's name that are no name. -/
def closingWords : List String := ["final", "sealed"]

/-- The first word of a head, from `word` on, that is no leading word and no template parameter list.
Each step passes at least one byte, so as many steps are enough as there are bytes in front of
`opened`. -/
def keyFrom (lines : Lines) (opened : Place) : (steps : Nat) → Word → Option Word
  | 0, word => some word
  | steps + 1, word =>
    if leadingWords.contains word.text then
      let following := lines.nameAfter word.behind
      if opened ≤ following.place then none else keyFrom lines opened steps following
    else if word.text == "template" then
      let following := lines.templateNameAfter word.behind
      if opened ≤ following.place then none else keyFrom lines opened steps following
    else some word

/-- The last name in a head behind its class key, up to a base list; `none` when a byte shows that it
is no head. -/
def nameFrom (lines : Lines) (name : Option String) : Stretch → Option (Option String)
  | [] => some name
  | (p, b) :: rest =>
    if Ascii.isWordByte b then
      let word := (lines.nameAfter p).text
      if attributeWords.contains word then
        match _h : Stretch.skipArgument (rest.drop (word.length - 1)) with
        | none => none
        | some behind => nameFrom lines name behind
      else if closingWords.contains word then nameFrom lines name (rest.drop (word.length - 1))
      else nameFrom lines (some word) (rest.drop (word.length - 1))
    else if b == Ascii.colon then
      -- A single colon starts the list of bases, two belong to a qualified name.
      match rest with
      | [] => some name
      | (_, b₁) :: rest₁ => if b₁ == Ascii.colon then nameFrom lines name rest₁ else some name
    else if b == Ascii.less then
      match _h : Stretch.closeBrackets Ascii.less Ascii.greater 1 rest with
      | none => none
      | some behind => nameFrom lines name behind
    -- None of these stands in the head of a class.
    else if b == Ascii.openParen || b == Ascii.closeParen || b == Ascii.equal ||
        b == Ascii.semicolon || b == Ascii.star || b == Ascii.ampersand then none
    else nameFrom lines name rest
termination_by stretch => stretch.length
decreasing_by
  · have := Stretch.length_skipArgument _h
    simp only [List.length_drop, List.length_cons] at this ⊢; omega
  · simp only [List.length_drop, List.length_cons]; omega
  · simp only [List.length_drop, List.length_cons]; omega
  · simp only [List.length_cons]; omega
  · have := Stretch.length_closeBrackets _h
    simp only [List.length_cons]; omega
  · simp

/-- The name in the class head between the start of a statement and an opening brace, `some none` for
a class without a name, and `none` when there is no class head. -/
def name? (lines : Lines) (start opened : Place) : Option (Option String) :=
  match keyFrom lines opened (lines.stretch start opened).length (lines.nameAfter start) with
  | none => none
  | some word =>
    if classKeys.contains word.text then
      nameFrom lines none (lines.stretch word.behind opened)
    else none

end BracketLint.ClassHead
