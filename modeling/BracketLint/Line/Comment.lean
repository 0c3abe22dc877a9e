import BracketLint.Text.Blank
import BracketLint.Text.Search

/-!
Line comments: the tag a comment starts with, and the tags that name the block which a closing
brace ends. Both are read from the text behind the two slashes.
-/

namespace BracketLint

/-- What a line comment is for. -/
inductive CommentKind
  | plain
  | doc
  | todo
  | fixme
  | hack
  | xxx
  | note
  | bug
  | nolint
  deriving DecidableEq, Repr

namespace CommentKind

/-- The word for a kind of comment. -/
def name : CommentKind → String
  | plain => "plain"
  | doc => "doc"
  | todo => "todo"
  | fixme => "fixme"
  | hack => "hack"
  | xxx => "xxx"
  | note => "note"
  | bug => "bug"
  | nolint => "nolint"

/-- The tags of comments, in the order in which they are tried. -/
def tags : List (String × CommentKind) :=
  [("TODO", todo), ("FIXME", fixme), ("HACK", hack), ("XXX", xxx), ("NOTE", note), ("BUG", bug),
    ("NOLINT", nolint)]

/-- Words that may stand in front of a tag. -/
def emphasisWords : List String := ["IMPORTANT", "CRITICAL", "MAJOR", "MINOR"]

/-- A word without the colons it ends with. -/
def dropColons (cs : List Char) : List Char := (cs.reverse.dropWhile (· == ':')).reverse

/-- The text behind an emphasis word, or the whole text. -/
def afterEmphasis (cs : List Char) : List Char :=
  match Text.splitAtBlank cs with
  | some (first, rest) =>
    -- The word may end in colons, as in `IMPORTANT: TODO`.
    if emphasisWords.contains (String.ofList (dropColons first)) then Text.trimStart rest else cs
  | none => cs

/-- The kind of the comment with the given text behind its two slashes. -/
def ofBody (cs : List Char) : CommentKind :=
  if Text.startsWith cs "/" || Text.startsWith cs "!" then doc
  else
    let text := afterEmphasis (Text.trimStart cs)
    match tags.find? fun tag => Text.startsWith text tag.1 with
    | some tag => tag.2
    | none => plain

end CommentKind

/-- The blocks that an end tag can name. -/
inductive BlockKeyword
  | namespaceBlock
  | classBlock
  | structBlock
  | unionBlock
  | enumBlock
  deriving DecidableEq, Repr

namespace BlockKeyword

/-- The keyword that opens such a block. -/
def name : BlockKeyword → String
  | namespaceBlock => "namespace"
  | classBlock => "class"
  | structBlock => "struct"
  | unionBlock => "union"
  | enumBlock => "enum"

/-- The block that a keyword opens. -/
def ofName? : String → Option BlockKeyword
  | "namespace" => some namespaceBlock
  | "class" => some classBlock
  | "struct" => some structBlock
  | "union" => some unionBlock
  | "enum" => some enumBlock
  | _ => none

end BlockKeyword

/-- A tag such as `close namespace a::b` behind a closing brace. -/
structure EndTag where
  keyword : Option BlockKeyword
  name : Option String
  deriving DecidableEq, Repr

namespace EndTag

/-- The bytes of names with qualifiers. -/
def isQualifiedChar (c : Char) : Bool :=
  ('a' ≤ c && c ≤ 'z') || ('A' ≤ c && c ≤ 'Z') || ('0' ≤ c && c ≤ '9') || c == '_' || c == ':'

/-- A block's name, qualifiers included. -/
def isQualifiedName (word : String) : Bool := word != "" && word.toList.all isQualifiedChar

/-- The name that the last words of an end tag give; `none` when they are no name. -/
def nameOfWords : List String → Option (Option String)
  | [] => some none
  | [word] => if isQualifiedName word then some (some word) else none
  | _ => none

/-- The words of a tag behind its keyword, if it has one. -/
def ofWordsAfter (explicit : Bool) (words : List String) : Option EndTag :=
  match words.head?.bind BlockKeyword.ofName? with
  | some keyword => (nameOfWords words.tail).map fun name => ⟨some keyword, name⟩
  | none => if explicit then (nameOfWords words).map fun name => ⟨none, name⟩ else none

/-- The end tag that a comment's words form: `end` or `close` with or without a keyword and a name,
or a keyword with or without a name. -/
def ofWords : List String → Option EndTag
  | "end" :: words => ofWordsAfter true words
  | "close" :: words => ofWordsAfter true words
  | words => ofWordsAfter false words

/-- The end tag in the text behind the two slashes of a comment. -/
def ofBody (cs : List Char) : Option EndTag := ofWords (Text.words cs)

end EndTag

/-- A line comment: the column of its slashes and what its text says. -/
structure LineComment where
  column : Nat
  kind : CommentKind
  endTag : Option EndTag
  deriving DecidableEq, Repr

/-- The comment at `column` with the given text behind its slashes. -/
def LineComment.ofBody (column : Nat) (body : Bytes) : LineComment :=
  { column, kind := .ofBody body.decode, endTag := EndTag.ofBody body.decode }

end BracketLint
