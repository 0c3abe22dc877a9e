import BracketLint.Toml.Scalar

/-!
TOML documents: their statements and the table that these build. A table is defined once, by a
header, by an inline table, or by keys with dots; `Origin` remembers how.
-/

namespace BracketLint.Toml

/-- How a table came to be. -/
inductive Origin
  /-- A header names it. -/
  | header
  /-- A header names a table inside it. -/
  | implied
  /-- A key with dots leads through it. -/
  | dotted
  deriving DecidableEq, Repr

/-- What a table in the making holds under a key. -/
inductive Node
  | value (value : Toml)
  | table (origin : Origin) (entries : List (String × Node))
  | tables (items : List (List (String × Node)))
  deriving Repr, Inhabited

/-- Entries of a table in the making. -/
abbrev Entries := List (String × Node)

namespace Entries

/-- The node under a key. -/
def find? (key : String) (entries : Entries) : Option Node := entries.lookup key

/-- The entries with another node under a key. -/
def set (key : String) (node : Node) (entries : Entries) : Entries :=
  if (find? key entries).isSome then
    entries.map fun entry => if entry.1 == key then (key, node) else entry
  else entries ++ [(key, node)]

/-- Changes the entries at the end of a path from a header. Tables on the way are made where they are
missing, and of an array of tables the last one counts. -/
def below (change : Entries → Option Entries) : List String → Entries → Option Entries
  | [], entries => change entries
  | key :: path, entries =>
    match find? key entries with
    | none => (below change path []).map fun inner => set key (.table .implied inner) entries
    | some (.table origin inner) =>
      (below change path inner).map fun inner => set key (.table origin inner) entries
    -- The tables before the last one are finished.
    | some (.tables items) =>
      match items.getLast? with
      | none => none
      | some last =>
        (below change path last).map fun inner =>
          set key (.tables (items.dropLast ++ [inner])) entries
    | some (.value _) => none

/-- Puts a value at the end of a key with dots, in the entries of a table that has `origin`. The path
must not lead through a table that a header names, and must end in a table that dots made. -/
def insert (value : Toml) (key : String) : (path : List String) → (origin : Option Origin) →
    Entries → Option Entries
  | [], origin, entries =>
    -- A key is never defined twice.
    if origin.any (· != .dotted) || (find? key entries).isSome then none
    else some (set key (.value value) entries)
  | part :: path, _, entries =>
    match find? part entries with
    | none =>
      (insert value key path (some .dotted) []).map fun inner =>
        set part (.table .dotted inner) entries
    | some (.table origin inner) =>
      if origin == .header then none
      else (insert value key path (some origin) inner).map fun inner =>
        set part (.table origin inner) entries
    | some (.tables items) =>
      match items.getLast? with
      | none => none
      | some last =>
        (insert value key path (some .header) last).map fun inner =>
          set part (.tables (items.dropLast ++ [inner])) entries
    | some (.value _) => none

/-- Puts a value under a key with dots. -/
def insertKey (path : List String) (value : Toml) (entries : Entries) : Option Entries :=
  match path.getLast? with
  | none => none
  | some key => insert value key path.dropLast none entries

/-- Opens the table that a header names. One that was only implied so far moves behind the other
entries. -/
def openTable (key : String) (entries : Entries) : Option Entries :=
  match find? key entries with
  | none => some (set key (.table .header []) entries)
  | some (.table .implied inner) =>
    some ((entries.filter fun entry => entry.1 != key) ++ [(key, .table .header inner)])
  | some _ => none

/-- Opens the next table of the array that a header names. -/
def openArrayTable (key : String) (entries : Entries) : Option Entries :=
  match find? key entries with
  | none => some (set key (.tables [[]]) entries)
  | some (.tables items) => some (set key (.tables (items ++ [[]])) entries)
  | some _ => none

mutual

/-- The finished value of a node. -/
def nodeValue : Node → Toml
  | .value value => value
  | .table _ entries => .table (values entries)
  | .tables items => .array (tableValues items)

/-- The finished values of entries. -/
def values : List (String × Node) → List (String × Toml)
  | [] => []
  | (key, node) :: entries => (key, nodeValue node) :: values entries

/-- The finished tables of an array of tables. -/
def tableValues : List (List (String × Node)) → List Toml
  | [] => []
  | entries :: items => .table (values entries) :: tableValues items

end

end Entries

/-- Skips blanks, line ends and comments, inside of a comment or not. -/
def skipFiller (inComment : Bool) : List Char → Option (List Char)
  | [] => some []
  | c :: rest =>
    if c == '\n' then skipFiller false rest
    else if c == '\r' then
      match rest with
      | '\n' :: rest₁ => skipFiller false rest₁
      | _ => none
    else if inComment then if isControl c then none else skipFiller true rest
    else if isBlankChar c then skipFiller false rest
    else if c == '#' then skipFiller true rest
    else some (c :: rest)

/-- Skips the rest of a line: blanks and a comment, through the line end. -/
def skipLine (cs : List Char) : Option (List Char) :=
  let rest := skipBlanks cs
  let comment := if rest.head? == some '#' then rest.takeWhile (!isControl ·) else []
  match rest.drop comment.length with
  | [] => some []
  | '\n' :: rest₁ => some rest₁
  | '\r' :: '\n' :: rest₁ => some rest₁
  | _ => none

/-- The nesting that arrays, inline tables and keys with dots stay below. -/
def nestingLimit : Nat := 80

/-- Reads the key of an entry through its equals sign. -/
def readEntryKey (cs : List Char) : Option (List String × List Char) := do
  let (path, rest) ← readKey cs.length cs
  match rest with
  | '=' :: rest₁ => if path.length < nestingLimit then some (path, rest₁) else none
  | _ => none

mutual

/-- Reads a value, with `depth` collections open around it. -/
def readValue : (fuel : Nat) → (depth : Nat) → List Char → Option (Toml × List Char)
  | 0, _, _ => none
  | fuel + 1, depth, cs =>
    match cs with
    | [] => none
    | c :: rest =>
      if isDoubleQuote c || isSingleQuote c then
        (readString cs).map fun r => (string r.1, r.2)
      else if c == '[' then
        if nestingLimit ≤ depth + 1 then none
        else (readItems fuel (depth + 1) rest).map fun r => (array r.1, r.2)
      else if c == '\x7b' then
        if nestingLimit ≤ depth + 1 then none
        else match skipBlanks rest with
          | '\x7d' :: rest₁ => some (table [], rest₁)
          | _ =>
            (readEntries fuel (depth + 1) [] rest).map fun r => (table (Entries.values r.1), r.2)
      else readWord cs

/-- Reads the items of an array through its closing bracket. -/
def readItems : (fuel : Nat) → (depth : Nat) → List Char → Option (List Toml × List Char)
  | 0, _, _ => none
  | fuel + 1, depth, cs =>
    match skipFiller false cs with
    | none => none
    | some (']' :: rest) => some ([], rest)
    | some rest =>
      match readValue fuel depth rest with
      | none => none
      | some (item, rest₁) =>
        match skipFiller false rest₁ with
        -- A comma may stand behind the last item.
        | some (',' :: rest₂) => (readItems fuel depth rest₂).map fun r => (item :: r.1, r.2)
        | some (']' :: rest₂) => some ([item], rest₂)
        | _ => none

/-- Reads the entries of an inline table through its closing brace; there is at least one. -/
def readEntries : (fuel : Nat) → (depth : Nat) → Entries → List Char →
    Option (Entries × List Char)
  | 0, _, _, _ => none
  | fuel + 1, depth, entries, cs =>
    match readEntryKey cs with
    | none => none
    | some (path, rest) =>
      match readValue fuel depth (skipBlanks rest) with
      | none => none
      | some (value, rest₁) =>
        match Entries.insertKey path value entries with
        | none => none
        | some entries =>
          match skipBlanks rest₁ with
          -- Behind a comma another entry has to follow.
          | ',' :: rest₂ => readEntries fuel depth entries rest₂
          | '\x7d' :: rest₂ => some (entries, rest₂)
          | _ => none

end

/-- A statement of a document. -/
inductive Statement
  | entry (path : List String) (value : Toml)
  | header (path : List String)
  | arrayHeader (path : List String)
  deriving Repr

/-- Reads the key of a header and its closing brackets. -/
def readHeader (brackets : List Char) (cs : List Char) : Option (List String × List Char) := do
  let (path, rest) ← readKey cs.length cs
  if path.length < nestingLimit && brackets.isPrefixOf rest then
    return (path, rest.drop brackets.length)
  else none

/-- Reads a statement, without the rest of its line. -/
def readStatement (cs : List Char) : Option (Statement × List Char) :=
  match cs with
  | '[' :: '[' :: rest => (readHeader [']', ']'] rest).map fun r => (.arrayHeader r.1, r.2)
  | '[' :: rest => (readHeader [']'] rest).map fun r => (.header r.1, r.2)
  | _ => do
    let (path, rest) ← readEntryKey cs
    let (value, rest₁) ← readValue (2 * rest.length + 2) 0 (skipBlanks rest)
    some (.entry path value, rest₁)

/-- Reads the statements of a document. -/
def readStatements : (fuel : Nat) → List Char → Option (List Statement)
  | 0, _ => none
  | fuel + 1, cs =>
    match skipFiller false cs with
    | none => none
    | some [] => some []
    | some rest => do
      let (statement, rest₁) ← readStatement rest
      let statements ← readStatements fuel (← skipLine rest₁)
      some (statement :: statements)

/-- A document in the making: its entries and the table that entries go to. -/
structure Draft where
  entries : Entries := []
  path : List String := []
  deriving Repr

/-- Adds a statement to a document. -/
def Draft.add (draft : Draft) (statement : Statement) : Option Draft :=
  match statement with
  | .entry path value =>
    (Entries.below (Entries.insertKey path value) draft.path draft.entries).map fun entries =>
      { draft with entries }
  | .header path => do
    let key ← path.getLast?
    let entries ← Entries.below (Entries.openTable key) path.dropLast draft.entries
    some { entries, path }
  | .arrayHeader path => do
    let key ← path.getLast?
    let entries ← Entries.below (Entries.openArrayTable key) path.dropLast draft.entries
    some { entries, path }

/-- The table that a document writes. -/
def document? (text : String) : Option (List (String × Toml)) := do
  let cs := text.toList
  -- A byte order mark is no part of the document.
  let cs := if cs.head? == some (Char.ofNat 0xFEFF) then cs.tail else cs
  let statements ← readStatements (cs.length + 1) cs
  let draft ← statements.foldlM Draft.add {}
  return Entries.values draft.entries

end BracketLint.Toml
