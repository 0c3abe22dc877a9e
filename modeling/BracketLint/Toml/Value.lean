import BracketLint.Decimal
import BracketLint.Toml.DateTime

/-!
TOML values.
-/

namespace BracketLint

/-- A TOML value. A floating-point number is kept as its shortest decimal text. -/
inductive Toml
  | string (value : String)
  | integer (value : Int)
  | float (text : String)
  | boolean (value : Bool)
  | dateTime (value : Toml.DateTime)
  | array (items : List Toml)
  | table (entries : List (String × Toml))
  deriving Repr, Inhabited

namespace Toml

/-- The text in a string. -/
def string? : Toml → Option String
  | string value => some value
  | _ => none

/-- The number in an integer. -/
def integer? : Toml → Option Int
  | integer value => some value
  | _ => none

/-- The truth value in a Boolean. -/
def boolean? : Toml → Option Bool
  | boolean value => some value
  | _ => none

/-- The items of an array. -/
def array? : Toml → Option (List Toml)
  | array items => some items
  | _ => none

/-- The key that stands for a date or time where a table is expected. -/
def dateTimeKey : String := "$__toml_private_datetime"

/-- The entries of a table. A date or time counts as a table with one entry, which holds its text. -/
def entries? : Toml → Option (List (String × Toml))
  | table entries => some entries
  | dateTime value => some [(dateTimeKey, string value.text)]
  | _ => none

/-- The strings of an array of strings. -/
def strings? (value : Toml) : Option (List String) := value.array?.bind (·.mapM string?)

mutual

/-- A value in which each table that starts with the key of dates and times is the date or time that
its text writes. Refused where such a table holds anything else. -/
def withDateTimes? : Toml → Option Toml
  | table ((key, value) :: entries) =>
    if key == dateTimeKey then
      match value, entries with
      | string text, [] => (DateTime.ofText? text.toList).map dateTime
      | _, _ => none
    else do
      let value ← withDateTimes? value
      let entries ← entriesWithDateTimes? entries
      return table ((key, value) :: entries)
  | array items => (itemsWithDateTimes? items).map array
  | value => some value

/-- The same for the items of an array. -/
def itemsWithDateTimes? : List Toml → Option (List Toml)
  | [] => some []
  | item :: items => do return (← withDateTimes? item) :: (← itemsWithDateTimes? items)

/-- The same for the entries of a table. -/
def entriesWithDateTimes? : List (String × Toml) → Option (List (String × Toml))
  | [] => some []
  | (key, value) :: entries => do
    return (key, ← withDateTimes? value) :: (← entriesWithDateTimes? entries)

end

end Toml
end BracketLint
