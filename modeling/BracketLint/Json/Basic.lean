/-!
JSON values. Objects keep their members in the order of the text, repeated names included.
-/

namespace BracketLint

/-- A JSON value. Numbers without fraction and exponent are integers; all others, and minus zero,
keep their spelling. -/
inductive Json
  | null
  | bool (value : Bool)
  | integer (value : Int)
  | decimal (spelling : String)
  | string (value : String)
  | array (items : List Json)
  | object (members : List (String × Json))
  deriving Repr, Inhabited

namespace Json

/-- The last member of an object with a name. -/
def member? (name : String) : Json → Option Json
  | object members => (members.reverse.find? fun m => m.1 == name).map (·.2)
  | _ => none

/-- A whole number that is not negative. -/
def natural (n : Nat) : Json := integer n

/-- The text in a string. -/
def string? : Json → Option String
  | string value => some value
  | _ => none

/-- The number in an integer. -/
def integer? : Json → Option Int
  | integer value => some value
  | _ => none

/-- The truth value in a Boolean. -/
def bool? : Json → Option Bool
  | bool value => some value
  | _ => none

/-- The items of an array. -/
def array? : Json → Option (List Json)
  | array items => some items
  | _ => none

/-- The members of an object. -/
def object? : Json → Option (List (String × Json))
  | object members => some members
  | _ => none

/-- `null` for a missing value. -/
def ofOption (value : Option Json) : Json := value.getD null

/-- An array of strings. -/
def strings (values : List String) : Json := array (values.map string)

end Json
end BracketLint
