import Armature.Numeral

/-!
# JSON values

A value keeps what its text says: the digits of numbers, the order of members, and members that
are named twice.
-/

namespace Armature

/-- The characters of a JSON string. There are none when an escape names half of a surrogate pair
without the other half: such a string is well formed but denotes no text. -/
abbrev JsonText := Option String

inductive Json where
  | null
  | bool (value : Bool)
  | number (value : Numeral)
  | string (value : JsonText)
  | array (items : List Json)
  | object (members : List (JsonText × Json))

namespace Json

def ofText (text : String) : Json := string (some text)

def ofNat (n : Nat) : Json := number (.ofInt n)

/-- An object whose member names are all texts. -/
def ofMembers (members : List (String × Json)) : Json :=
  object (members.map fun (name, value) => (some name, value))

/-- The value of the first member of this name. -/
def member? (json : Json) (name : String) : Option Json :=
  match json with
  | object members => (members.find? (·.1 = some name)).map (·.2)
  | _ => none

end Json

end Armature
