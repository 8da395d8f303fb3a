import Armature.Bindings
import Armature.Decimal.Printing

/-!
# Values

What expressions evaluate to, their text when printed, and which of them count as true.
-/

namespace Armature

inductive Kind where
  | int | float | bool | string | nil | array | tuple | dict | enum
deriving DecidableEq

def Kind.name : Kind → String
  | int => "int" | float => "float" | bool => "bool" | string => "string" | nil => "nil"
  | array => "array" | tuple => "tuple" | dict => "dict" | enum => "enum"

inductive Value where
  | int (value : Int64)
  | float (value : Double)
  | bool (value : Bool)
  | str (text : String)
  | nil
  | array (items : List Value)
  | tuple (items : List Value)
  | dict (fields : List (String × Value))
  /-- An enum as a whole. Its cases are strings. -/
  | enum (name : String) (cases : List String)

namespace Value

def kind : Value → Kind
  | int _ => .int
  | float _ => .float
  | bool _ => .bool
  | str _ => .string
  | nil => .nil
  | array _ => .array
  | tuple _ => .tuple
  | dict _ => .dict
  | enum .. => .enum

/-- Zeros, `nil` and empty composites are false. Every string is true, and so is not-a-number. -/
def truthy : Value → Bool
  | int i => i != 0
  | float x => !x.isZero
  | bool b => b
  | str _ => true
  | nil => false
  | array items | tuple items => !items.isEmpty
  | dict fields => !fields.isEmpty
  | enum .. => true

/-! ## Text -/

def quote (text : String) : String := "\"" ++ text ++ "\""

def boolText (b : Bool) : String := if b then "true" else "false"

def commaSeparated (parts : List String) : String := ", ".intercalate parts

mutual

/-- The text of a value. Strings inside composites are quoted, others only if `quoted` is set. -/
def render (quoted : Bool) : Value → String
  | int i => toString i.toInt
  | float x => x.text
  | bool b => boolText b
  | str s => if quoted then quote s else s
  | nil => "nil"
  | array items => "[" ++ commaSeparated (renderItems items) ++ "]"
  | tuple items => "(" ++ commaSeparated (renderItems items) ++ ")"
  | dict fields => "\x7b" ++ commaSeparated (renderFields fields) ++ "\x7d"
  | enum _ cases => "\x7b" ++ commaSeparated (cases.map fun c => quote c ++ ": " ++ c) ++ "\x7d"

def renderItems : List Value → List String
  | [] => []
  | v :: rest => render true v :: renderItems rest

def renderFields : List (String × Value) → List String
  | [] => []
  | (key, v) :: rest => (quote key ++ ": " ++ render true v) :: renderFields rest

end

/-- The text that printing the value writes. -/
def text (v : Value) : String := v.render false

/-- The text of the value as an element of a composite. -/
def repr (v : Value) : String := v.render true

end Value

end Armature
