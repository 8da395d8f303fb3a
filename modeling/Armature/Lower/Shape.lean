import Armature.Bindings

/-!
# Slots and shapes

A frame keeps its variables in slots of eight bytes. The shape of a variable says what its slots
hold. It is known when the program is compiled.
-/

namespace Armature

structure Slot where
  index : BitVec 16
deriving DecidableEq

namespace Slot

/-- Distance in bytes from the frame base. The first 64 bytes are for arguments of print calls. -/
def offset (s : Slot) : BitVec 16 := 64 + 8 * s.index

/-- The slot `k` places further on. -/
def nth (s : Slot) (k : Nat) : Slot := ⟨s.index + BitVec.ofNat 16 k⟩

end Slot

/-- What a single slot or register holds. A string is the address of its bytes. -/
inductive Scalar where
  | int | float | bool | string
deriving DecidableEq

namespace Scalar

def all : List Scalar := [.int, .float, .bool, .string]

def name : Scalar → String
  | int => "int"
  | float => "float"
  | bool => "bool"
  | string => "string"

def ofName? (name : String) : Option Scalar := all.find? (·.name = name)

end Scalar

/-- An array of `count` elements in as many slots. With `inner`, it is an array of `count` rows of
`inner` elements each, row after row. -/
structure ArrayLayout where
  base : Slot
  count : Nat
  element : Scalar
  inner : Option Nat
deriving DecidableEq

inductive FieldShape where
  | scalar (kind : Scalar)
  | array (count : Nat) (element : Scalar)
deriving DecidableEq

/-- The number of slots. -/
def FieldShape.span : FieldShape → Nat
  | scalar _ => 1
  | array count _ => count

structure Field where
  key : String
  slot : Slot
  shape : FieldShape
deriving DecidableEq

inductive Shape where
  | scalar (kind : Scalar)
  /-- A case of the named enum, which is held as its name. -/
  | enumCase (enum : String)
  | array (layout : ArrayLayout)
  | tuple (elements : List (Slot × Scalar))
  | dict (fields : List Field)
deriving DecidableEq

namespace Shape

/-- What the slot holds, if there is just one. -/
def scalar? : Shape → Option Scalar
  | scalar kind => some kind
  | enumCase _ => some .string
  | array _ | tuple _ | dict _ => none

def name : Shape → String
  | scalar kind => kind.name
  | enumCase _ => "enum case"
  | array _ => "array"
  | tuple _ => "tuple"
  | dict _ => "dict"

/-- The field of that key. -/
def field? (fields : List Field) (key : String) : Option Field := fields.find? (·.key = key)

end Shape

end Armature
