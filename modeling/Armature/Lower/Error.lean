import Armature.Asm.Defect
import Armature.Lower.Shape
import Armature.Syntax

/-!
# Programs that cannot be compiled

A program is refused because of a construct that compiled code has no form for, or because it needs
more of something than there is. Lowering also checks itself.
-/

namespace Armature

inductive Construct where
  -- Values
  | nil
  | input
  | interpolation
  | literalAsValue (kind : String)
  | variableAsValue (shape : Shape) (name : String)
  | enumAsValue (name : String)
  | unknownVariable (name : String)
  | mixedOperands (op : BinaryOp)
  | stringOperands (op : BinaryOp)
  | negatedString
  -- Calls
  | unknownFunction (name : String)
  | argumentCount (name : String) (given expected : Nat)
  | argumentKind (kind : Scalar) (name : String)
  -- Elements
  | computedCase (enum : String)
  | unknownCase (case enum : String)
  | indexedElement
  | indexedExpr (kind : String)
  | indexedShape (shape : Shape) (name : String)
  | indexKind (kind : Scalar)
  | rowAsValue (name : String)
  | rowRange (row : Int64) (name : String)
  | indexRange (index : Int64) (count : Nat)
  | cellRange (row column : Int64) (rows columns : Nat)
  | computedTupleIndex (name : String)
  | tupleRange (index : Int64) (name : String)
  | computedKey (name : String)
  | unknownKey (key name : String)
  | fieldAsValue (key name : String)
  -- Declarations
  | mixedArray (name : String)
  | raggedArray (name : String)
  | deepArray (name : String)
  | compositeInArray (name : String)
  | unevenArray (name : String)
  | compositeInTuple (name : String)
  | computedKeyIn (name : String)
  | duplicateKey (key name : String)
  | deepField (name : String)
  | compositeInDict (kind name : String)
  | unevenField (key name : String)
  -- Statements
  | nestedFunction (name : String)
  | tryCatch
  | throw
  | collectionLoop
  | conditionLoop
  | loopStart (kind : Scalar)
  | loopEnd (kind : Scalar)
  | returnOutside
  | returnKind (kind : Scalar)
  | interpolatedShape (shape : Shape) (name : String)
deriving DecidableEq

namespace Construct

def quoted (name : String) : String := "`" ++ name ++ "`"

def describe : Construct → String
  | nil => "nil"
  | input => "input"
  | interpolation => "string interpolation outside print"
  | literalAsValue kind => kind ++ " used as a value"
  | variableAsValue shape name => shape.name ++ " " ++ quoted name ++ " used as a value"
  | enumAsValue name => "enum " ++ quoted name ++ " used as a value"
  | unknownVariable name => "unknown variable " ++ quoted name
  | mixedOperands op => quoted op.symbol ++ " between a string and a number"
  | stringOperands op => "string operands to " ++ quoted op.symbol
  | negatedString => "negating a string"
  | unknownFunction name => "unknown function " ++ quoted name
  | argumentCount name given expected =>
    "call to " ++ quoted name ++ " with " ++ toString given ++ " arguments (expects "
      ++ toString expected ++ ")"
  | argumentKind kind name => kind.name ++ " argument to " ++ quoted name
  | computedCase enum => "non-literal case of enum " ++ quoted enum
  | unknownCase case enum => "unknown case " ++ quoted case ++ " of enum " ++ quoted enum
  | indexedElement => "indexing into an element that is not an array"
  | indexedExpr kind => "indexing a " ++ kind
  | indexedShape shape name => "indexing a " ++ shape.name ++ " " ++ quoted name
  | indexKind kind => kind.name ++ " used as an index"
  | rowAsValue name => "row of nested array " ++ quoted name ++ " used as a value"
  | rowRange row name => "row " ++ toString row ++ " out of range for " ++ quoted name
  | indexRange index count =>
    "index " ++ toString index ++ " out of range for array of " ++ toString count
  | cellRange row column rows columns =>
    "index [" ++ toString row ++ "][" ++ toString column ++ "] out of range for " ++ toString rows
      ++ "x" ++ toString columns ++ " array"
  | computedTupleIndex name => "non-literal index into tuple " ++ quoted name
  | tupleRange index name =>
    "tuple index " ++ toString index ++ " out of range for " ++ quoted name
  | computedKey name => "non-literal key into dict " ++ quoted name
  | unknownKey key name => "unknown key " ++ quoted key ++ " of dict " ++ quoted name
  | fieldAsValue key name =>
    "array field " ++ quoted key ++ " of " ++ quoted name ++ " used as a value"
  | mixedArray name => "array " ++ quoted name ++ " mixing arrays and scalars"
  | raggedArray name => "ragged nested array " ++ quoted name
  | deepArray name => "array " ++ quoted name ++ " nested more than two levels"
  | compositeInArray name => "composite element in array " ++ quoted name
  | unevenArray name => "heterogeneous array " ++ quoted name
  | compositeInTuple name => "composite inside tuple " ++ quoted name
  | computedKeyIn name => "non-literal key in dict " ++ quoted name
  | duplicateKey key name => "duplicate key " ++ quoted key ++ " in dict " ++ quoted name
  | deepField name => "nested array in dict " ++ quoted name
  | compositeInDict kind name => kind ++ " inside dict " ++ quoted name
  | unevenField key name => "heterogeneous array " ++ quoted key ++ " in dict " ++ quoted name
  | nestedFunction name => "nested function definition " ++ quoted name
  | tryCatch => "try/catch"
  | throw => "throw"
  | collectionLoop => "collection loop"
  | conditionLoop => "condition loop"
  | loopStart kind => kind.name ++ " loop start bound"
  | loopEnd kind => kind.name ++ " loop end bound"
  | returnOutside => "return outside a function"
  | returnKind kind => kind.name ++ " return value"
  | interpolatedShape shape name =>
    shape.name ++ " " ++ quoted name ++ " in string interpolation"

end Construct

/-- What there is only so much of. -/
inductive Resource where
  | frameSlots | parameters | arguments | stagingRegisters | interpolatedValues
deriving DecidableEq

namespace Resource

def name : Resource → String
  | frameSlots => "frame slots"
  | parameters => "function parameters"
  | arguments => "call arguments"
  | stagingRegisters => "call-argument staging registers"
  | interpolatedValues => "interpolated values per print"

def limit : Resource → Nat
  | frameSlots => 256
  | parameters => 8
  | arguments => 8
  | stagingRegisters => 9
  | interpolatedValues => 8

end Resource

inductive LowerError where
  | unsupported (construct : Construct)
  | exhausted (resource : Resource)
  /-- No fault of the program. -/
  | internal (defect : Asm.Defect)
deriving DecidableEq

end Armature
