import Armature.Lower.Expr

/-!
# Lowering declarations

A composite is built on the stack first and stored when all its values are there. So it may be built
from its own elements.
-/

namespace Armature.Lower

open Asm (Code)

/-! ## What a literal consists of -/

/-- The elements of the rows, if all rows have as many and none of them is an array. -/
def gridElements (name : String) (columns : Nat) : List Expr → Except Construct (List Expr)
  | [] => .ok []
  | .array row :: rest =>
    if row.length ≠ columns then .error (.raggedArray name)
    else if row.any Expr.isArray then .error (.deepArray name)
    else do return row ++ (← gridElements name columns rest)
  | _ :: rest => gridElements name columns rest

/-- The elements of an array literal, and how many there are in a row if it has rows. -/
def arrayElements (name : String) (items : List Expr) :
    Except Construct (List Expr × Option Nat) := do
  let (values, inner) ←
    match items.find? Expr.isArray with
    | some (.array row) =>
      if items.all Expr.isArray then do
        pure (← gridElements name row.length items, some row.length)
      else
        .error (.mixedArray name)
    | _ => pure (items, none)
  if values.any Expr.isTupleOrDict then
    .error (.compositeInArray name)
  else
    return (values, inner)

/-- A field of a dict literal: its key, and its values if it holds an array. -/
structure FieldLiteral where
  key : String
  value : Expr ⊕ List Expr

def FieldLiteral.values (f : FieldLiteral) : List Expr :=
  match f.value with
  | .inl e => [e]
  | .inr items => items

/-- The fields of a dict literal. `seen` are the keys before them. -/
def dictFields (name : String) (seen : List String) :
    List (Expr × Expr) → Except Construct (List FieldLiteral)
  | [] => .ok []
  | (.str key, value) :: rest =>
    if seen.contains key then
      .error (.duplicateKey key name)
    else do
      let value ←
        match value with
        | .array items =>
          if items.any Expr.isComposite then .error (.deepField name) else pure (.inr items)
        | .tuple _ | .dict _ => .error (.compositeInDict value.kind name)
        | _ => pure (.inl value)
      return ⟨key, value⟩ :: (← dictFields name (key :: seen) rest)
  | _ :: _ => .error (.computedKeyIn name)

/-- The kind that all have. It is that of integers if there are none. -/
def commonKind : List Scalar → Option Scalar
  | [] => some .int
  | kind :: rest => if rest.all (· = kind) then some kind else none

/-- The keys of a dict, each with the shape of its field. `kinds` are those of all values. -/
def fieldShapes (name : String) :
    List Scalar → List FieldLiteral → Except Construct (List (String × FieldShape))
  | _, [] => .ok []
  | kinds, f :: rest => do
    let count := f.values.length
    let shape ←
      match f.value, commonKind (kinds.take count) with
      | .inl _, some kind => pure (.scalar kind)
      | .inr _, some kind => pure (.array count kind)
      | _, none => .error (.unevenField f.key name)
    return (f.key, shape) :: (← fieldShapes name (kinds.drop count) rest)

/-- The fields one behind the other. -/
def placeFields (slot : Slot) : List (String × FieldShape) → List Field
  | [] => []
  | (key, shape) :: rest => ⟨key, slot, shape⟩ :: placeFields (slot.nth shape.span) rest

/-! ## Storing -/

/-- Computes values from left to right and leaves them on the stack. -/
def stage : List Expr → Lowering (List Scalar × Code)
  | [] => return ([], [])
  | e :: rest => do
    let value ← Lowering.value e
    let (kinds, code) ← stage rest
    return (value.kind :: kinds, value.code ++ push value.kind :: code)

/-- Pops staged values into the slots from `base` on, the last one first. -/
def unstage (base : Slot) (kinds : List Scalar) : Code :=
  (kinds.zipIdx.reverse.map fun (kind, i) => [pop kind, store kind (base.nth i)]).flatten

def accept {α : Type} : Except Construct α → Lowering α
  | .ok a => pure a
  | .error c => Lowering.refuse c

/-- Gives staged values their slots. -/
def bindComposite (name : String) (kinds : List Scalar) (shape : Slot → Shape) :
    Lowering Code := do
  let (base, span) ← Lowering.take (·.spanFor name kinds.length)
  Lowering.bind name ⟨base, span, shape base⟩
  return unstage base kinds

def declareArray (name : String) (items : List Expr) : Lowering Code := do
  let (values, inner) ← accept (arrayElements name items)
  let (kinds, code) ← stage values
  match commonKind kinds with
  | none => Lowering.refuse (.unevenArray name)
  | some kind =>
    return code ++ (← bindComposite name kinds fun base =>
      .array ⟨base, items.length, kind, inner⟩)

def declareTuple (name : String) (items : List Expr) : Lowering Code := do
  if items.any Expr.isComposite then
    Lowering.refuse (.compositeInTuple name)
  else
    let (kinds, code) ← stage items
    return code ++ (← bindComposite name kinds fun base =>
      .tuple (kinds.zipIdx.map fun (kind, i) => (base.nth i, kind)))

def declareDict (name : String) (entries : List (Expr × Expr)) : Lowering Code := do
  let fields ← accept (dictFields name [] entries)
  let (kinds, code) ← stage (fields.flatMap FieldLiteral.values)
  let shapes ← accept (fieldShapes name kinds fields)
  return code ++ (← bindComposite name kinds fun base => .dict (placeFields base shapes))

/-- The enum that a value is a case of, where that can be seen. -/
def enumOf? (s : Scope) : Expr → Option String
  | .index (.var name) (.str _) => if (s.enum? name).isSome then some name else none
  | .var name =>
    match s.shape? name with
    | some (_, .enumCase enum) => some enum
    | _ => none
  | _ => none

def declareScalar (name : String) (e : Expr) : Lowering Code := do
  let enum? := enumOf? (← get) e
  let value ← Lowering.value e
  let shape :=
    match enum? with
    | some enum => .enumCase enum
    | none => .scalar value.kind
  let slot ← Lowering.take (·.assign name shape)
  return value.code ++ [store value.kind slot]

def declare (name : String) : Expr → Lowering Code
  | .array items => declareArray name items
  | .tuple items => declareTuple name items
  | .dict entries => declareDict name entries
  | e => declareScalar name e

end Armature.Lower
