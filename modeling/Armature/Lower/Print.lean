import Armature.Lower.Expr

/-!
# Lowering print statements

A value is printed by calls of `printf`, whose arguments are stored at the stack pointer. Tuples,
dicts and enums take one call for each part. Arrays are printed by a loop over their slots.
-/

namespace Armature.Lower

open A64 (XReg)
open Asm (Code Label Line)

/-! ## Calls -/

/-- Prints by a format, as it stands. -/
def printf (format : String) : Code := [.address .x0 (Bytes.ofText format), .callImport .printf]

def printText (text : String) : Code := printf (percentDoubled text)

/-- Replaces one or zero by the address of its text. -/
def boolText : Code :=
  [.instr (.cmpImm .x0 0), .address .x16 (Bytes.ofText "true"),
    .address .x17 (Bytes.ofText "false"), .instr (.csel .x0 .x16 .x17 .ne)]

/-- Stores the value as argument number `k`. -/
def storeArgument (kind : Scalar) (k : Nat) : Code :=
  let offset := BitVec.ofNat 16 (8 * k)
  match kind with
  | .int | .string => [.instr (.strX .x0 .sp offset)]
  | .float => [.instr (.strD .d0 .sp offset)]
  | .bool => boolText ++ [.instr (.strX .x0 .sp offset)]

/-- How a format refers to a value. -/
def conversion : Scalar → String
  | .int => "%ld"
  | .float => "%g"
  | .bool | .string => "%s"

/-- Strings have quotes around them inside a composite. -/
def innerConversion : Scalar → String
  | .string => "\"%s\""
  | kind => conversion kind

/-- Prints the value on a line of its own. -/
def printLine (kind : Scalar) : Code := storeArgument kind 0 ++ printf (conversion kind ++ "\n")

/-- Prints the value as a part of a composite, between two texts. -/
def printPart (kind : Scalar) (before after : String) : Code :=
  storeArgument kind 0
    ++ printf (percentDoubled before ++ innerConversion kind ++ percentDoubled after)

/-! ## Loops -/

/-- Runs the body while the first slot is below the second, and counts up in the first. -/
def countedLoop (counter stop : Slot) (body : Lowering Code) : Lowering Code := do
  let top ← Lowering.newLabel .loopTop
  let done ← Lowering.newLabel .loopEnd
  let code ← body
  return [.mark top, loadX .x0 counter, loadX .x1 stop, .instr (.cmp .x0 .x1), .jumpIf .ge done]
    ++ code
    ++ [loadX .x0 counter, .instr (.addImm .x0 .x0 1), storeX .x0 counter, .jump top, .mark done]

def initCounter (counter stop : Slot) (count : Nat) : Code :=
  constant .x0 0 ++ storeX .x0 counter :: constant .x0 (BitVec.ofNat 64 count)
    ++ [storeX .x0 stop]

/-- Prints a comma, except in the first round. -/
def printSeparator (counter : Slot) : Lowering Code := do
  let skip ← Lowering.newLabel .skip
  return loadX .x0 counter :: .jumpIfZero .x0 skip :: printText ", " ++ [.mark skip]

/-! ## Arrays -/

/-- A scratch slot for print loops. The first two count through an array, the next two through a
row of one, and the fifth holds the number of a row. -/
def scratchSlot (slots : List Slot) (i : Nat) : Slot := slots.getD i ⟨0⟩

/-- Adds to `x0` the number of the first element of a row. -/
def addRowStart (row : Slot) (columns : Nat) : Code :=
  loadX .x1 row :: constant .x2 (BitVec.ofNat 64 columns)
    ++ [.instr (.mul .x1 .x1 .x2), .instr (.add .x0 .x0 .x1)]

/-- Prints an array between two texts. With `row`, the slot of a row number, it is that row of
rows which are as long as the view. -/
def printArray (view : ArrayView) (row : Option Slot) (before after : String) :
    Lowering Code := do
  if view.count = 0 then
    return printText (before ++ "[]" ++ after)
  else
    let slots ← Lowering.take (·.scratchSlots 4)
    let first := if row.isSome then 2 else 0
    let counter := scratchSlot slots first
    let stop := scratchSlot slots (first + 1)
    let start :=
      match row with
      | some row => addRowStart row view.count
      | none => []
    let loop ← countedLoop counter stop do
      return (← printSeparator counter) ++ loadX .x0 counter :: start
        ++ loadAt view.element view.base ++ printPart view.element "" ""
    return printText (before ++ "[") ++ initCounter counter stop view.count ++ loop
      ++ printText ("]" ++ after)

/-- Prints an array of rows. -/
def printRows (layout : ArrayLayout) (columns : Nat) : Lowering Code := do
  if layout.count = 0 then
    return printText "[]\n"
  else
    let slots ← Lowering.take (·.scratchSlots 4)
    let counter := scratchSlot slots 0
    let stop := scratchSlot slots 1
    let loop ← countedLoop counter stop do
      return (← printSeparator counter)
        ++ (← printArray ⟨layout.base, columns, layout.element⟩ (some counter) "" "")
    return printText "[" ++ initCounter counter stop layout.count ++ loop ++ printText "]\n"

/-- Prints a row whose number is computed. The number is not checked. -/
def printRow (layout : ArrayLayout) (columns : Nat) (position : Expr) : Lowering Code := do
  let value ← Lowering.value position
  match indexCode value with
  | .error e => Lowering.fail e
  | .ok code =>
    let row := scratchSlot (← Lowering.take (·.scratchSlots 5)) 4
    return code ++ storeX .x0 row
      :: (← printArray ⟨layout.base, columns, layout.element⟩ (some row) "" "\n")

/-! ## Tuples, dicts and enums -/

/-- What stands before part number `i`. -/
def opening (bracket : String) (i : Nat) : String := if i = 0 then bracket else ", "

def printTuple (elements : List (Slot × Scalar)) : Code :=
  if elements.isEmpty then
    printText "()\n"
  else
    elements.zipIdx.flatMap fun ((slot, kind), i) =>
      load kind slot
        :: printPart kind (opening "(" i) (if i + 1 = elements.length then ")\n" else "")

def printFields : List (Field × Nat) → Lowering Code
  | [] => return printText "\x7d\n"
  | (f, i) :: rest => do
    let before := opening "\x7b" i ++ "\"" ++ Escape.text f.key ++ "\": "
    let code ←
      match f.shape with
      | .scalar kind => pure (load kind f.slot :: printPart kind before "")
      | .array count element => printArray ⟨f.slot, count, element⟩ none before ""
    return code ++ (← printFields rest)

def printDict (fields : List Field) : Lowering Code :=
  if fields.isEmpty then return printText "\x7b\x7d\n" else printFields fields.zipIdx

/-- Prints the cases of an enum, each as its own key. -/
def printEnum (cases : List String) : Code :=
  if cases.isEmpty then
    printText "\x7b\x7d\n"
  else
    cases.zipIdx.flatMap fun (case, i) =>
      .address .x0 (Escape.bytes case) :: .instr (.strX .x0 .sp 0) :: .instr (.strX .x0 .sp 8)
        :: printf (opening "\x7b" i ++ "\"%s\": %s"
          ++ if i + 1 = cases.length then "\x7d\n" else "")

/-! ## Interpolation -/

/-- The format of the parts, and the code that stores the variables among them. `k` is the number
of those before. -/
def interpolate (s : Scope) : Nat → List Part → Except Construct (String × Code)
  | _, [] => .ok ("\n", [])
  | k, .text source :: rest => do
    let (format, code) ← interpolate s k rest
    return (percentDoubled (Escape.text source) ++ format, code)
  | k, .var name :: rest =>
    match s.shape? name with
    | none => .error (.unknownVariable name)
    | some (slot, shape) =>
      match shape.scalar? with
      | none => .error (.interpolatedShape shape name)
      | some kind => do
        let (format, code) ← interpolate s (k + 1) rest
        return (conversion kind ++ format, load kind slot :: storeArgument kind k ++ code)

def isVar : Part → Bool
  | .var _ => true
  | .text _ => false

def printInterpolation (parts : List Part) : Lowering Code := do
  if Resource.interpolatedValues.limit < parts.countP isVar then
    Lowering.fail (.exhausted .interpolatedValues)
  else
    match interpolate (← get) 0 parts with
    | .error c => Lowering.refuse c
    | .ok (format, code) => return code ++ printf format

/-! ## Print statements -/

def printValue (e : Expr) : Lowering Code := do
  let value ← Lowering.value e
  return value.code ++ printLine value.kind

def printComposite : Shape → Lowering Code
  | .array layout =>
    match layout.inner with
    | none => printArray (flatView layout) none "" "\n"
    | some columns => printRows layout columns
  | .tuple elements => return printTuple elements
  | .dict fields => printDict fields
  | shape => Lowering.fail (.internal (.notComposite shape.name))

def printVariable (name : String) : Lowering Code := do
  let s ← get
  match s.shape? name with
  | some (slot, shape) =>
    match shape.scalar? with
    | some kind => return load kind slot :: printLine kind
    | none => printComposite shape
  | none =>
    match s.enums.get? name with
    | some cases => return printEnum cases
    | none => Lowering.refuse (.unknownVariable name)

/-- An element may be an array itself. -/
def printElement (name : String) (position : Expr) : Lowering Code := do
  let s ← get
  match arrayView s name position with
  | .error e => Lowering.fail e
  | .ok (some view) => printArray view none "" "\n"
  | .ok none =>
    match s.shape? name with
    | some (_, .array layout) =>
      match layout.inner with
      | some columns => printRow layout columns position
      | none => printValue (.index (.var name) position)
    | _ => printValue (.index (.var name) position)

def print : Expr → Lowering Code
  | .interpolation parts => printInterpolation parts
  | .var name => printVariable name
  | .index (.var name) position => printElement name position
  | e => printValue e

end Armature.Lower
