import Armature.Lower.Scope
import Armature.Text.Escape

/-!
# Lowering expressions

The code of an expression leaves its value in `x0`, or in `d0` if it is a double. A value that is
needed later is pushed while the next one is computed. Arguments of a call wait in registers that
survive calls; `depth` counts those that are taken by calls around the expression.
-/

namespace Armature.Lower

open A64 (Cond DReg Instr XReg loadImm)
open Asm (Code Line)

/-! ## Pieces of code -/

def constant (rd : XReg) (value : BitVec 64) : Code := (loadImm rd value).map .instr

def loadX (rt : XReg) (slot : Slot) : Line := .instr (.ldrX rt .frameBase slot.offset)

def storeX (rt : XReg) (slot : Slot) : Line := .instr (.strX rt .frameBase slot.offset)

def load (kind : Scalar) (slot : Slot) : Line :=
  if kind = .float then .instr (.ldrD .d0 .frameBase slot.offset) else loadX .x0 slot

def store (kind : Scalar) (slot : Slot) : Line :=
  if kind = .float then .instr (.strD .d0 .frameBase slot.offset) else storeX .x0 slot

/-- Each pushed value takes 16 bytes, so that the stack pointer stays aligned. -/
def push (kind : Scalar) : Line :=
  if kind = .float then .instr (.pushD .d0 .sp (-16)) else .instr (.pushX .x0 .sp (-16))

def popX (rt : XReg) : Line := .instr (.popX rt .sp 16)

def popD (rt : DReg) : Line := .instr (.popD rt .sp 16)

def pop (kind : Scalar) : Line := if kind = .float then popD .d0 else popX .x0

/-- Loads the element whose number is in `x0`. -/
def loadAt (kind : Scalar) (base : Slot) : Code :=
  [.instr (.addImm .x16 .frameBase base.offset),
    if kind = .float then .instr (.ldrDAt .d0 .x16 .x0) else .instr (.ldrXAt .x0 .x16 .x0)]

/-- Code that leaves a value of the kind. -/
structure ValueCode where
  kind : Scalar
  code : Code

/-- Makes the value one or zero. An address is never zero. -/
def truth : Scalar → Code
  | .bool => []
  | .int => [.instr (.cmpImm .x0 0), .instr (.cset .x0 .ne)]
  | .float => [.instr (.fcmpZero .d0), .instr (.cset .x0 .ne)]
  | .string => constant .x0 1

/-! ## Operators -/

/-- When a comparison holds: the condition for integers, and the one for doubles. Of doubles, only
`ne` holds for a NaN. -/
structure Test where
  ints : Cond
  floats : Cond

def test? : BinaryOp → Option Test
  | .eq => some ⟨.eq, .eq⟩
  | .ne => some ⟨.ne, .ne⟩
  | .lt => some ⟨.lt, .mi⟩
  | .gt => some ⟨.gt, .gt⟩
  | .le => some ⟨.le, .ls⟩
  | .ge => some ⟨.ge, .ge⟩
  | .add | .sub | .mul | .div | .mod | .and | .or => none

/-- Combines `x0` and `x1` into `x0`. -/
def intCode : BinaryOp → Except LowerError (List Instr)
  | .add => .ok [.add .x0 .x0 .x1]
  | .sub => .ok [.sub .x0 .x0 .x1]
  | .mul => .ok [.mul .x0 .x0 .x1]
  | .div => .ok [.sdiv .x0 .x0 .x1]
  | .mod => .ok [.sdiv .x2 .x0 .x1, .msub .x0 .x2 .x1 .x0]
  | op => .error (.internal (.notArithmetic op.symbol))

/-- Combines `d0` and `d1` into `d0`. -/
def floatCode : BinaryOp → Except LowerError (List Instr)
  | .add => .ok [.fadd .d0 .d0 .d1]
  | .sub => .ok [.fsub .d0 .d0 .d1]
  | .mul => .ok [.fmul .d0 .d0 .d1]
  | .div => .ok [.fdiv .d0 .d0 .d1]
  | .mod => .ok [.fdiv .d2 .d0 .d1, .frintz .d2 .d2, .fmsub .d0 .d2 .d1 .d0]
  | op => .error (.internal (.notArithmetic op.symbol))

/-- Strings can only be compared with each other, and only for equality. -/
def checkOperands (op : BinaryOp) (left right : Scalar) : Except LowerError Unit :=
  if (left = .string) ≠ (right = .string) then .error (.unsupported (.mixedOperands op))
  else if left = .string ∧ op ≠ .eq ∧ op ≠ .ne then .error (.unsupported (.stringOperands op))
  else .ok ()

/-- Brings the right operand from `x0` or `d0`, and the left one from the stack, to where the
instruction expects them. If one is a double, the other is converted. -/
def arrange (left right : Scalar) : Bool × Code :=
  if left = .float ∨ right = .float then
    (true,
      (if right = .float then [.instr (.fmov .d1 .d0)] else [.instr (.scvtf .d1 .x0)])
        ++ if left = .float then [popD .d0] else [popX .x0, .instr (.scvtf .d0 .x0)])
  else
    (false, [.instr (.mov .x1 .x0), popX .x0])

/-- Both operands, in `x0` and `x1`, or in `d0` and `d1` if they are doubles. -/
def operands (op : BinaryOp) (left right : ValueCode) : Except LowerError (Bool × Code) := do
  checkOperands op left.kind right.kind
  let (float, code) := arrange left.kind right.kind
  return (float, left.code ++ push left.kind :: right.code ++ code)

/-- Compares two operands. The comparison holds if the condition does. -/
def comparison (op : BinaryOp) (left right : ValueCode) : Except LowerError (Cond × Code) := do
  let (float, code) ← operands op left right
  match test? op with
  | none => .error (.internal (.notComparison op.symbol))
  | some test =>
    if float then
      return (test.floats, code ++ [.instr (.fcmp .d0 .d1)])
    else
      return (test.ints, code ++ [.instr (.cmp .x0 .x1)])

def arithmetic (op : BinaryOp) (left right : ValueCode) : Except LowerError ValueCode := do
  let (float, code) ← operands op left right
  if float then
    return ⟨.float, code ++ (← floatCode op).map .instr⟩
  else
    return ⟨.int, code ++ (← intCode op).map .instr⟩

/-- Combines two truth values in `x0` and `x1`. -/
def logicalInstr (op : BinaryOp) : Instr :=
  if op = .and then .and .x0 .x0 .x1 else .orr .x0 .x0 .x1

/-- Both sides are always computed. -/
def logical (op : BinaryOp) (left right : ValueCode) : ValueCode where
  kind := .bool
  code := left.code ++ truth left.kind ++ push .bool :: right.code ++ truth right.kind
    ++ [.instr (.mov .x1 .x0), popX .x0, .instr (logicalInstr op)]

def binary (op : BinaryOp) (left right : ValueCode) : Except LowerError ValueCode :=
  if op.isLogical then
    .ok (logical op left right)
  else if op.isComparison then do
    let (cond, code) ← comparison op left right
    return ⟨.bool, code ++ [.instr (.cset .x0 cond)]⟩
  else
    arithmetic op left right

def unary (op : UnaryOp) (operand : ValueCode) : Except LowerError ValueCode :=
  match op with
  | .not =>
    .ok ⟨.bool, operand.code ++ truth operand.kind
      ++ [.instr (.cmpImm .x0 0), .instr (.cset .x0 .eq)]⟩
  | .neg =>
    match operand.kind with
    | .int | .bool => .ok ⟨.int, operand.code ++ [.instr (.neg .x0 .x0)]⟩
    | .float => .ok ⟨.float, operand.code ++ [.instr (.fneg .d0 .d0)]⟩
    | .string => .error (.unsupported .negatedString)

/-! ## Variables and elements -/

def varValue (s : Scope) (name : String) : Except LowerError ValueCode :=
  match s.shape? name with
  | some (slot, shape) =>
    match shape.scalar? with
    | some kind => .ok ⟨kind, [load kind slot]⟩
    | none => .error (.unsupported (.variableAsValue shape name))
  | none =>
    if s.enums.has name then .error (.unsupported (.enumAsValue name))
    else .error (.unsupported (.unknownVariable name))

/-- A run of slots that hold values of one kind. -/
structure ArrayView where
  base : Slot
  count : Nat
  element : Scalar

/-- The slots of an array whose elements are no arrays. -/
def flatView (layout : ArrayLayout) : ArrayView := ⟨layout.base, layout.count, layout.element⟩

/-- Whether a literal index is one of `count`. -/
def inRange (i : Int64) (count : Nat) : Bool := 0 ≤ i.toInt ∧ i.toInt < count

/-- The array that a variable and an index name without a computation: a field of a dict, or a row
whose number is a literal. -/
def arrayView (s : Scope) (name : String) (position : Expr) :
    Except LowerError (Option ArrayView) :=
  match s.shape? name, position with
  | some (_, .dict fields), .str key =>
    match Shape.field? fields key with
    | some ⟨_, slot, .array count element⟩ => .ok (some ⟨slot, count, element⟩)
    | _ => .ok none
  | some (_, .array ⟨base, count, element, some columns⟩), .int row =>
    if inRange row count then
      .ok (some ⟨base.nth (row.toInt.toNat * columns), columns, element⟩)
    else
      .error (.unsupported (.rowRange row name))
  | _, _ => .ok none

/-- An index must be an integer. -/
def indexCode (value : ValueCode) : Except LowerError Code :=
  match value.kind with
  | .int => .ok value.code
  | kind => .error (.unsupported (.indexKind kind))

/-- An element of an array. `value` is the code of the index. -/
def element (view : ArrayView) (position : Expr) (value : Except LowerError ValueCode) :
    Except LowerError ValueCode :=
  match position with
  | .int i =>
    if inRange i view.count then
      .ok ⟨view.element, [load view.element (view.base.nth i.toInt.toNat)]⟩
    else
      .error (.unsupported (.indexRange i view.count))
  | _ => do return ⟨view.element, (← indexCode (← value)) ++ loadAt view.element view.base⟩

/-- An element of a row. `rowValue` and `columnValue` are the code of the two indices. -/
def cell (layout : ArrayLayout) (columns : Nat) (row column : Expr)
    (rowValue columnValue : Except LowerError ValueCode) : Except LowerError ValueCode :=
  match row, column with
  | .int r, .int c =>
    if inRange r layout.count && inRange c columns then
      let place := r.toInt.toNat * columns + c.toInt.toNat
      .ok ⟨layout.element, [load layout.element (layout.base.nth place)]⟩
    else
      .error (.unsupported (.cellRange r c layout.count columns))
  | _, _ => do
    let rowCode ← indexCode (← rowValue)
    let columnCode ← indexCode (← columnValue)
    return ⟨layout.element,
      rowCode ++ push .int :: columnCode ++ [.instr (.mov .x1 .x0), popX .x0]
        ++ constant .x2 (BitVec.ofNat 64 columns)
        ++ [.instr (.mul .x0 .x0 .x2), .instr (.add .x0 .x0 .x1)]
        ++ loadAt layout.element layout.base⟩

def enumCase (name : String) (cases : List String) : Expr → Except LowerError ValueCode
  | .str case =>
    if cases.contains case then .ok ⟨.string, [.address .x0 (Escape.bytes case)]⟩
    else .error (.unsupported (.unknownCase case name))
  | _ => .error (.unsupported (.computedCase name))

def tupleElement (elements : List (Slot × Scalar)) (name : String) :
    Expr → Except LowerError ValueCode
  | .int i =>
    match if 0 ≤ i.toInt then elements[i.toInt.toNat]? else none with
    | some (slot, kind) => .ok ⟨kind, [load kind slot]⟩
    | none => .error (.unsupported (.tupleRange i name))
  | _ => .error (.unsupported (.computedTupleIndex name))

def dictElement (fields : List Field) (name : String) : Expr → Except LowerError ValueCode
  | .str key =>
    match Shape.field? fields key with
    | some ⟨_, slot, .scalar kind⟩ => .ok ⟨kind, [load kind slot]⟩
    | some ⟨_, _, .array ..⟩ => .error (.unsupported (.fieldAsValue key name))
    | none => .error (.unsupported (.unknownKey key name))
  | _ => .error (.unsupported (.computedKey name))

/-- An element of a variable, or a case of an enum. -/
def elementOf (s : Scope) (name : String) (position : Expr)
    (value : Except LowerError ValueCode) : Except LowerError ValueCode :=
  match s.shape? name with
  | none =>
    match s.enums.get? name with
    | some cases => enumCase name cases position
    | none => .error (.unsupported (.unknownVariable name))
  | some (_, .array layout) =>
    if layout.inner.isSome then .error (.unsupported (.rowAsValue name))
    else element (flatView layout) position value
  | some (_, .tuple elements) => tupleElement elements name position
  | some (_, .dict fields) => dictElement fields name position
  | some (_, shape) => .error (.unsupported (.indexedShape shape name))

/-- An element of an element of a variable. -/
def elementOfElement (s : Scope) (name : String) (row column : Expr)
    (rowValue columnValue : Except LowerError ValueCode) : Except LowerError ValueCode :=
  match s.shape? name with
  | some (_, .array layout) =>
    match layout.inner with
    | some columns => cell layout columns row column rowValue columnValue
    | none => .error (.unsupported .indexedElement)
  | some (_, .dict _) => do
    match ← arrayView s name row with
    | some view => element view column columnValue
    | none => .error (.unsupported .indexedElement)
  | _ => .error (.unsupported .indexedElement)

/-! ## Calls -/

/-- The function that a call with that many arguments goes to. -/
def callee (s : Scope) (depth : Nat) (name : String) (count : Nat) :
    Except LowerError Callee :=
  match s.functions.get? name with
  | none => .error (.unsupported (.unknownFunction name))
  | some f =>
    if Resource.arguments.limit < count then .error (.exhausted .arguments)
    else if count ≠ f.arity then .error (.unsupported (.argumentCount name count f.arity))
    else if Resource.stagingRegisters.limit < depth + count then
      .error (.exhausted .stagingRegisters)
    else .ok f

/-- Moves staged arguments to the registers that pass them. -/
def passArguments (depth count : Nat) : Code :=
  (List.range count).map fun i => .instr (.mov (.argument i) (.staging (depth + i)))

/-! ## Expressions -/

mutual

def expr (s : Scope) (depth : Nat) : Expr → Except LowerError ValueCode
  | .int value => .ok ⟨.int, constant .x0 value.toBitVec⟩
  | .float value => .ok ⟨.float, [.double .d0 value.bits]⟩
  | .bool value => .ok ⟨.bool, constant .x0 (if value then 1 else 0)⟩
  | .str source => .ok ⟨.string, [.address .x0 (Escape.bytes source)]⟩
  | .var name => varValue s name
  | .binary op lhs rhs => do binary op (← expr s depth lhs) (← expr s depth rhs)
  | .unary op operand => do unary op (← expr s depth operand)
  | .call name args => do
    let f ← callee s depth name args.length
    let code ← arguments s depth name args
    return ⟨.int, code ++ passArguments depth args.length ++ [.call f.entry]⟩
  | .index (.var name) position => elementOf s name position (expr s depth position)
  | .index (.index (.var name) row) column =>
    elementOfElement s name row column (expr s depth row) (expr s depth column)
  | .index (.index ..) _ => .error (.unsupported .indexedElement)
  | .index target _ => .error (.unsupported (.indexedExpr target.kind))
  | .nil => .error (.unsupported .nil)
  | .input _ => .error (.unsupported .input)
  | .interpolation _ => .error (.unsupported .interpolation)
  | .array items => .error (.unsupported (.literalAsValue (Expr.array items).kind))
  | .tuple items => .error (.unsupported (.literalAsValue (Expr.tuple items).kind))
  | .dict entries => .error (.unsupported (.literalAsValue (Expr.dict entries).kind))

/-- Computes arguments from left to right and stages each. All must be integers. -/
def arguments (s : Scope) (depth : Nat) (name : String) : List Expr → Except LowerError Code
  | [] => .ok []
  | arg :: rest => do
    let value ← expr s depth arg
    if value.kind ≠ .int then
      .error (.unsupported (.argumentKind value.kind name))
    else
      return value.code ++ .instr (.mov (.staging depth) .x0)
        :: (← arguments s (depth + 1) name rest)

end

end Armature.Lower

namespace Armature.Lowering

/-- The code of an expression at the start of a statement, where nothing is staged. -/
def value (e : Expr) : Lowering Lower.ValueCode := fun s => do return (← Lower.expr s 0 e, s)

end Armature.Lowering
