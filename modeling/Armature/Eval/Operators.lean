import Armature.Eval.Error

/-!
# Operators on values

Integers are 64 bits wide and wrap. A division by zero gives zero, and its remainder is the
dividend. Two numbers of different kinds are both taken as doubles; a boolean counts as 0 or 1.
-/

namespace Armature.Value

/-- A value as a number. -/
inductive Number where
  | int (value : Int64)
  | float (value : Double)

def Number.toDouble : Number → Double
  | int i => .ofInt i.toInt
  | float x => x

def number? : Value → Option Number
  | int i => some (.int i)
  | bool b => some (.int (if b then 1 else 0))
  | float x => some (.float x)
  | _ => none

def intOp : BinaryOp → Int64 → Int64 → Value
  | .add, a, b => int (a + b)
  | .sub, a, b => int (a - b)
  | .mul, a, b => int (a * b)
  | .div, a, b => int (a / b)
  | .mod, a, b => int (a % b)
  | .eq, a, b => bool (a == b)
  | .ne, a, b => bool (a != b)
  | .lt, a, b => bool (a < b)
  | .gt, a, b => bool (b < a)
  | .le, a, b => bool (a ≤ b)
  | .ge, a, b => bool (b ≤ a)
  | .and, a, b => bool (a != 0 && b != 0)
  | .or, a, b => bool (a != 0 || b != 0)

/-- Nothing but `!=` holds between two numbers of which one is not a number. -/
def floatOp : BinaryOp → Double → Double → Value
  | .add, a, b => float (a.add b)
  | .sub, a, b => float (a.sub b)
  | .mul, a, b => float (a.mul b)
  | .div, a, b => float (a.div b)
  | .mod, a, b => float (a.mod b)
  | .eq, a, b => bool (a.compare? b == some .eq)
  | .ne, a, b => bool (a.compare? b != some .eq)
  | .lt, a, b => bool (a.compare? b == some .lt)
  | .gt, a, b => bool (a.compare? b == some .gt)
  | .le, a, b => bool (a.compare? b == some .lt || a.compare? b == some .eq)
  | .ge, a, b => bool (a.compare? b == some .gt || a.compare? b == some .eq)
  | .and, a, b => bool (!a.isZero && !b.isZero)
  | .or, a, b => bool (!a.isZero || !b.isZero)

def stringOp (op : BinaryOp) (a b : String) : Except RuntimeError Value :=
  match op with
  | .eq => .ok (bool (a == b))
  | .ne => .ok (bool (a != b))
  | .add => .ok (str (a ++ b))
  | op => .error (.stringOperands op)

def numberOp (op : BinaryOp) : Number → Number → Value
  | .int a, .int b => intOp op a b
  | a, b => floatOp op a.toDouble b.toDouble

def binary (op : BinaryOp) (lhs rhs : Value) : Except RuntimeError Value :=
  match op, lhs, rhs with
  | .and, lhs, rhs => .ok (bool (lhs.truthy && rhs.truthy))
  | .or, lhs, rhs => .ok (bool (lhs.truthy || rhs.truthy))
  | op, str a, str b => stringOp op a b
  | op, lhs, rhs =>
    match lhs.number?, rhs.number? with
    | some a, some b => .ok (numberOp op a b)
    | _, _ => .error (.operands op lhs.kind rhs.kind)

def unary : UnaryOp → Value → Except RuntimeError Value
  | .not, v => .ok (bool !v.truthy)
  | .neg, v =>
    match v.number? with
    | some (.int i) => .ok (int (-i))
    | some (.float x) => .ok (float x.neg)
    | none => .error (.negation v.kind)

/-- The item at a position that counts from zero. -/
def itemAt (items : List Value) (i : Int64) : Except RuntimeError Value :=
  match if i < 0 then none else items[i.toInt.toNat]? with
  | some v => .ok v
  | none => .error (.outOfRange i items.length)

def at? (target position : Value) : Except RuntimeError Value :=
  match target, position with
  | array items, int i | tuple items, int i => itemAt items i
  | dict fields, str key =>
    match Bindings.get? fields key with
    | some v => .ok v
    | none => .error (.missingKey key)
  | enum name cases, str case =>
    if case ∈ cases then .ok (str case) else .error (.missingCase name case)
  | target, position => .error (.indexing target.kind position.kind)

/-- What a loop over a collection visits: items, keys or characters. -/
def elements? : Value → Except RuntimeError (List Value)
  | array items | tuple items => .ok items
  | dict fields => .ok (fields.map fun field => str field.1)
  | str s => .ok (s.toList.map fun c => str (String.singleton c))
  | v => .error (.iteration v.kind)

end Armature.Value
