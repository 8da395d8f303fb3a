import Armature.Lower.Decl
import Armature.Lower.Print

/-!
# Lowering statements
-/

namespace Armature.Lower

open Asm (Code Label)

/-- Puts the names of the cases among the constants. A later enum of that name replaces it. -/
def declareEnum (name : String) (cases : List String) : Lowering Code := fun s =>
  .ok (cases.map fun case => .reserve (Escape.bytes case),
    { s with enums := s.enums.set name cases })

/-- Goes to a label if the value counts as false. -/
def jumpIfFalse (e : Expr) (target : Label) : Lowering Code := do
  let value ← Lowering.value e
  return value.code ++ truth value.kind ++ [.jumpIfZero .x0 target]

/-- Goes to a label if the comparison does not hold. -/
def jumpUnlessHolds (op : BinaryOp) (lhs rhs : Expr) (target : Label) : Lowering Code := do
  let left ← Lowering.value lhs
  let right ← Lowering.value rhs
  match comparison op left right with
  | .error e => Lowering.fail e
  | .ok (cond, code) => return code ++ [.jumpIf cond.invert target]

/-- Goes to a label if the condition of a statement is not met. -/
def jumpUnless (target : Label) : Expr → Lowering Code
  | .binary op lhs rhs =>
    if op.isComparison then jumpUnlessHolds op lhs rhs target
    else jumpIfFalse (.binary op lhs rhs) target
  | e => jumpIfFalse e target

/-- The code of an integer. Other kinds are refused. -/
def integer (e : Expr) (otherwise : Scalar → Construct) : Lowering Code := do
  let value ← Lowering.value e
  match value.kind with
  | .int => return value.code
  | kind => Lowering.refuse (otherwise kind)

/-- The end of the range is computed once, before the first round. -/
def loop (var : String) (start stop : Expr) (body : Lowering Code) : Lowering Code := do
  let startCode ← integer start .loopStart
  let counter ← Lowering.take (·.assign var (.scalar .int))
  let stopCode ← integer stop .loopEnd
  let stopSlot ← Lowering.take (·.hidden)
  return startCode ++ store .int counter :: stopCode ++ store .int stopSlot
    :: (← countedLoop counter stopSlot body)

def ret (e : Expr) : Lowering Code := do
  match (← get).returnTo with
  | none => Lowering.refuse .returnOutside
  | some label => return (← integer e .returnKind) ++ [.jump label]

mutual

def stmt : Stmt → Lowering Code
  | .print value => print value
  | .decl name value => declare name value
  | .loop var (.counted start stop) body => loop var start stop (block body)
  | .loop _ (.collection _) _ => Lowering.refuse .collectionLoop
  | .loop _ (.condition _) _ => Lowering.refuse .conditionLoop
  | .cond test thenBody none => do
    let otherwise ← Lowering.newLabel .otherwise
    return (← jumpUnless otherwise test) ++ (← block thenBody) ++ [.mark otherwise]
  | .cond test thenBody (some elseBody) => do
    let otherwise ← Lowering.newLabel .otherwise
    let testCode ← jumpUnless otherwise test
    let thenCode ← block thenBody
    let done ← Lowering.newLabel .endIf
    let elseCode ← block elseBody
    return testCode ++ thenCode ++ [.jump done, .mark otherwise] ++ elseCode ++ [.mark done]
  | .ret value => ret value
  | .enum name cases => declareEnum name cases
  | .expr value => return (← Lowering.value value).code
  | .func name _ _ => Lowering.refuse (.nestedFunction name)
  | .tryCatch _ _ => Lowering.refuse .tryCatch
  | .throw _ => Lowering.refuse .throw

def block : List Stmt → Lowering Code
  | [] => return []
  | s :: rest => return (← stmt s) ++ (← block rest)

end

end Armature.Lower
