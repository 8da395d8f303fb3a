import Armature.Asm.Image
import Armature.Lower.Session
import Armature.Lower.Stmt

/-!
# Lowering programs

The code of a program has a body for each function, in the order in which their names first occur,
and then the body of the statements outside functions, where execution starts. Functions and the
enums outside functions are known everywhere.
-/

namespace Armature.Lower

open A64 (Instr XReg)
open Asm (Code Label LabelTable Listing)

/-! ## Frames of running code -/

def savePair (pair : XReg × XReg) : Instr := .pushPair pair.1 pair.2 .sp (-16)

def restorePair (pair : XReg × XReg) : Instr := .popPair pair.1 pair.2 .sp 16

/-- Saves registers and makes room for the slots. -/
def prologue : Code :=
  let instrs : List Instr := savePair (.x29, .x30) :: .addImm .x29 .sp 0
    :: XReg.savedPairs.map savePair
    ++ [.subImm .sp .sp (BitVec.ofNat 16 Frame.localBytes), .addImm .frameBase .sp 0]
  instrs.map .instr

/-- Undoes the prologue and returns. -/
def epilogue : Code :=
  let instrs : List Instr := .addImm .sp .frameBase (BitVec.ofNat 16 Frame.localBytes)
    :: XReg.savedPairs.reverse.map restorePair ++ [restorePair (.x29, .x30), .ret]
  instrs.map .instr

/-! ## Declarations -/

/-- The functions and enums of a program. -/
structure Declared where
  functions : Bindings (Label × Function)
  enums : Bindings (List String)
  labels : LabelTable
  code : Code

namespace Declared

def none : Declared := ⟨[], [], .empty, []⟩

/-- A later function of a name replaces the earlier one and keeps its place. -/
def function (d : Declared) (name : String) (f : Function) : Declared :=
  match d.functions.get? name with
  | some (label, _) => { d with functions := d.functions.set name (label, f) }
  | .none =>
    let (label, labels) := d.labels.create .function
    { d with functions := d.functions.set name (label, f), labels }

def stmt (d : Declared) : Stmt → Except LowerError Declared
  | .func name params body =>
    if Resource.parameters.limit < params.length then .error (.exhausted .parameters)
    else .ok (d.function name ⟨params, body⟩)
  | .enum name cases =>
    .ok { d with
      enums := d.enums.set name cases
      code := d.code ++ cases.map fun case => .reserve (Escape.bytes case) }
  | _ => .ok d

def ofStatements (statements : List Stmt) : Except LowerError Declared :=
  statements.foldlM stmt none

/-- The session before the first body. -/
def session (d : Declared) : Session where
  functions := d.functions.map fun (name, label, f) => (name, ⟨label, f.params.length⟩)
  enums := d.enums
  labels := d.labels
  current := .none

/-- The names and bodies of the functions. -/
def bodies (d : Declared) : List (String × Function) :=
  d.functions.map fun (name, _, f) => (name, f)

end Declared

/-! ## Bodies -/

/-- Stores the arguments, which arrive in registers from number `i` on, in slots. -/
def parameters : Nat → List String → Lowering Code
  | _, [] => return []
  | i, param :: rest => do
    let slot ← Lowering.take (·.assign param (.scalar .int))
    return storeX (.argument i) slot :: (← parameters (i + 1) rest)

/-- A function that ends without a return statement returns zero. -/
def function (name : String) (f : Function) : SessionM Code := do
  let callee ← SessionM.declared name
  SessionM.openFrame true
  let params ← SessionM.inFrame (parameters 0 f.params)
  let body ← SessionM.inFrame (block f.body)
  let frame ← SessionM.closeFrame
  return .mark callee.entry :: prologue ++ params ++ body ++ constant .x0 0
    ++ .mark frame.done :: epilogue

def functions : List (String × Function) → SessionM Code
  | [] => return []
  | (name, f) :: rest => return (← function name f) ++ (← functions rest)

def isFunction : Stmt → Bool
  | .func .. => true
  | _ => false

/-- The statements outside functions, after which the program exits. -/
def mainBody (statements : List Stmt) : SessionM Code := do
  SessionM.openFrame false
  let body ← SessionM.inFrame (block (statements.filter fun s => !isFunction s))
  let frame ← SessionM.closeFrame
  return .entry :: prologue ++ body ++ constant .x0 0 ++ .callImport .exit
    :: .mark frame.done :: epilogue

end Armature.Lower

namespace Armature

open Lower in
/-- The code of a program. -/
def Program.lower (p : Program) : Except LowerError Asm.Listing := do
  let d ← Declared.ofStatements p.statements
  let bodies : SessionM Asm.Code := do
    return (← functions d.bodies) ++ (← mainBody p.statements)
  let (code, s) ← bodies d.session
  return ⟨s.labels, d.code ++ code⟩

end Armature
