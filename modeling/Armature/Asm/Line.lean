import Armature.A64.Instr
import Armature.Asm.Label

/-!
# Lines of assembly code

Code as it is written down before addresses are known: instructions, places that have a label,
branches to labels, and uses of constants, which are named by what they hold.
-/

namespace Armature.Asm

open A64 (Cond DReg Instr XReg)

/-- A function of the system library. -/
inductive Import where
  | printf | exit
deriving DecidableEq

namespace Import

/-- In the order of their pointers in the file. -/
def all : List Import := [.printf, .exit]

def symbol : Import → String
  | printf => "_printf"
  | exit => "_exit"

/-- The number of its pointer. -/
def index : Import → Nat
  | printf => 0
  | exit => 1

end Import

inductive Line where
  | instr (i : Instr)
  /-- The label's place is here. -/
  | mark (label : Label)
  | jump (label : Label)
  | jumpIf (cond : Cond) (label : Label)
  | jumpIfZero (reg : XReg) (label : Label)
  | call (label : Label)
  /-- Loads the address of a string. -/
  | address (reg : XReg) (bytes : Bytes)
  /-- Loads a double. Its address passes through `x16`. -/
  | double (reg : DReg) (bits : UInt64)
  | callImport (f : Import)
  /-- Puts a string among the constants. -/
  | reserve (bytes : Bytes)
  /-- Execution starts here. -/
  | entry

abbrev Code := List Line

end Armature.Asm
