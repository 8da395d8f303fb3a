import Armature.A64.Instr

/-!
# Patching words

An instruction whose operand is not known yet is emitted with a zero in its place. Patching fills
the operand in and leaves all other bits of the word.
-/

namespace Armature.A64

/-- How a branch holds its displacement, which counts words. -/
inductive BranchForm where
  /-- 26 bits at the low end. -/
  | imm26
  /-- 19 bits above the low five. -/
  | imm19
deriving DecidableEq

/-- The largest displacement in bytes. The smallest is four below its negative. -/
def BranchForm.reach : BranchForm → Int
  | imm26 => 0x7FFFFFC
  | imm19 => 0xFFFFC

/-- The form of a word that is a branch. -/
def branchForm? (w : Word) : Option BranchForm :=
  if w &&& 0x7C000000 = 0x14000000 then some .imm26
  else if w &&& 0xFF000010 = 0x54000000 ∨ w &&& 0x7E000000 = 0x34000000 then some .imm19
  else none

/-- Sets the displacement of a branch, if it is a whole number of words and within reach. -/
def patchBranch (w : Word) (offset : Int) : Option Word := do
  let form ← branchForm? w
  if offset % 4 ≠ 0 ∨ form.reach < offset ∨ offset < -form.reach - 4 then
    none
  else
    let words := BitVec.ofInt 32 (offset / 4)
    match form with
    | .imm26 => some ((w &&& ~~~0x03FFFFFF) ||| (words &&& 0x03FFFFFF))
    | .imm19 => some ((w &&& ~~~(0x7FFFF <<< 5 : Word)) ||| ((words &&& 0x7FFFF) <<< 5))

/-- Sets the page count of an `adrp`. -/
def patchAdrp (w : Word) (pages : Int) : Option Word :=
  if w &&& 0x9F000000 ≠ 0x90000000 ∨ pages < -0x100000 ∨ 0x100000 ≤ pages then none
  else some (0x90000000 ||| pageField (BitVec.ofInt 32 pages) ||| (w &&& 0x1F))

/-- Sets the 12-bit immediate of an addition, or of a load or store in units of its size. -/
def patchImm12 (w : Word) (imm : Nat) : Option Word :=
  if 0xFFF < imm then none
  else some ((w &&& ~~~(0xFFF <<< 10 : Word)) ||| (BitVec.ofNat 32 imm <<< 10))

end Armature.A64
