import Armature.Bytes
import Armature.Text.Hex

/-!
# Defects

What can go wrong while code is generated that is no fault of the program: in lowering, in assembly
code, or in an image. Code that comes from lowering a program can only be too long for its branches.
-/

namespace Armature.Asm

inductive Defect where
  | noFrame
  | functionUndeclared (name : String)
  | notArithmetic (operator : String)
  | notComparison (operator : String)
  | notComposite (shape : String)
  | labelUnknown (id : Nat)
  | labelTwice (name : String)
  | labelUndefined (name : String)
  | siteOutside (site : Nat)
  | notABranch (word : Word) (site : Nat)
  | outOfReach (label : String) (site : Nat) (displacement reach : Int)
  | entryMissing
  | constantUnknown (name : String)
  | malformedAddress (site : Nat)
  | commandsOverflow
deriving DecidableEq

namespace Defect

def message : Defect → String
  | noFrame => "no frame is open"
  | functionUndeclared name => "function `" ++ name ++ "` was not declared"
  | notArithmetic operator => "`" ++ operator ++ "` lowered as arithmetic"
  | notComparison operator => "`" ++ operator ++ "` lowered as a comparison"
  | notComposite shape => shape ++ " printed as a composite"
  | labelUnknown id => "unknown label id " ++ toString id
  | labelTwice name => "label " ++ name ++ " defined twice"
  | labelUndefined name => "label " ++ name ++ " referenced but never defined"
  | siteOutside site => "branch site " ++ hexText 1 site ++ " outside the code buffer"
  | notABranch word site =>
    "instruction " ++ hexText 8 word.toNat ++ " at " ++ hexText 1 site ++ " is not a branch"
  | outOfReach label site displacement reach =>
    "branch to " ++ label ++ " at " ++ hexText 1 site ++ " is " ++ toString displacement
      ++ " bytes away, beyond the " ++ toString reach ++ " byte reach"
  | entryMissing => "entry frame was never emitted"
  | constantUnknown name => "data label " ++ name ++ " was never interned"
  | malformedAddress site => "malformed address computation at " ++ hexText 1 site
  | commandsOverflow => "load commands overflow the first page"

end Defect

end Armature.Asm
