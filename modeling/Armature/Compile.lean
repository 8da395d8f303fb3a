import Armature.Eval.Error
import Armature.Lower.Program
import Armature.MachO.File
import Armature.Syntax.Json

/-!
# Compiling

A program becomes lines of code, the lines become an image, and the image becomes a file.
-/

namespace Armature

/-- Why a program has no executable. -/
inductive CompileError where
  | unsupported (construct : Construct)
  | exhausted (resource : Resource)
  | internal (defect : Asm.Defect)
deriving DecidableEq

namespace CompileError

def ofLower : LowerError → CompileError
  | .unsupported c => unsupported c
  | .exhausted r => exhausted r
  | .internal d => internal d

def message : CompileError → String
  | unsupported c => "unsupported construct: " ++ c.describe
  | exhausted r => "resource exhausted: more than " ++ toString r.limit ++ " " ++ r.name
  | internal d => "internal error: " ++ d.message

end CompileError

namespace Program

def image (p : Program) : Except CompileError Asm.Image := do
  let listing ← p.lower.mapError .ofLower
  listing.assemble.mapError .internal

/-- The bytes of the executable. -/
def compile (p : Program) : Except CompileError Bytes := do
  (MachO.file (← p.image)).mapError .internal

end Program

end Armature
