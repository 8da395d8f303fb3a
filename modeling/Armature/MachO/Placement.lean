import Armature.Asm.Image
import Armature.MachO.Command

/-!
# Placement

Where the parts of an image lie in the file. Memory has the same layout, from the image base on. Now
that addresses are known, the references of the code are filled in.
-/

namespace Armature.MachO

open Asm (Constant Defect Image Reference Target)

def alignUp (n alignment : Nat) : Nat := (n + alignment - 1) / alignment * alignment

/-- The sizes of code, strings and doubles decide where everything is. -/
structure Placement where
  codeSize : Nat
  stringsSize : Nat
  doublesSize : Nat

namespace Placement

def ofImage (image : Image) : Placement :=
  ⟨image.code.size, image.constants.strings.length, image.constants.doubles.length⟩

def code : Nat := pageSize

def strings (p : Placement) : Nat := code + p.codeSize

def doubles (p : Placement) : Nat := alignUp (p.strings + p.stringsSize) 8

/-- The pointers to imports, and the end of the code segment. -/
def pointers (p : Placement) : Nat := alignUp (p.doubles + p.doublesSize) pageSize

/-- The data for the dynamic linker. -/
def linkerData (p : Placement) : Nat := p.pointers + pageSize

/-- The address of a string. Sums have 64 bits, which only an offset beyond the strings can exceed. -/
def stringAddress (p : Placement) (offset : Nat) : Nat :=
  let address := imageBase + p.strings + offset
  if offset ≤ p.stringsSize then address else address % (1 <<< 64)

/-- The address of what a reference refers to. -/
def address (p : Placement) (image : Image) : Target → Except Defect Nat
  | .imported f => .ok (imageBase + p.pointers + 8 * f.index)
  | .constant c =>
    match image.constants.offset? c with
    | none => .error (.constantUnknown c.name)
    | some offset =>
      match c with
      | .string _ => .ok (p.stringAddress offset)
      | .double _ => .ok (imageBase + p.doubles + offset)

end Placement

/-- An addition takes the offset in its page in bytes, a load in units of eight. -/
def pageOffset (target : Target) (address : Nat) : Nat :=
  match target with
  | .constant (.string _) => address % 4096
  | .constant (.double _) | .imported _ => address % 4096 / 8

/-- The two words that form the address of a reference. -/
def addressWords (code : Buffer) (r : Reference) (address : Nat) : Option (Word × Word) := do
  let pc := imageBase + Placement.code + r.site
  let first ← A64.patchAdrp (← code.word? r.site) (address / 4096 - pc / 4096 : Int)
  let second ← A64.patchImm12 (← code.word? (r.site + 4)) (pageOffset r.target address)
  return (first, second)

/-- Fills in references one after the other. -/
def resolveReferences (p : Placement) (image : Image) :
    List Reference → Buffer → Except Defect Buffer
  | [], code => .ok code
  | r :: rest, code =>
    match p.address image r.target with
    | .error defect => .error defect
    | .ok address =>
      match addressWords code r address with
      | none => .error (.malformedAddress r.site)
      | some (first, second) =>
        resolveReferences p image rest (code.overwrite r.site (first.bytes ++ second.bytes))

end Armature.MachO
