import Armature.Asm.Line
import Armature.MachO.Command

/-!
# Binding imports

The dynamic linker replaces pointers in the file by the addresses of imported functions. The
pointers form a chain; each holds the number of its import and the distance to the next one. A table
elsewhere in the file names the imports and says where the chain starts.
-/

namespace Armature.MachO

open Asm (Import)

/-- The pointers to the imports, eight bytes each. The distance counts units of four bytes, and the
last pointer has none. -/
def importPointers : Bytes :=
  Import.all.flatMap fun f =>
    let next := if f.index + 1 < Import.all.length then 2 else 0
    Bytes.le64 (f.index + next <<< 51 + 1 <<< 63)

/-- Each name with a zero byte after it. -/
def importNames : Bytes := Import.all.flatMap fun f => Bytes.ofText f.symbol ++ [0]

/-- Where the name of each import starts. -/
def nameOffsets (start : Nat) : List Import → List Nat
  | [] => []
  | f :: rest => start :: nameOffsets (start + (Bytes.ofText f.symbol).length + 1) rest

/-- The first library that is loaded, and the place of the name. -/
def importEntries : Bytes :=
  (nameOffsets 0 Import.all).flatMap fun offset => Bytes.le32 (1 + offset <<< 9)

/-- The table for the dynamic linker. The pointers are in the third of four segments, which starts
at `offset`. -/
def chainedFixups (offset : Nat) : Bytes :=
  let starts := 32
  let segmentInfo := 24
  let segmentInfoSize := 24
  let imports := starts + segmentInfo + segmentInfoSize
  let names := imports + importEntries.length
  let header := Bytes.le32 0 ++ Bytes.le32 starts ++ Bytes.le32 imports ++ Bytes.le32 names
    ++ Bytes.le32 Import.all.length ++ Bytes.le32 1 ++ Bytes.le32 0
  let segments := Bytes.le32 4 ++ Bytes.le32 0 ++ Bytes.le32 0 ++ Bytes.le32 segmentInfo
    ++ Bytes.le32 0
  let info := Bytes.le32 segmentInfoSize ++ Bytes.le16 pageSize ++ Bytes.le16 2
    ++ Bytes.le64 offset ++ Bytes.le32 0 ++ Bytes.le16 1 ++ Bytes.le16 0
  let table := header.padTo starts ++ segments.padTo segmentInfo ++ info ++ importEntries
    ++ importNames
  table.padTo ((table.length + 7) / 8 * 8)

end Armature.MachO
