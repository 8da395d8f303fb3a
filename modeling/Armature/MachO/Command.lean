import Armature.Bytes

/-!
# Load commands

An executable starts with a header and a list of load commands. They say which parts of the file go
where in memory, what is loaded with it, and where execution starts.
-/

namespace Armature.MachO

/-- Segments start at multiples of this, in the file and in memory. -/
def pageSize : Nat := 0x4000

/-- Where the file starts in memory. -/
def imageBase : Nat := 0x100000000

/-- A name in 16 bytes. A longer one is cut. -/
def name16 (name : String) : Bytes := Bytes.padTo 16 ((Bytes.ofText name).take 16)

structure Section where
  segment : String
  name : String
  addr : Nat
  size : Nat
  offset : Nat
  /-- The logarithm of the alignment. -/
  align : Nat
  flags : Nat

def Section.bytes (s : Section) : Bytes :=
  name16 s.name ++ name16 s.segment ++ Bytes.le64 s.addr ++ Bytes.le64 s.size
    ++ Bytes.le32 s.offset ++ Bytes.le32 s.align ++ Bytes.zeros 8 ++ Bytes.le32 s.flags
    ++ Bytes.zeros 12

structure Segment where
  name : String
  addr : Nat
  size : Nat
  fileOffset : Nat
  fileSize : Nat
  protection : BitVec 32
  flags : Nat
  sections : List Section

namespace Protection

def none : BitVec 32 := 0
def read : BitVec 32 := 1
def readWrite : BitVec 32 := 3
def readExecute : BitVec 32 := 5

end Protection

inductive Command where
  | segment (s : Segment)
  /-- Data for the dynamic linker. The code says which. -/
  | linkerData (code offset size : Nat)
  /-- An empty symbol table. -/
  | symbols (offset : Nat)
  | dynamicSymbols
  | dynamicLinker
  | buildVersion
  | entryPoint (offset stackSize : Nat)
  | systemLibrary

namespace Command

def chainedFixupsCode : Nat := 0x80000034
def exportsCode : Nat := 0x80000033

def code : Command → Nat
  | segment _ => 0x19
  | linkerData code _ _ => code
  | symbols _ => 0x2
  | dynamicSymbols => 0xB
  | dynamicLinker => 0xE
  | buildVersion => 0x32
  | entryPoint .. => 0x80000028
  | systemLibrary => 0xC

/-! The sizes that commands give for themselves. -/

def segmentSize (s : Segment) : Nat := 72 + 80 * s.sections.length
def linkerDataSize : Nat := 16
def symbolsSize : Nat := 24
def dynamicSymbolsSize : Nat := 80
def dynamicLinkerSize : Nat := 32
def buildVersionSize : Nat := 24
def entryPointSize : Nat := 24
def systemLibrarySize : Nat := 56

def size : Command → Nat
  | segment s => segmentSize s
  | linkerData .. => linkerDataSize
  | symbols _ => symbolsSize
  | dynamicSymbols => dynamicSymbolsSize
  | dynamicLinker => dynamicLinkerSize
  | buildVersion => buildVersionSize
  | entryPoint .. => entryPointSize
  | systemLibrary => systemLibrarySize

/-- macOS 11.0. -/
def systemVersion : Nat := 0xB0000

/-- Version 1.0.0 of a library. -/
def libraryVersion : Nat := 0x10000

/-- Numbers and a path, filled up with zeros to the end of the command. -/
def pathBody (size : Nat) (fields : List Nat) (path : String) : Bytes :=
  Bytes.padTo (size - 8) (fields.flatMap Bytes.le32 ++ Bytes.ofText path)

/-- What follows the code and the size. -/
def body : Command → Bytes
  | segment s =>
    name16 s.name ++ Bytes.le64 s.addr ++ Bytes.le64 s.size ++ Bytes.le64 s.fileOffset
      ++ Bytes.le64 s.fileSize ++ Bytes.le32 s.protection.toNat ++ Bytes.le32 s.protection.toNat
      ++ Bytes.le32 s.sections.length ++ Bytes.le32 s.flags ++ s.sections.flatMap Section.bytes
  | linkerData _ offset size => Bytes.le32 offset ++ Bytes.le32 size
  | symbols offset => Bytes.le32 offset ++ Bytes.le32 0 ++ Bytes.le32 offset ++ Bytes.le32 0
  | dynamicSymbols => Bytes.zeros 72
  | dynamicLinker => pathBody dynamicLinkerSize [12] "/usr/lib/dyld"
  | buildVersion =>
    Bytes.le32 1 ++ Bytes.le32 systemVersion ++ Bytes.le32 systemVersion ++ Bytes.le32 0
  | entryPoint offset stackSize => Bytes.le64 offset ++ Bytes.le64 stackSize
  | systemLibrary =>
    pathBody systemLibrarySize [24, 0, libraryVersion, libraryVersion] "/usr/lib/libSystem.B.dylib"

def bytes (c : Command) : Bytes := Bytes.le32 c.code ++ Bytes.le32 c.size ++ c.body

end Command

def headerSize : Nat := 32

/-- The header of a file with `count` load commands in `size` bytes. -/
def header (count size : Nat) : Bytes :=
  let cpuArm64 := 0x100000C
  let executable := 2
  let noUndefined := 0x1
  let dynamicLinking := 0x4
  let twoLevelNames := 0x80
  let positionIndependent := 0x200000
  Bytes.le32 0xFEEDFACF ++ Bytes.le32 cpuArm64 ++ Bytes.le32 0 ++ Bytes.le32 executable
    ++ Bytes.le32 count ++ Bytes.le32 size
    ++ Bytes.le32 (noUndefined + dynamicLinking + twoLevelNames + positionIndependent)
    ++ Bytes.le32 0

end Armature.MachO
