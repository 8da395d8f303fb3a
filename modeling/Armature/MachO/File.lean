import Armature.MachO.Binding
import Armature.MachO.Placement

/-!
# Executable files

A file has four segments: an empty one that catches null pointers, the code with its constants, the
pointers to imports, and the data for the dynamic linker. There is no section without contents.
-/

namespace Armature.MachO

open Asm (Defect Image)

/-- Code and constants. -/
def textSections (p : Placement) : List Section :=
  let pureInstructions := 0x80000000
  let someInstructions := 0x400
  let stringLiterals := 0x2
  let code : Section := ⟨"__TEXT", "__text", imageBase + Placement.code, p.codeSize,
    Placement.code, 2, pureInstructions + someInstructions⟩
  let strings : Section :=
    ⟨"__TEXT", "__cstring", imageBase + p.strings, p.stringsSize, p.strings, 0, stringLiterals⟩
  let doubles : Section :=
    ⟨"__TEXT", "__const", imageBase + p.doubles, p.doublesSize, p.doubles, 3, 0⟩
  code :: (if p.stringsSize = 0 then [] else [strings])
    ++ (if p.doublesSize = 0 then [] else [doubles])

/-- A list of exported symbols that is empty. -/
def exports : Bytes := Bytes.zeros 8

def segments (p : Placement) : List Segment :=
  let readOnly := 0x10
  let symbolPointers := 0x6
  let linkerSize := (chainedFixups p.pointers).length + exports.length
  [⟨"__PAGEZERO", 0, imageBase, 0, 0, Protection.none, 0, []⟩,
    ⟨"__TEXT", imageBase, p.pointers, 0, p.pointers, Protection.readExecute, 0, textSections p⟩,
    ⟨"__DATA_CONST", imageBase + p.pointers, pageSize, p.pointers, pageSize, Protection.readWrite,
      readOnly, [⟨"__DATA_CONST", "__got", imageBase + p.pointers, importPointers.length,
        p.pointers, 3, symbolPointers⟩]⟩,
    ⟨"__LINKEDIT", imageBase + p.linkerData, alignUp linkerSize pageSize, p.linkerData, linkerSize,
      Protection.read, 0, []⟩]

/-- The load commands of a file whose execution starts at `entry` in the code. -/
def commands (p : Placement) (entry : Nat) : List Command :=
  let fixupsSize := (chainedFixups p.pointers).length
  (segments p).map .segment
    ++ [.linkerData Command.chainedFixupsCode p.linkerData fixupsSize,
      .linkerData Command.exportsCode (p.linkerData + fixupsSize) exports.length,
      .symbols (p.linkerData + fixupsSize + exports.length), .dynamicSymbols, .dynamicLinker,
      .buildVersion, .entryPoint (Placement.code + entry) 0, .systemLibrary]

/-- The segments and eight other commands. -/
def commandCount (p : Placement) : Nat := (segments p).length + 8

def commandsSize (p : Placement) : Nat :=
  (segments p).foldr (Command.segmentSize · + ·) 0 + 2 * Command.linkerDataSize + Command.symbolsSize
    + Command.dynamicSymbolsSize + Command.dynamicLinkerSize + Command.buildVersionSize
    + Command.entryPointSize + Command.systemLibrarySize

def headerAndCommands (p : Placement) (entry : Nat) : Bytes :=
  header (commandCount p) (commandsSize p) ++ (commands p entry).flatMap Command.bytes

/-- The bytes of a file with the code of an image, once its references are filled in. -/
def contents (image : Image) (code : Buffer) : Bytes :=
  let p := Placement.ofImage image
  let start := Bytes.padTo Placement.code (headerAndCommands p image.entry)
  let codeAndStrings := code.toList ++ image.constants.strings
  let text := Bytes.padTo (p.doubles - Placement.code) codeAndStrings ++ image.constants.doubles
  start ++ Bytes.padTo (p.pointers - Placement.code) text ++ Bytes.padTo pageSize importPointers
    ++ chainedFixups p.pointers ++ exports

/-- The bytes of an executable file. The commands must fit before the code. -/
def file (image : Image) : Except Defect Bytes := do
  let p := Placement.ofImage image
  let code ← resolveReferences p image image.references.toList image.code
  if Placement.code < headerSize + commandsSize p then
    .error .commandsOverflow
  else
    return contents image code

end Armature.MachO
