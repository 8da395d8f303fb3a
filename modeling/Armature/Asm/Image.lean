import Armature.Asm.Line
import Armature.Asm.Pool

/-!
# Images

Assembling turns lines into words, gathers the constants, and resolves the branches. Uses of
constants and imports stay open until the addresses are known: each is an `adrp` with an instruction
after it, both with a zero operand.
-/

namespace Armature.Asm

open A64 (Instr XReg)

/-- What an open address is that of. -/
inductive Target where
  | constant (c : Constant)
  | imported (f : Import)
deriving DecidableEq

/-- The `adrp` at byte offset `site`, and the instruction after it, form the address of a target. -/
structure Reference where
  site : Nat
  target : Target
deriving DecidableEq

structure Image where
  code : Buffer
  /-- Where execution starts. -/
  entry : Nat
  constants : Constants
  references : Array Reference

/-- The state of the assembler. -/
structure Assembly where
  code : Buffer
  labels : LabelTable
  pool : Pool
  references : Array Reference
  entry : Option Nat

namespace Assembly

def start (labels : LabelTable) : Assembly := ⟨#[], labels, .empty, #[], none⟩

def emit (a : Assembly) (i : Instr) : Assembly := { a with code := a.code.pushWord i.encode }

/-- A branch whose displacement is filled in later. -/
def branch (a : Assembly) (label : Label) (i : Instr) : Assembly :=
  { a with labels := a.labels.reference a.code.size label }.emit i

def refer (a : Assembly) (target : Target) : Assembly :=
  { a with references := a.references.push ⟨a.code.size, target⟩ }

def line (a : Assembly) : Line → Except Defect Assembly
  | .instr i => .ok (a.emit i)
  | .mark label => do return { a with labels := ← a.labels.define label a.code.size }
  | .jump label => .ok (a.branch label (.b 0))
  | .jumpIf cond label => .ok (a.branch label (.bCond cond 0))
  | .jumpIfZero reg label => .ok (a.branch label (.cbz reg 0))
  | .call label => .ok (a.branch label (.bl 0))
  | .address reg bytes =>
    let (n, pool) := a.pool.internString bytes
    .ok ((({ a with pool }.refer (.constant (.string n))).emit (.adrp reg 0)).emit
      (.addImm reg reg 0))
  | .double reg bits =>
    let (n, pool) := a.pool.internDouble bits
    .ok ((({ a with pool }.refer (.constant (.double n))).emit (.adrp .x16 0)).emit
      (.ldrD reg .x16 0))
  | .callImport f =>
    .ok ((((a.refer (.imported f)).emit (.adrp .x16 0)).emit (.ldrX .x16 .x16 0)).emit (.blr .x16))
  | .reserve bytes => .ok { a with pool := (a.pool.internString bytes).2 }
  | .entry => .ok { a with entry := some a.code.size }

def lines (a : Assembly) : Code → Except Defect Assembly
  | [] => .ok a
  | l :: rest => do lines (← a.line l) rest

/-- Resolves the branches. The code must have an entry. -/
def finish (a : Assembly) : Except Defect Image := do
  let (code, resolved) := a.labels.resolve a.code
  resolved
  match a.entry with
  | none => .error .entryMissing
  | some entry => return ⟨code, entry, a.pool.freeze, a.references⟩

end Assembly

/-- Code whose labels are those of the table. -/
structure Listing where
  labels : LabelTable
  code : Code

def Listing.assemble (l : Listing) : Except Defect Image := do
  ((← (Assembly.start l.labels).lines l.code)).finish

end Armature.Asm
