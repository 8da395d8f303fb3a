import Armature.Asm.Image
import Armature.Decimal.Printing
import Armature.Proofs.Decode

/-!
# Running an image

A process is an image that has its place in memory, with a stack and the two functions that it
imports. A machine is what its instructions work on.
-/

namespace Armature.A64

/-! ## Flags -/

structure Flags where
  negative : Bool
  zero : Bool
  carry : Bool
  overflow : Bool

namespace Flags

/-- After a comparison of two words. -/
def ofWords (a b : BitVec 64) : Flags := ⟨(a - b).msb, a == b, b.ule a, a.ssubOverflow b⟩

/-- After a comparison of two doubles. -/
def ofOrder : Option Ordering → Flags
  | some .lt => ⟨true, false, false, false⟩
  | some .eq => ⟨false, true, true, false⟩
  | some .gt => ⟨false, false, true, false⟩
  | none => ⟨false, false, true, true⟩

end Flags

def Cond.holds (f : Flags) : Cond → Bool
  | eq => f.zero
  | ne => !f.zero
  | cs => f.carry
  | cc => !f.carry
  | mi => f.negative
  | pl => !f.negative
  | vs => f.overflow
  | vc => !f.overflow
  | hi => f.carry && !f.zero
  | ls => !f.carry || f.zero
  | ge => f.negative == f.overflow
  | lt => f.negative != f.overflow
  | gt => !f.zero && f.negative == f.overflow
  | le => f.zero || f.negative != f.overflow
  | al | nv => true

/-! ## Machines -/

structure Machine where
  /-- Number 31 is the stack pointer. -/
  x : BitVec 5 → BitVec 64
  d : BitVec 3 → Double
  flags : Flags
  /-- The doublewords of the stack by their addresses. -/
  stack : Nat → BitVec 64
  /-- What has been printed. -/
  output : Bytes

namespace Machine

def sp (m : Machine) : BitVec 64 := m.x 31

/-- A register as an operand. -/
def get (m : Machine) (r : XReg) : BitVec 64 := if r.num = 31 then 0 else m.x r.num

/-- Changes a register, the stack pointer too. -/
def put (m : Machine) (r : XReg) (v : BitVec 64) : Machine :=
  { m with x := fun n => if n = r.num then v else m.x n }

/-- Changes a register as the result of an instruction. -/
def set (m : Machine) (r : XReg) (v : BitVec 64) : Machine := if r.num = 31 then m else m.put r v

def getD (m : Machine) (r : DReg) : Double := m.d r.num

def setD (m : Machine) (r : DReg) (v : Double) : Machine :=
  { m with d := fun n => if n = r.num then v else m.d n }

def compare (m : Machine) (flags : Flags) : Machine := { m with flags }

def store (m : Machine) (address : Nat) (v : BitVec 64) : Machine :=
  { m with stack := fun a => if a = address then v else m.stack a }

end Machine

end Armature.A64

namespace Armature

open A64 (DReg Flags Instr Machine XReg)
open Asm (Image Import Target)

/-! ## Processes -/

/-- Two ranges of addresses, each given by its start and its length, have none in common. -/
def Apart (a n b k : Nat) : Prop := a + n ≤ b ∨ b + k ≤ a

/-- Where an image and its stack are in memory. -/
structure Process (image : Image) where
  code : Nat
  strings : Nat
  doubles : Nat
  /-- Where the addresses of the imported functions are. -/
  pointers : Nat
  stackLow : Nat
  stackHigh : Nat
  printf : BitVec 64
  exit : BitVec 64
  code_le : code + image.code.size ≤ 2 ^ 64
  strings_le : strings + image.constants.strings.length ≤ 2 ^ 64
  doubles_le : doubles + image.constants.doubles.length ≤ 2 ^ 64
  pointers_le : pointers + 16 ≤ 2 ^ 64
  stack_le : stackHigh ≤ 2 ^ 64
  doubles_aligned : doubles % 8 = 0
  pointers_aligned : pointers % 8 = 0
  strings_apart : Apart strings image.constants.strings.length stackLow (stackHigh - stackLow)
  doubles_apart : Apart doubles image.constants.doubles.length stackLow (stackHigh - stackLow)
  pointers_apart : Apart pointers 16 stackLow (stackHigh - stackLow)
  constants_apart : Apart pointers 16 doubles image.constants.doubles.length
  printf_apart : Apart printf.toNat 1 code image.code.size
  exit_apart : Apart exit.toNat 1 code image.code.size
  imports_ne : printf ≠ exit

namespace Process

variable {image : Image}

/-- The address of word `k` of the code. -/
def pc (env : Process image) (k : Nat) : BitVec 64 := BitVec.ofNat 64 (env.code + 4 * k)

/-- The instruction at an address. -/
def fetch (env : Process image) (pc : BitVec 64) : Option Instr :=
  if env.code ≤ pc.toNat ∧ (pc.toNat - env.code) % 4 = 0 then
    (image.code.word? (pc.toNat - env.code)).bind A64.decode
  else
    none

/-- The address of what a reference is to. -/
def address? (env : Process image) : Target → Option (BitVec 64)
  | .constant (.string n) =>
    (image.constants.offset? (.string n)).map fun o => BitVec.ofNat 64 (env.strings + o)
  | .constant (.double n) =>
    (image.constants.offset? (.double n)).map fun o => BitVec.ofNat 64 (env.doubles + o)
  | .imported f => some (BitVec.ofNat 64 (env.pointers + 8 * f.index))

/-- What the instruction pair that starts at `pc` is the address of. -/
def target? (env : Process image) (pc : BitVec 64) : Option (BitVec 64) := do
  let reference ← image.references.find? fun r => pc.toNat = env.code + r.site
  env.address? reference.target

/-! ## Memory -/

def onStack (env : Process image) (address : Nat) : Bool :=
  env.stackLow ≤ address ∧ address + 8 ≤ env.stackHigh

def load? (env : Process image) (m : Machine) (address : BitVec 64) : Option (BitVec 64) :=
  let a := address.toNat
  if a % 8 ≠ 0 then
    none
  else if env.onStack a then
    some (m.stack a)
  else if a = env.pointers + 8 * Import.printf.index then
    some env.printf
  else if a = env.pointers + 8 * Import.exit.index then
    some env.exit
  else if env.doubles ≤ a ∧ a + 8 ≤ env.doubles + image.constants.doubles.length then
    some (BitVec.ofNat 64 (Bytes.toNat ((image.constants.doubles.drop (a - env.doubles)).take 8)))
  else
    none

def store? (env : Process image) (m : Machine) (address v : BitVec 64) : Option Machine :=
  if address.toNat % 8 = 0 ∧ env.onStack address.toNat then some (m.store address.toNat v) else none

/-- The address in a register that an access starts from. The stack pointer must be aligned. -/
def base? (m : Machine) (r : XReg) : Option (BitVec 64) :=
  if r.num = 31 ∧ m.sp.toNat % 16 ≠ 0 then none else some (m.x r.num)

/-- The string at an address, up to its zero byte. -/
def string? (env : Process image) (address : BitVec 64) : Option Bytes :=
  let strings := image.constants.strings
  if env.strings ≤ address.toNat ∧ address.toNat < env.strings + strings.length then
    some ((strings.drop (address.toNat - env.strings)).takeWhile (· ≠ 0))
  else
    none

def ofBits (v : BitVec 64) : Double := ⟨UInt64.ofBitVec v⟩

/-! ## Instructions -/

/-- What an instruction does that neither branches nor refers to a constant. -/
def perform? (env : Process image) (m : Machine) : Instr → Option Machine
  | .movz rd imm shift => some (m.set rd (imm.setWidth 64 <<< shift.toNat))
  | .movn rd imm shift => some (m.set rd (~~~(imm.setWidth 64 <<< shift.toNat)))
  | .movk rd imm shift =>
    let cleared := m.get rd &&& ~~~((0xFFFF : BitVec 64) <<< shift.toNat)
    some (m.set rd (cleared ||| imm.setWidth 64 <<< shift.toNat))
  | .addImm rd rn imm => some (m.put rd (m.x rn.num + imm.setWidth 64))
  | .subImm rd rn imm => some (m.put rd (m.x rn.num - imm.setWidth 64))
  | .cmpImm rn imm => some (m.compare (.ofWords (m.x rn.num) (imm.setWidth 64)))
  | .mov rd rm => some (m.set rd (m.get rm))
  | .neg rd rm => some (m.set rd (-m.get rm))
  | .add rd rn rm => some (m.set rd (m.get rn + m.get rm))
  | .sub rd rn rm => some (m.set rd (m.get rn - m.get rm))
  | .mul rd rn rm => some (m.set rd (m.get rn * m.get rm))
  | .sdiv rd rn rm => some (m.set rd ((m.get rn).sdiv (m.get rm)))
  | .msub rd rn rm ra => some (m.set rd (m.get ra - m.get rn * m.get rm))
  | .and rd rn rm => some (m.set rd (m.get rn &&& m.get rm))
  | .orr rd rn rm => some (m.set rd (m.get rn ||| m.get rm))
  | .cmp rn rm => some (m.compare (.ofWords (m.get rn) (m.get rm)))
  | .cset rd cond => some (m.set rd (if cond.holds m.flags then 1 else 0))
  | .csel rd rn rm cond => some (m.set rd (if cond.holds m.flags then m.get rn else m.get rm))
  | .fadd rd rn rm => some (m.setD rd ((m.getD rn).add (m.getD rm)))
  | .fsub rd rn rm => some (m.setD rd ((m.getD rn).sub (m.getD rm)))
  | .fmul rd rn rm => some (m.setD rd ((m.getD rn).mul (m.getD rm)))
  | .fdiv rd rn rm => some (m.setD rd ((m.getD rn).div (m.getD rm)))
  | .fmsub rd rn rm ra => some (m.setD rd ((m.getD rn).neg.mulAdd (m.getD rm) (m.getD ra)))
  | .frintz rd rn => some (m.setD rd (m.getD rn).trunc)
  | .fneg rd rn => some (m.setD rd (m.getD rn).neg)
  | .fmov rd rn => some (m.setD rd (m.getD rn))
  | .fcmp rn rm => some (m.compare (.ofOrder ((m.getD rn).compare? (m.getD rm))))
  | .fcmpZero rn => some (m.compare (.ofOrder ((m.getD rn).compare? (.zero false))))
  | .scvtf rd rn => some (m.setD rd (.ofInt (m.get rn).toInt))
  | .ldrX rt rn offset => do
    return m.set rt (← env.load? m ((← base? m rn) + offset.setWidth 64))
  | .strX rt rn offset => do env.store? m ((← base? m rn) + offset.setWidth 64) (m.get rt)
  | .ldrD rt rn offset => do
    return m.setD rt (ofBits (← env.load? m ((← base? m rn) + offset.setWidth 64)))
  | .strD rt rn offset => do
    env.store? m ((← base? m rn) + offset.setWidth 64) (m.getD rt).bits.toBitVec
  | .ldrXAt rt rn rm => do return m.set rt (← env.load? m ((← base? m rn) + m.get rm <<< 3))
  | .ldrDAt rt rn rm => do
    return m.setD rt (ofBits (← env.load? m ((← base? m rn) + m.get rm <<< 3)))
  | .pushX rt rn offset => do
    let a := (← base? m rn) + offset.signExtend 64
    return (← env.store? m a (m.get rt)).put rn a
  | .popX rt rn offset => do
    let a ← base? m rn
    return (m.put rn (a + offset.signExtend 64)).set rt (← env.load? m a)
  | .pushD rt rn offset => do
    let a := (← base? m rn) + offset.signExtend 64
    return (← env.store? m a (m.getD rt).bits.toBitVec).put rn a
  | .popD rt rn offset => do
    let a ← base? m rn
    return (m.put rn (a + offset.signExtend 64)).setD rt (ofBits (← env.load? m a))
  | .pushPair rt₁ rt₂ rn offset => do
    let a := (← base? m rn) + offset.signExtend 64
    return (← env.store? (← env.store? m a (m.get rt₁)) (a + 8) (m.get rt₂)).put rn a
  | .popPair rt₁ rt₂ rn offset => do
    let a ← base? m rn
    let v₁ ← env.load? m a
    let v₂ ← env.load? m (a + 8)
    return ((m.put rn (a + offset.signExtend 64)).set rt₁ v₁).set rt₂ v₂
  | .adrp .. | .b _ | .bCond .. | .bl _ | .blr _ | .ret | .cbz .. => none

/-- What the instruction at `pc` does, and where the run goes on. An `adrp` whose operand is open
gives the whole address, and the zero operand of the instruction after it adds nothing to that. -/
def execute? (env : Process image) (pc : BitVec 64) (m : Machine) :
    Instr → Option (BitVec 64 × Machine)
  | .b offset => some (pc + offset.signExtend 64, m)
  | .bCond cond offset =>
    some (if cond.holds m.flags then pc + offset.signExtend 64 else pc + 4, m)
  | .cbz rt offset => some (if m.get rt = 0 then pc + offset.signExtend 64 else pc + 4, m)
  | .bl offset => some (pc + offset.signExtend 64, m.put .x30 (pc + 4))
  | .blr rn => some (m.get rn, m.put .x30 (pc + 4))
  | .ret => some (m.get .x30, m)
  | .adrp rd _ => (env.target? pc).map fun a => (pc + 4, m.set rd a)
  | i => (env.perform? m i).map (pc + 4, ·)

def step? (env : Process image) (pc : BitVec 64) (m : Machine) : Option (BitVec 64 × Machine) :=
  (env.fetch pc).bind (env.execute? pc m)

/-! ## Imported functions -/

/-- The argument number `k` of a function that takes any number of them. -/
def argument? (env : Process image) (m : Machine) (k : Nat) : Option (BitVec 64) :=
  env.load? m (m.sp + BitVec.ofNat 64 (8 * k))

/-- What `printf` writes for a format, whose first conversion takes argument number `k`. There are
the conversions `%ld`, `%g` and `%s`, and `%%`. -/
def formatted? (env : Process image) (argument? : Nat → Option (BitVec 64)) :
    Nat → Bytes → Option Bytes
  | _, [] => some []
  | k, 0x25 :: 0x25 :: rest => do return 0x25 :: (← formatted? env argument? k rest)
  | k, 0x25 :: 0x6C :: 0x64 :: rest => do
    let v ← argument? k
    return Bytes.ofText (toString v.toInt) ++ (← formatted? env argument? (k + 1) rest)
  | k, 0x25 :: 0x67 :: rest => do
    let v ← argument? k
    return Bytes.ofText (ofBits v).text ++ (← formatted? env argument? (k + 1) rest)
  | k, 0x25 :: 0x73 :: rest => do
    let v ← argument? k
    return (← env.string? v) ++ (← formatted? env argument? (k + 1) rest)
  | k, c :: rest =>
    if c = 0x25 then none else do return c :: (← formatted? env argument? k rest)

/-- What a call of `printf` writes. The stack pointer must be aligned. -/
def printed? (env : Process image) (m : Machine) : Option Bytes :=
  if m.sp.toNat % 16 = 0 then
    (env.string? (m.get .x0)).bind (env.formatted? (env.argument? m) 0)
  else
    none

end Process

/-- What a function that is called leaves as it was: registers 19 to 29, the stack pointer, and the
stack from there up. -/
structure A64.Machine.Kept (m m' : Machine) : Prop where
  saved : ∀ n : BitVec 5, 19 ≤ n.toNat → n.toNat ≤ 29 → m'.x n = m.x n
  sp : m'.sp = m.sp
  stack : ∀ a, m.sp.toNat ≤ a → m'.stack a = m.stack a

namespace Process

variable {image : Image}

/-! ## Steps -/

/-- One step of a run. A call of `printf` is one step, after which whatever it does not keep may
have any value. There is no step after a call of `exit`. -/
inductive Step (env : Process image) : BitVec 64 → Machine → BitVec 64 → Machine → Prop
  | instr {pc pc' : BitVec 64} {m m' : Machine} :
    pc ≠ env.printf → pc ≠ env.exit → env.step? pc m = some (pc', m') → Step env pc m pc' m'
  | printf {m m' : Machine} {text : Bytes} :
    env.printed? m = some text → m.Kept m' → m'.output = m.output ++ text →
      Step env env.printf m (m.get .x30) m'

/-- Every run from here comes to a point where `P` holds. -/
inductive Eventually (env : Process image) (P : BitVec 64 → Machine → Prop) :
    BitVec 64 → Machine → Prop
  | now {pc : BitVec 64} {m : Machine} : P pc m → Eventually env P pc m
  | later {pc : BitVec 64} {m : Machine} : (∃ pc' m', env.Step pc m pc' m') →
    (∀ pc' m', env.Step pc m pc' m' → Eventually env P pc' m') → Eventually env P pc m

/-- The program exits with status zero and has printed the text. -/
def Exits (env : Process image) (text : Bytes) (pc : BitVec 64) (m : Machine) : Prop :=
  pc = env.exit ∧ m.get .x0 = 0 ∧ m.output = text

end Process

end Armature
