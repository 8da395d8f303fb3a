import Armature.A64.Register
import Armature.Bytes

/-!
# Instructions

The instructions that compiled code consists of, and the words that encode them. Immediate operands
are as wide as a caller may give them. The encoding cuts an immediate to its field only where the
field's mask says so; a scaled offset or a shift that is too large runs into the bits above it.
-/

namespace Armature.A64

inductive Instr where
  | movz (rd : XReg) (imm : BitVec 16) (shift : BitVec 8)
  | movn (rd : XReg) (imm : BitVec 16) (shift : BitVec 8)
  | movk (rd : XReg) (imm : BitVec 16) (shift : BitVec 8)
  | addImm (rd rn : XReg) (imm : BitVec 16)
  | subImm (rd rn : XReg) (imm : BitVec 16)
  | cmpImm (rn : XReg) (imm : BitVec 16)
  /-- The page of this instruction plus a number of 4 KiB pages. -/
  | adrp (rd : XReg) (pages : BitVec 32)
  | mov (rd rm : XReg)
  | neg (rd rm : XReg)
  | add (rd rn rm : XReg)
  | sub (rd rn rm : XReg)
  | mul (rd rn rm : XReg)
  /-- Signed division, which gives zero for a zero divisor. -/
  | sdiv (rd rn rm : XReg)
  /-- `rd = ra - rn * rm`. -/
  | msub (rd rn rm ra : XReg)
  | and (rd rn rm : XReg)
  | orr (rd rn rm : XReg)
  | cmp (rn rm : XReg)
  /-- One if the condition holds, else zero. -/
  | cset (rd : XReg) (cond : Cond)
  | csel (rd rn rm : XReg) (cond : Cond)
  | fadd (rd rn rm : DReg)
  | fsub (rd rn rm : DReg)
  | fmul (rd rn rm : DReg)
  | fdiv (rd rn rm : DReg)
  /-- `rd = ra - rn * rm`, rounded once. -/
  | fmsub (rd rn rm ra : DReg)
  | frintz (rd rn : DReg)
  | fneg (rd rn : DReg)
  | fmov (rd rn : DReg)
  | fcmp (rn rm : DReg)
  | fcmpZero (rn : DReg)
  /-- Signed integer to double. -/
  | scvtf (rd : DReg) (rn : XReg)
  | b (offset : BitVec 32)
  | bCond (cond : Cond) (offset : BitVec 32)
  | bl (offset : BitVec 32)
  | blr (rn : XReg)
  | ret
  | cbz (rt : XReg) (offset : BitVec 32)
  | ldrX (rt rn : XReg) (offset : BitVec 16)
  | strX (rt rn : XReg) (offset : BitVec 16)
  | ldrD (rt : DReg) (rn : XReg) (offset : BitVec 16)
  | strD (rt : DReg) (rn : XReg) (offset : BitVec 16)
  /-- Loads from `rn + 8 * rm`. -/
  | ldrXAt (rt rn rm : XReg)
  | ldrDAt (rt : DReg) (rn rm : XReg)
  /-- Moves the base by the offset, then stores there. -/
  | pushX (rt rn : XReg) (offset : BitVec 16)
  /-- Loads from the base, then moves it by the offset. -/
  | popX (rt rn : XReg) (offset : BitVec 16)
  | pushD (rt : DReg) (rn : XReg) (offset : BitVec 16)
  | popD (rt : DReg) (rn : XReg) (offset : BitVec 16)
  | pushPair (rt₁ rt₂ rn : XReg) (offset : BitVec 16)
  | popPair (rt₁ rt₂ rn : XReg) (offset : BitVec 16)
deriving DecidableEq

/-! ## Encoding -/

/-- A value moved up to where its field starts. -/
def field {w : Nat} (value : BitVec w) (start : Nat) : Word := value.setWidth 32 <<< start

def imm12 (imm : BitVec 16) : Word := field (imm &&& 0xFFF) 10

/-- The offset in words, cut to a field of 26 bits. -/
def imm26 (offset : BitVec 32) : Word := offset.sshiftRight 2 &&& 0x03FFFFFF

/-- The offset in words, cut to a field of 19 bits. -/
def imm19 (offset : BitVec 32) : Word := field (offset.sshiftRight 2 &&& 0x7FFFF) 5

def imm9 (offset : BitVec 16) : Word := field (offset.signExtend 32 &&& 0x1FF) 12

/-- The offset in units of eight bytes, cut to a field of 7 bits. -/
def imm7 (offset : BitVec 16) : Word := field ((offset.sdiv 8).signExtend 32 &&& 0x7F) 15

/-- The offset in units of eight bytes, not cut. -/
def scaled (offset : BitVec 16) : Word := field (offset / 8) 10

/-- The low two bits of a page count and the others stand apart. -/
def pageField (pages : BitVec 32) : Word :=
  let imm := pages &&& 0x1FFFFF
  field (imm &&& 3) 29 ||| field (imm >>> 2) 5

def Instr.encode : Instr → Word
  | movz rd imm shift => 0xD2800000 ||| field (shift / 16) 21 ||| field imm 5 ||| field rd.num 0
  | movn rd imm shift => 0x92800000 ||| field (shift / 16) 21 ||| field imm 5 ||| field rd.num 0
  | movk rd imm shift => 0xF2800000 ||| field (shift / 16) 21 ||| field imm 5 ||| field rd.num 0
  | addImm rd rn imm => 0x91000000 ||| imm12 imm ||| field rn.num 5 ||| field rd.num 0
  | subImm rd rn imm => 0xD1000000 ||| imm12 imm ||| field rn.num 5 ||| field rd.num 0
  | cmpImm rn imm => 0xF100001F ||| imm12 imm ||| field rn.num 5
  | adrp rd pages => 0x90000000 ||| pageField pages ||| field rd.num 0
  | mov rd rm => 0xAA0003E0 ||| field rm.num 16 ||| field rd.num 0
  | neg rd rm => 0xCB0003E0 ||| field rm.num 16 ||| field rd.num 0
  | add rd rn rm => 0x8B000000 ||| field rm.num 16 ||| field rn.num 5 ||| field rd.num 0
  | sub rd rn rm => 0xCB000000 ||| field rm.num 16 ||| field rn.num 5 ||| field rd.num 0
  | mul rd rn rm => 0x9B007C00 ||| field rm.num 16 ||| field rn.num 5 ||| field rd.num 0
  | sdiv rd rn rm => 0x9AC00C00 ||| field rm.num 16 ||| field rn.num 5 ||| field rd.num 0
  | msub rd rn rm ra =>
    0x9B008000 ||| field rm.num 16 ||| field ra.num 10 ||| field rn.num 5 ||| field rd.num 0
  | and rd rn rm => 0x8A000000 ||| field rm.num 16 ||| field rn.num 5 ||| field rd.num 0
  | orr rd rn rm => 0xAA000000 ||| field rm.num 16 ||| field rn.num 5 ||| field rd.num 0
  | cmp rn rm => 0xEB00001F ||| field rm.num 16 ||| field rn.num 5
  | cset rd cond => 0x9A9F07E0 ||| field cond.invert.code 12 ||| field rd.num 0
  | csel rd rn rm cond =>
    0x9A800000 ||| field rm.num 16 ||| field cond.code 12 ||| field rn.num 5 ||| field rd.num 0
  | fadd rd rn rm => 0x1E602800 ||| field rm.num 16 ||| field rn.num 5 ||| field rd.num 0
  | fsub rd rn rm => 0x1E603800 ||| field rm.num 16 ||| field rn.num 5 ||| field rd.num 0
  | fmul rd rn rm => 0x1E600800 ||| field rm.num 16 ||| field rn.num 5 ||| field rd.num 0
  | fdiv rd rn rm => 0x1E601800 ||| field rm.num 16 ||| field rn.num 5 ||| field rd.num 0
  | fmsub rd rn rm ra =>
    0x1F408000 ||| field rm.num 16 ||| field ra.num 10 ||| field rn.num 5 ||| field rd.num 0
  | frintz rd rn => 0x1E65C000 ||| field rn.num 5 ||| field rd.num 0
  | fneg rd rn => 0x1E614000 ||| field rn.num 5 ||| field rd.num 0
  | fmov rd rn => 0x1E604000 ||| field rn.num 5 ||| field rd.num 0
  | fcmp rn rm => 0x1E602000 ||| field rm.num 16 ||| field rn.num 5
  | fcmpZero rn => 0x1E602008 ||| field rn.num 5
  | scvtf rd rn => 0x9E620000 ||| field rn.num 5 ||| field rd.num 0
  | b offset => 0x14000000 ||| imm26 offset
  | bCond cond offset => 0x54000000 ||| imm19 offset ||| field cond.code 0
  | bl offset => 0x94000000 ||| imm26 offset
  | blr rn => 0xD63F0000 ||| field rn.num 5
  | ret => 0xD65F0000 ||| field XReg.x30.num 5
  | cbz rt offset => 0xB4000000 ||| imm19 offset ||| field rt.num 0
  | ldrX rt rn offset => 0xF9400000 ||| scaled offset ||| field rn.num 5 ||| field rt.num 0
  | strX rt rn offset => 0xF9000000 ||| scaled offset ||| field rn.num 5 ||| field rt.num 0
  | ldrD rt rn offset => 0xFD400000 ||| scaled offset ||| field rn.num 5 ||| field rt.num 0
  | strD rt rn offset => 0xFD000000 ||| scaled offset ||| field rn.num 5 ||| field rt.num 0
  | ldrXAt rt rn rm => 0xF8607800 ||| field rm.num 16 ||| field rn.num 5 ||| field rt.num 0
  | ldrDAt rt rn rm => 0xFC607800 ||| field rm.num 16 ||| field rn.num 5 ||| field rt.num 0
  | pushX rt rn offset => 0xF8000C00 ||| imm9 offset ||| field rn.num 5 ||| field rt.num 0
  | popX rt rn offset => 0xF8400400 ||| imm9 offset ||| field rn.num 5 ||| field rt.num 0
  | pushD rt rn offset => 0xFC000C00 ||| imm9 offset ||| field rn.num 5 ||| field rt.num 0
  | popD rt rn offset => 0xFC400400 ||| imm9 offset ||| field rn.num 5 ||| field rt.num 0
  | pushPair rt₁ rt₂ rn offset =>
    0xA9800000 ||| imm7 offset ||| field rt₂.num 10 ||| field rn.num 5 ||| field rt₁.num 0
  | popPair rt₁ rt₂ rn offset =>
    0xA8C00000 ||| imm7 offset ||| field rt₂.num 10 ||| field rn.num 5 ||| field rt₁.num 0

/-! ## Constants -/

/-- The four halfwords of a value, low one first, each with the place it is shifted to. -/
def halfwords (value : BitVec 64) : List (BitVec 16 × BitVec 8) :=
  [(value.extractLsb' 0 16, 0), (value.extractLsb' 16 16, 16), (value.extractLsb' 32 16, 32),
    (value.extractLsb' 48 16, 48)]

/-- Loads a value. The first instruction sets every halfword to all zeros or to all ones, whichever
more of them are, and one more follows for each other halfword that is left. -/
def loadImm (rd : XReg) (value : BitVec 64) : List Instr :=
  let halves := halfwords value
  if halves.countP (·.1 = 0) < halves.countP (·.1 = 0xFFFF) then
    match halves.filter (·.1 ≠ 0xFFFF) with
    | [] => [.movn rd 0 0]
    | (half, shift) :: rest => .movn rd (~~~half) shift :: rest.map fun (h, s) => .movk rd h s
  else
    match halves.filter (·.1 ≠ 0) with
    | [] => [.mov rd .zr]
    | (half, shift) :: rest => .movz rd half shift :: rest.map fun (h, s) => .movk rd h s

end Armature.A64
