import Armature.A64.Patch
import Mathlib.Algebra.Ring.Int.Defs
import Mathlib.Algebra.Ring.Nat

/-!
# Decoding

The instruction that a word encodes. A word is recognised by the bits that tell its operation, and
its operands are read off the other bits. Decoding undoes encoding for all operands that fit into
their fields.
-/

namespace Armature.A64

/-! ## Fields of a word -/

theorem getLsbD_field {w : Nat} (v : BitVec w) (p i : Nat) (hi : i < 32) :
    (field v p).getLsbD i = (decide (p ≤ i) && v.getLsbD (i - p)) := by
  simp only [field, BitVec.getLsbD_shiftLeft, BitVec.getLsbD_setWidth, hi]
  by_cases hp : p ≤ i
  · have hlt : i - p < 32 := by omega
    simp [hp, hlt]
  · simp [hp]

theorem getLsbD_eq_false_of_lt {w : Nat} (v : BitVec w) (k i : Nat) (hv : v.toNat < 2 ^ k)
    (hi : k ≤ i) : v.getLsbD i = false := by
  rw [← BitVec.testBit_toNat]
  exact Nat.testBit_lt_two_pow (Nat.lt_of_lt_of_le hv (Nat.pow_le_pow_right (by decide) hi))

theorem field_and {w : Nat} (v : BitVec w) (p k : Nat) (m : Word) (hv : v.toNat < 2 ^ k)
    (hm : m.extractLsb' p k = 0) : field v p &&& m = 0 := by
  apply BitVec.eq_of_getLsbD_eq
  intro i hi
  rw [BitVec.getLsbD_and, getLsbD_field v p i hi]
  by_cases hp : p ≤ i
  · by_cases hk : i - p < k
    · have hbit := congrArg (BitVec.getLsbD · (i - p)) hm
      simp only [BitVec.getLsbD_extractLsb', hk, Nat.add_sub_cancel' hp] at hbit
      simp_all
    · simp [getLsbD_eq_false_of_lt v k (i - p) hv (by omega)]
  · simp [hp]

theorem extract_field_below {w : Nat} (v : BitVec w) (p s n : Nat) (h : s + n ≤ p) :
    (field v p).extractLsb' s n = 0 := by
  apply BitVec.eq_of_getLsbD_eq
  intro i hi
  rw [BitVec.getLsbD_extractLsb']
  by_cases h32 : s + i < 32
  · simp [getLsbD_field v p (s + i) h32, show ¬ p ≤ s + i by omega]
  · simp [BitVec.getLsbD_of_ge _ _ (Nat.le_of_not_lt h32)]

theorem extract_field_above {w : Nat} (v : BitVec w) (p k s n : Nat) (hv : v.toNat < 2 ^ k)
    (h : p + k ≤ s) : (field v p).extractLsb' s n = 0 := by
  apply BitVec.eq_of_getLsbD_eq
  intro i hi
  rw [BitVec.getLsbD_extractLsb']
  by_cases h32 : s + i < 32
  · rw [getLsbD_field v p (s + i) h32, getLsbD_eq_false_of_lt v k _ hv (by omega)]
    simp
  · simp [BitVec.getLsbD_of_ge _ _ (Nat.le_of_not_lt h32)]

theorem extract_field_self {w : Nat} (v : BitVec w) (p n : Nat) (h : p + n ≤ 32) :
    (field v p).extractLsb' p n = v.setWidth n := by
  apply BitVec.eq_of_getLsbD_eq
  intro i hi
  rw [BitVec.getLsbD_extractLsb', getLsbD_field v p (p + i) (by omega)]
  simp [hi]

theorem field_extract (w : Word) (p n : Nat) :
    field (w.extractLsb' p n) p = w &&& field (BitVec.allOnes n) p := by
  apply BitVec.eq_of_getLsbD_eq
  intro i hi
  rw [BitVec.getLsbD_and, getLsbD_field _ _ _ hi, getLsbD_field _ _ _ hi,
    BitVec.getLsbD_extractLsb', BitVec.getLsbD_allOnes]
  by_cases hp : p ≤ i
  · simp [hp, Nat.add_sub_cancel' hp, Bool.and_comm]
  · simp [hp]

theorem and_submask {w m v : Word} (h : w &&& m = v) (m' : Word) (hm : m &&& m' = m') :
    w &&& m' = v &&& m' := by
  rw [← h, BitVec.and_assoc, hm]

/-! ## Operations -/

/-- The instructions up to their operands. A move and a negation are an `orr` and a `sub` whose
first operand is zero. -/
inductive Op where
  | movz | movn | movk | addImm | subImm | cmpImm | adrp | add | sub | mul | sdiv | msub | and | orr
  | cmp | cset | csel | fadd | fsub | fmul | fdiv | fmsub | frintz | fneg | fmov | fcmp | fcmpZero
  | scvtf | b | bCond | bl | blr | ret | cbz | ldrX | strX | ldrD | strD | ldrXAt | ldrDAt | pushX
  | popX | pushD | popD | pushPair | popPair
deriving DecidableEq

namespace Op

def all : List Op :=
  [movz, movn, movk, addImm, subImm, cmpImm, adrp, add, sub, mul, sdiv, msub, and, orr,
    cmp, cset, csel, fadd, fsub, fmul, fdiv, fmsub, frintz, fneg, fmov, fcmp, fcmpZero,
    scvtf, b, bCond, bl, blr, ret, cbz, ldrX, strX, ldrD, strD, ldrXAt, ldrDAt, pushX,
    popX, pushD, popD, pushPair, popPair]

/-- The bits of a word that tell the operation. A double register has two bits to spare in each of
its fields, and they count as well. -/
def mask : Op → Word
  | movz | movn | movk => 0xFF800000
  | addImm | subImm | ldrX | strX | pushPair | popPair => 0xFFC00000
  | cmpImm => 0xFFC0001F
  | adrp => 0x9F000000
  | add | sub | mul | sdiv | and | orr | ldrXAt => 0xFFE0FC00
  | msub => 0xFFE08000
  | cmp => 0xFFE0FC1F
  | cset => 0xFFFF0FE0
  | csel | pushX | popX => 0xFFE00C00
  | fadd | fsub | fmul | fdiv => 0xFFF8FF18
  | fmsub => 0xFFF8E318
  | frintz | fneg | fmov => 0xFFFFFF18
  | fcmp => 0xFFF8FF1F
  | fcmpZero => 0xFFFFFF1F
  | scvtf => 0xFFFFFC18
  | b | bl => 0xFC000000
  | bCond => 0xFF000010
  | blr => 0xFFFFFC1F
  | ret => 0xFFFFFFFF
  | cbz => 0xFF000000
  | ldrD | strD => 0xFFC00018
  | ldrDAt => 0xFFE0FC18
  | pushD | popD => 0xFFE00C18

/-- What those bits are. -/
def pattern : Op → Word
  | movz => 0xD2800000
  | movn => 0x92800000
  | movk => 0xF2800000
  | addImm => 0x91000000
  | subImm => 0xD1000000
  | cmpImm => 0xF100001F
  | adrp => 0x90000000
  | add => 0x8B000000
  | sub => 0xCB000000
  | mul => 0x9B007C00
  | sdiv => 0x9AC00C00
  | msub => 0x9B008000
  | and => 0x8A000000
  | orr => 0xAA000000
  | cmp => 0xEB00001F
  | cset => 0x9A9F07E0
  | csel => 0x9A800000
  | fadd => 0x1E602800
  | fsub => 0x1E603800
  | fmul => 0x1E600800
  | fdiv => 0x1E601800
  | fmsub => 0x1F408000
  | frintz => 0x1E65C000
  | fneg => 0x1E614000
  | fmov => 0x1E604000
  | fcmp => 0x1E602000
  | fcmpZero => 0x1E602008
  | scvtf => 0x9E620000
  | b => 0x14000000
  | bCond => 0x54000000
  | bl => 0x94000000
  | blr => 0xD63F0000
  | ret => 0xD65F03C0
  | cbz => 0xB4000000
  | ldrX => 0xF9400000
  | strX => 0xF9000000
  | ldrD => 0xFD400000
  | strD => 0xFD000000
  | ldrXAt => 0xF8607800
  | ldrDAt => 0xFC607800
  | pushX => 0xF8000C00
  | popX => 0xF8400400
  | pushD => 0xFC000C00
  | popD => 0xFC400400
  | pushPair => 0xA9800000
  | popPair => 0xA8C00000

theorem mem_all (o : Op) : o ∈ all := by cases o <;> decide

def matched (o : Op) (w : Word) : Bool := w &&& o.mask = o.pattern

/-- Two operations differ in a bit that tells both of them. -/
theorem masks_apart : ∀ o ∈ all, ∀ o' ∈ all, o ≠ o' →
    o.mask &&& o'.mask &&& (o.pattern ^^^ o'.pattern) ≠ 0 := by
  decide +kernel

theorem eq_of_matched (o o' : Op) (w : Word) (h : o.matched w) (h' : o'.matched w) : o = o' := by
  simp only [matched, decide_eq_true_eq] at h h'
  apply Decidable.byContradiction
  intro hne
  apply masks_apart o o.mem_all o' o'.mem_all hne
  rw [← h, ← h']
  apply BitVec.eq_of_getLsbD_eq
  intro i hi
  simp only [BitVec.getLsbD_and, BitVec.getLsbD_xor]
  cases w.getLsbD i <;> cases o.mask.getLsbD i <;> cases o'.mask.getLsbD i <;> simp

/-! ## Reading operands -/

def xreg (w : Word) (start : Nat) : XReg := ⟨w.extractLsb' start 5⟩

def dreg (w : Word) (start : Nat) : DReg := ⟨w.extractLsb' start 3⟩

/-- The shift of a halfword, which is stored in units of 16 bits. -/
def halfShift (w : Word) : BitVec 8 := 16 * (w.extractLsb' 21 2).setWidth 8

def uimm12 (w : Word) : BitVec 16 := (w.extractLsb' 10 12).setWidth 16

def simm9 (w : Word) : BitVec 16 := (w.extractLsb' 12 9).signExtend 16

def simm7 (w : Word) : BitVec 16 := 8 * (w.extractLsb' 15 7).signExtend 16

/-- The displacement of a branch in bytes. -/
def disp26 (w : Word) : BitVec 32 := 4 * (w.extractLsb' 0 26).signExtend 32

def disp19 (w : Word) : BitVec 32 := 4 * (w.extractLsb' 5 19).signExtend 32

def pageCount (w : Word) : BitVec 32 := (w.extractLsb' 5 19 ++ w.extractLsb' 29 2).signExtend 32

/-- The instruction that a word with this operation stands for. -/
def read (w : Word) : Op → Instr
  | movz => .movz (xreg w 0) (w.extractLsb' 5 16) (halfShift w)
  | movn => .movn (xreg w 0) (w.extractLsb' 5 16) (halfShift w)
  | movk => .movk (xreg w 0) (w.extractLsb' 5 16) (halfShift w)
  | addImm => .addImm (xreg w 0) (xreg w 5) (uimm12 w)
  | subImm => .subImm (xreg w 0) (xreg w 5) (uimm12 w)
  | cmpImm => .cmpImm (xreg w 5) (uimm12 w)
  | adrp => .adrp (xreg w 0) (pageCount w)
  | add => .add (xreg w 0) (xreg w 5) (xreg w 16)
  | sub =>
    if xreg w 5 = .zr then .neg (xreg w 0) (xreg w 16)
    else .sub (xreg w 0) (xreg w 5) (xreg w 16)
  | mul => .mul (xreg w 0) (xreg w 5) (xreg w 16)
  | sdiv => .sdiv (xreg w 0) (xreg w 5) (xreg w 16)
  | msub => .msub (xreg w 0) (xreg w 5) (xreg w 16) (xreg w 10)
  | and => .and (xreg w 0) (xreg w 5) (xreg w 16)
  | orr =>
    if xreg w 5 = .zr then .mov (xreg w 0) (xreg w 16)
    else .orr (xreg w 0) (xreg w 5) (xreg w 16)
  | cmp => .cmp (xreg w 5) (xreg w 16)
  | cset => .cset (xreg w 0) (Cond.ofCode (w.extractLsb' 12 4)).invert
  | csel => .csel (xreg w 0) (xreg w 5) (xreg w 16) (Cond.ofCode (w.extractLsb' 12 4))
  | fadd => .fadd (dreg w 0) (dreg w 5) (dreg w 16)
  | fsub => .fsub (dreg w 0) (dreg w 5) (dreg w 16)
  | fmul => .fmul (dreg w 0) (dreg w 5) (dreg w 16)
  | fdiv => .fdiv (dreg w 0) (dreg w 5) (dreg w 16)
  | fmsub => .fmsub (dreg w 0) (dreg w 5) (dreg w 16) (dreg w 10)
  | frintz => .frintz (dreg w 0) (dreg w 5)
  | fneg => .fneg (dreg w 0) (dreg w 5)
  | fmov => .fmov (dreg w 0) (dreg w 5)
  | fcmp => .fcmp (dreg w 5) (dreg w 16)
  | fcmpZero => .fcmpZero (dreg w 5)
  | scvtf => .scvtf (dreg w 0) (xreg w 5)
  | b => .b (disp26 w)
  | bCond => .bCond (Cond.ofCode (w.extractLsb' 0 4)) (disp19 w)
  | bl => .bl (disp26 w)
  | blr => .blr (xreg w 5)
  | ret => .ret
  | cbz => .cbz (xreg w 0) (disp19 w)
  | ldrX => .ldrX (xreg w 0) (xreg w 5) (8 * uimm12 w)
  | strX => .strX (xreg w 0) (xreg w 5) (8 * uimm12 w)
  | ldrD => .ldrD (dreg w 0) (xreg w 5) (8 * uimm12 w)
  | strD => .strD (dreg w 0) (xreg w 5) (8 * uimm12 w)
  | ldrXAt => .ldrXAt (xreg w 0) (xreg w 5) (xreg w 16)
  | ldrDAt => .ldrDAt (dreg w 0) (xreg w 5) (xreg w 16)
  | pushX => .pushX (xreg w 0) (xreg w 5) (simm9 w)
  | popX => .popX (xreg w 0) (xreg w 5) (simm9 w)
  | pushD => .pushD (dreg w 0) (xreg w 5) (simm9 w)
  | popD => .popD (dreg w 0) (xreg w 5) (simm9 w)
  | pushPair => .pushPair (xreg w 0) (xreg w 10) (xreg w 5) (simm7 w)
  | popPair => .popPair (xreg w 0) (xreg w 10) (xreg w 5) (simm7 w)

end Op

/-- The instruction that a word encodes, if it is one of those that compiled code has. -/
def decode (w : Word) : Option Instr := (Op.all.find? (·.matched w)).map (·.read w)

theorem decode_of_matched (o : Op) (w : Word) (h : o.matched w) : decode w = some (o.read w) := by
  cases hf : Op.all.find? (·.matched w) with
  | none =>
    have := List.find?_eq_none.mp hf o o.mem_all
    contradiction
  | some o' =>
    have := List.find?_some hf
    rw [decode, hf, Op.eq_of_matched o o' w h this]
    rfl

namespace Instr

def op : Instr → Op
  | movz .. => .movz | movn .. => .movn | movk .. => .movk | addImm .. => .addImm
  | subImm .. => .subImm | cmpImm .. => .cmpImm | adrp .. => .adrp | mov .. => .orr
  | neg .. => .sub | add .. => .add | sub .. => .sub | mul .. => .mul | sdiv .. => .sdiv
  | msub .. => .msub | and .. => .and | orr .. => .orr | cmp .. => .cmp | cset .. => .cset
  | csel .. => .csel | fadd .. => .fadd | fsub .. => .fsub | fmul .. => .fmul | fdiv .. => .fdiv
  | fmsub .. => .fmsub | frintz .. => .frintz | fneg .. => .fneg | fmov .. => .fmov
  | fcmp .. => .fcmp | fcmpZero .. => .fcmpZero | scvtf .. => .scvtf | b .. => .b
  | bCond .. => .bCond | bl .. => .bl | blr .. => .blr | ret => .ret | cbz .. => .cbz
  | ldrX .. => .ldrX | strX .. => .strX | ldrD .. => .ldrD | strD .. => .strD
  | ldrXAt .. => .ldrXAt | ldrDAt .. => .ldrDAt | pushX .. => .pushX | popX .. => .popX
  | pushD .. => .pushD | popD .. => .popD | pushPair .. => .pushPair | popPair .. => .popPair

/-- Whether every immediate operand fits into its field. -/
def Fits : Instr → Prop
  | movz _ _ shift | movn _ _ shift | movk _ _ shift =>
    shift = 0 ∨ shift = 16 ∨ shift = 32 ∨ shift = 48
  | addImm _ _ imm | subImm _ _ imm | cmpImm _ imm => imm.toNat < 4096
  | adrp _ pages => -0x100000 ≤ pages.toInt ∧ pages.toInt < 0x100000
  | b offset | bl offset =>
    offset.toInt % 4 = 0 ∧ -0x8000000 ≤ offset.toInt ∧ offset.toInt < 0x8000000
  | bCond _ offset | cbz _ offset =>
    offset.toInt % 4 = 0 ∧ -0x100000 ≤ offset.toInt ∧ offset.toInt < 0x100000
  | ldrX _ _ offset | strX _ _ offset | ldrD _ _ offset | strD _ _ offset =>
    offset.toNat % 8 = 0 ∧ offset.toNat < 32768
  | pushX _ _ offset | popX _ _ offset | pushD _ _ offset | popD _ _ offset =>
    -256 ≤ offset.toInt ∧ offset.toInt < 256
  | pushPair _ _ _ offset | popPair _ _ _ offset =>
    offset.toInt % 8 = 0 ∧ -512 ≤ offset.toInt ∧ offset.toInt < 512
  | _ => True

/-- The two instructions that are written in another way when their first operand is zero. -/
def unaliased : Instr → Instr
  | orr rd rn rm => if rn = .zr then mov rd rm else orr rd rn rm
  | sub rd rn rm => if rn = .zr then neg rd rm else sub rd rn rm
  | i => i

end Instr

/-! ## Immediate operands as fields of their width -/

theorem field_narrow {w : Nat} (v : BitVec w) (k p : Nat) (hv : v.toNat < 2 ^ k) :
    field v p = field (v.setWidth k) p := by
  apply BitVec.eq_of_getLsbD_eq
  intro i hi
  rw [getLsbD_field _ _ _ hi, getLsbD_field _ _ _ hi, BitVec.getLsbD_setWidth]
  by_cases hk : i - p < k
  · simp [hk]
  · simp [hk, getLsbD_eq_false_of_lt v k (i - p) hv (by omega)]

theorem field_mask {w : Nat} (v m : BitVec w) (k p : Nat) (hm : m = (BitVec.allOnes k).setWidth w) :
    field (v &&& m) p = field (v.setWidth k) p := by
  apply BitVec.eq_of_getLsbD_eq
  intro i hi
  rw [getLsbD_field _ _ _ hi, getLsbD_field _ _ _ hi, BitVec.getLsbD_setWidth, BitVec.getLsbD_and,
    hm, BitVec.getLsbD_setWidth, BitVec.getLsbD_allOnes]
  by_cases hw : i - p < w
  · simp [hw, Bool.and_comm]
  · simp [BitVec.getLsbD_of_ge v _ (Nat.le_of_not_lt hw)]

theorem imm12_eq (imm : BitVec 16) : imm12 imm = field (imm.setWidth 12) 10 :=
  field_mask imm 0xFFF 12 10 (by decide)

theorem imm26_eq (offset : BitVec 32) :
    imm26 offset = field ((offset.sshiftRight 2).setWidth 26) 0 := by
  rw [← field_mask (offset.sshiftRight 2) 0x03FFFFFF 26 0 (by decide)]
  simp [imm26, field]

theorem imm19_eq (offset : BitVec 32) :
    imm19 offset = field ((offset.sshiftRight 2).setWidth 19) 5 :=
  field_mask (offset.sshiftRight 2) 0x7FFFF 19 5 (by decide)

theorem imm9_eq (offset : BitVec 16) :
    imm9 offset = field ((offset.signExtend 32).setWidth 9) 12 :=
  field_mask (offset.signExtend 32) 0x1FF 9 12 (by decide)

theorem imm7_eq (offset : BitVec 16) :
    imm7 offset = field (((offset.sdiv 8).signExtend 32).setWidth 7) 15 :=
  field_mask ((offset.sdiv 8).signExtend 32) 0x7F 7 15 (by decide)

theorem pageField_eq (pages : BitVec 32) :
    pageField pages = field (pages.setWidth 2) 29 ||| field (pages.extractLsb' 2 19) 5 := by
  have hlow : field (pages &&& 0x1FFFFF &&& 3) 29 = field (pages.setWidth 2) 29 := by
    rw [BitVec.and_assoc]
    exact field_mask pages _ 2 29 (by decide)
  have hbits : (pages &&& 0x1FFFFF) >>> 2 = (pages.extractLsb' 2 19).setWidth 32 := by
    apply BitVec.eq_of_getLsbD_eq
    intro i hi
    have hmask : (0x1FFFFF : BitVec 32) = (BitVec.allOnes 21).setWidth 32 := by decide
    rw [hmask, BitVec.getLsbD_ushiftRight, BitVec.getLsbD_and, BitVec.getLsbD_setWidth,
      BitVec.getLsbD_allOnes, BitVec.getLsbD_setWidth, BitVec.getLsbD_extractLsb']
    by_cases h : i < 19
    · simp [h, hi, show 2 + i < 21 by omega, show 2 + i < 32 by omega]
    · simp [h, show ¬ 2 + i < 21 by omega]
  have hhigh : field ((pages &&& 0x1FFFFF) >>> 2) 5 = field (pages.extractLsb' 2 19) 5 := by
    rw [hbits]
    simp [field]
  simp only [pageField, hlow, hhigh]

theorem scaled_eq (offset : BitVec 16) (h : offset.toNat < 32768) :
    scaled offset = field ((offset / 8).setWidth 12) 10 := by
  apply field_narrow
  rw [BitVec.toNat_udiv]
  show offset.toNat / 8 < 2 ^ 12
  omega

theorem shift_eq (shift : BitVec 8) (h : shift = 0 ∨ shift = 16 ∨ shift = 32 ∨ shift = 48) :
    field (shift / 16#8) 21 = field ((shift / 16#8).setWidth 2) 21 := by
  apply field_narrow
  rcases h with rfl | rfl | rfl | rfl <;> decide

/-! ## What is read back from such a field -/

theorem toInt_setWidth_of_fits {w : Nat} (x : BitVec w) (k : Nat) (hk : k < w)
    (hl : -2 ^ k ≤ x.toInt) (hu : x.toInt < 2 ^ k) : (x.setWidth (k + 1)).toInt = x.toInt := by
  have hdvd : 2 ^ (k + 1) ∣ 2 ^ w := Nat.pow_dvd_pow 2 hk
  have hpow : ((2 ^ (k + 1) : Nat) : Int) = 2 ^ k * 2 := by
    push_cast
    exact Int.pow_succ 2 k
  rw [BitVec.toInt_setWidth, ← Int.bmod_bmod_of_dvd hdvd, ← BitVec.toInt_eq_toNat_bmod]
  apply Int.bmod_eq_of_le_mul_two
  · omega
  · omega

theorem read_shift (shift : BitVec 8) (h : shift = 0 ∨ shift = 16 ∨ shift = 32 ∨ shift = 48) :
    16#8 * ((shift / 16#8).setWidth 2).setWidth 8 = shift := by
  rcases h with rfl | rfl | rfl | rfl <;> decide

theorem read_imm12 (imm : BitVec 16) (h : imm.toNat < 4096) :
    (imm.setWidth 12).setWidth 16 = imm := by
  apply BitVec.eq_of_toNat_eq
  simp only [BitVec.toNat_setWidth]
  omega

theorem read_scaled (offset : BitVec 16) (h8 : offset.toNat % 8 = 0) (h : offset.toNat < 32768) :
    8#16 * ((offset / 8#16).setWidth 12).setWidth 16 = offset := by
  apply BitVec.eq_of_toNat_eq
  simp only [BitVec.toNat_mul, BitVec.toNat_setWidth, BitVec.toNat_udiv,
    show (8#16).toNat = 8 from rfl]
  omega

theorem read_imm9 (offset : BitVec 16) (hl : -256 ≤ offset.toInt) (hu : offset.toInt < 256) :
    ((offset.signExtend 32).setWidth 9).signExtend 16 = offset := by
  have hext : (offset.signExtend 32).toInt = offset.toInt :=
    BitVec.toInt_signExtend_of_le (by decide)
  apply BitVec.eq_of_toInt_eq
  rw [BitVec.toInt_signExtend_of_le (by decide),
    toInt_setWidth_of_fits _ 8 (by decide) (by omega) (by omega), hext]

theorem read_imm7 (offset : BitVec 16) (h8 : offset.toInt % 8 = 0) (hl : -512 ≤ offset.toInt)
    (hu : offset.toInt < 512) :
    8#16 * (((offset.sdiv 8#16).signExtend 32).setWidth 7).signExtend 16 = offset := by
  have hdiv : (offset.sdiv 8#16).toInt = offset.toInt / 8 := by
    rw [BitVec.toInt_sdiv_of_ne_or_ne _ _ (Or.inr (by decide)), show (8#16).toInt = 8 from rfl,
      Int.tdiv_eq_ediv_of_dvd (Int.dvd_of_emod_eq_zero h8)]
  have hext : ((offset.sdiv 8#16).signExtend 32).toInt = offset.toInt / 8 := by
    rw [BitVec.toInt_signExtend_of_le (by decide), hdiv]
  apply BitVec.eq_of_toInt_eq
  rw [BitVec.toInt_mul, BitVec.toInt_signExtend_of_le (by decide),
    toInt_setWidth_of_fits _ 6 (by decide) (by omega) (by omega), hext,
    show (8#16).toInt = 8 from rfl, Int.mul_ediv_cancel' (Int.dvd_of_emod_eq_zero h8)]
  apply Int.bmod_eq_of_le_mul_two <;> omega

theorem read_disp (offset : BitVec 32) (k : Nat) (hk : k < 29) (h4 : offset.toInt % 4 = 0)
    (hl : -2 ^ k * 4 ≤ offset.toInt) (hu : offset.toInt < 2 ^ k * 4) :
    4#32 * ((offset.sshiftRight 2).setWidth (k + 1)).signExtend 32 = offset := by
  have hdiv : (offset.sshiftRight 2).toInt = offset.toInt / 4 := by
    rw [BitVec.toInt_sshiftRight, Int.shiftRight_eq_div_pow]
    rfl
  apply BitVec.eq_of_toInt_eq
  rw [BitVec.toInt_mul, BitVec.toInt_signExtend_of_le (by omega),
    toInt_setWidth_of_fits _ k (by omega) (by omega) (by omega), hdiv,
    show (4#32).toInt = 4 from rfl, Int.mul_ediv_cancel' (Int.dvd_of_emod_eq_zero h4)]
  apply Int.bmod_eq_of_le_mul_two
  · have := offset.le_two_mul_toInt
    omega
  · have := offset.two_mul_toInt_lt
    omega

theorem read_pages (pages : BitVec 32) (hl : -0x100000 ≤ pages.toInt)
    (hu : pages.toInt < 0x100000) :
    (pages.extractLsb' 2 19 ++ pages.setWidth 2).signExtend 32 = pages := by
  have happend : pages.extractLsb' 2 19 ++ pages.setWidth 2 = pages.setWidth 21 := by
    apply BitVec.eq_of_getLsbD_eq
    intro i hi
    simp only [BitVec.getLsbD_append, BitVec.getLsbD_extractLsb', BitVec.getLsbD_setWidth]
    by_cases h : i < 2
    · simp [h, hi]
    · simp [h, hi, show i - 2 < 19 by omega, show 2 + (i - 2) = i by omega]
  rw [happend]
  apply BitVec.eq_of_toInt_eq
  rw [BitVec.toInt_signExtend_of_le (by decide),
    toInt_setWidth_of_fits _ 20 (by decide) (by omega) (by omega)]

theorem ofCode_code (c : Cond) : Cond.ofCode c.code = c := by cases c <;> rfl

theorem invert_invert (c : Cond) : c.invert.invert = c := by cases c <;> rfl

/-! ## Decoding what was encoded -/

theorem field_and_num {w : Nat} (v : BitVec w) (p : Nat) (m : Word) (hm : m.extractLsb' p w = 0) :
    field v p &&& m = 0 := field_and v p w m v.isLt hm

theorem extract_field_over {w : Nat} (v : BitVec w) (p s n : Nat) (h : p + w ≤ s) :
    (field v p).extractLsb' s n = 0 := extract_field_above v p w s n v.isLt h

theorem matched_encode (i : Instr) (h : i.Fits) : i.op.matched i.encode := by
  cases i with
  | movz _ _ shift | movn _ _ shift | movk _ _ shift =>
    simp (disch := decide) [Instr.op, Op.matched, Instr.encode, Op.mask, Op.pattern,
      BitVec.and_or_distrib_right, field_and_num, shift_eq shift h]
  | ldrX _ _ offset | strX _ _ offset | ldrD _ _ offset | strD _ _ offset =>
    simp (disch := decide) [Instr.op, Op.matched, Instr.encode, Op.mask, Op.pattern,
      BitVec.and_or_distrib_right, field_and_num, scaled_eq offset h.2]
  | ret => decide
  | _ =>
    simp (disch := decide) [Instr.op, Op.matched, Instr.encode, Op.mask, Op.pattern,
      BitVec.and_or_distrib_right, field_and_num, imm12_eq, imm26_eq, imm19_eq, imm9_eq, imm7_eq,
      pageField_eq]

theorem read_encode (i : Instr) (h : i.Fits) : i.op.read i.encode = i.unaliased := by
  cases i with
  | movz _ _ shift | movn _ _ shift | movk _ _ shift =>
    simp (disch := decide) [Instr.op, Op.read, Op.xreg, Op.halfShift, Instr.encode,
      Instr.unaliased, BitVec.extractLsb'_or, extract_field_self, extract_field_below,
      extract_field_over, shift_eq shift h, read_shift shift h]
  | addImm _ _ imm | subImm _ _ imm | cmpImm _ imm =>
    simp (disch := decide) [Instr.op, Op.read, Op.xreg, Op.uimm12, Instr.encode,
      Instr.unaliased, BitVec.extractLsb'_or, extract_field_self, extract_field_below,
      extract_field_over, imm12_eq, read_imm12 imm h]
  | adrp _ pages =>
    simp (disch := decide) [Instr.op, Op.read, Op.xreg, Op.pageCount, Instr.encode,
      Instr.unaliased, BitVec.extractLsb'_or, extract_field_self, extract_field_below,
      extract_field_over, pageField_eq, read_pages pages h.1 h.2]
  | b offset | bl offset =>
    simp (disch := decide) [Instr.op, Op.read, Op.disp26, Instr.encode, Instr.unaliased,
      BitVec.extractLsb'_or, extract_field_self, imm26_eq,
      read_disp offset 25 (by decide) h.1 h.2.1 h.2.2]
  | bCond _ offset | cbz _ offset =>
    simp (disch := decide) [Instr.op, Op.read, Op.xreg, Op.disp19, Instr.encode, Instr.unaliased,
      BitVec.extractLsb'_or, extract_field_self, extract_field_below, extract_field_over, imm19_eq,
      ofCode_code, read_disp offset 18 (by decide) h.1 h.2.1 h.2.2]
  | ldrX _ _ offset | strX _ _ offset | ldrD _ _ offset | strD _ _ offset =>
    simp (disch := decide) [Instr.op, Op.read, Op.xreg, Op.dreg, Op.uimm12, Instr.encode,
      Instr.unaliased, BitVec.extractLsb'_or, extract_field_self, extract_field_below,
      extract_field_over, scaled_eq offset h.2, read_scaled offset h.1 h.2]
  | pushX _ _ offset | popX _ _ offset | pushD _ _ offset | popD _ _ offset =>
    simp (disch := decide) [Instr.op, Op.read, Op.xreg, Op.dreg, Op.simm9, Instr.encode,
      Instr.unaliased, BitVec.extractLsb'_or, extract_field_self, extract_field_below,
      extract_field_over, imm9_eq, read_imm9 offset h.1 h.2]
  | pushPair _ _ _ offset | popPair _ _ _ offset =>
    simp (disch := decide) [Instr.op, Op.read, Op.xreg, Op.simm7, Instr.encode,
      Instr.unaliased, BitVec.extractLsb'_or, extract_field_self, extract_field_below,
      extract_field_over, imm7_eq, read_imm7 offset h.1 h.2.1 h.2.2]
  | ret => rfl
  | mov | neg =>
    simp (disch := decide) [Instr.op, Op.read, Op.xreg, XReg.zr, Instr.encode, Instr.unaliased,
      BitVec.extractLsb'_or, extract_field_self, extract_field_below, extract_field_over]
  | _ =>
    simp (disch := decide) [Instr.op, Op.read, Op.xreg, Op.dreg, Instr.encode, Instr.unaliased,
      BitVec.extractLsb'_or, extract_field_self, extract_field_below, extract_field_over,
      ofCode_code, invert_invert]

theorem decode_encode (i : Instr) (h : i.Fits) : decode i.encode = some i.unaliased := by
  rw [decode_of_matched i.op i.encode (matched_encode i h), read_encode i h]

end Armature.A64
