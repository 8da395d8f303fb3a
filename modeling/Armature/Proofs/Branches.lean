import Armature.Proofs.Decode

/-!
# Branches

A branch can be given another displacement, and patching its word does that. No other instruction
has a word that looks like a branch.
-/

namespace Armature.A64

namespace Instr

/-- How far a branch goes, in bytes. -/
def displacement? : Instr → Option (BitVec 32)
  | b offset | bCond _ offset | bl offset | cbz _ offset => some offset
  | _ => none

def form? : Instr → Option BranchForm
  | b _ | bl _ => some .imm26
  | bCond .. | cbz .. => some .imm19
  | _ => none

/-- The same branch with another displacement. -/
def retarget (offset : BitVec 32) : Instr → Instr
  | b _ => b offset
  | bCond cond _ => bCond cond offset
  | bl _ => bl offset
  | cbz rt _ => cbz rt offset
  | i => i

end Instr

namespace BranchForm

/-- The lowest bit of the displacement. -/
def start : BranchForm → Nat
  | imm26 => 0
  | imm19 => 5

/-- The number of bits of the displacement. -/
def width : BranchForm → Nat
  | imm26 => 26
  | imm19 => 19

/-- Whether a displacement in bytes can be stored in a field of the form. -/
def Reaches (form : BranchForm) (offset : Int) : Prop :=
  offset % 4 = 0 ∧ -form.reach - 4 ≤ offset ∧ offset ≤ form.reach

/-- The word with the low bits of another one in the place of its displacement. -/
def put (form : BranchForm) (w words : Word) : Word :=
  (w &&& ~~~field (BitVec.allOnes form.width) form.start) |||
    field (words.setWidth form.width) form.start

end BranchForm

/-! ## Patching -/

section

variable {w : Word} {form : BranchForm} {d : Int} (hform : branchForm? w = some form)

include hform

theorem patchBranch_of_reaches (hd : form.Reaches d) :
    patchBranch w d = some (form.put w (BitVec.ofInt 32 (d / 4))) := by
  obtain ⟨h4, hl, hu⟩ := hd
  have hcond : ¬ (d % 4 ≠ 0 ∨ form.reach < d ∨ d < -form.reach - 4) := by omega
  rw [patchBranch, hform]
  simp only [Option.bind_eq_bind, Option.bind_some, if_neg hcond]
  cases form with
  | imm26 =>
    have hfield := field_mask (BitVec.ofInt 32 (d / 4)) 0x03FFFFFF 26 0 (by decide)
    have hzero : field (BitVec.ofInt 32 (d / 4) &&& 0x03FFFFFF) 0 =
        BitVec.ofInt 32 (d / 4) &&& 0x03FFFFFF := by simp [field]
    rw [← hzero, hfield]
    rfl
  | imm19 =>
    have hfield := field_mask (BitVec.ofInt 32 (d / 4)) 0x7FFFF 19 5 (by decide)
    simp only [field, BitVec.setWidth_eq] at hfield
    rw [hfield]
    rfl

theorem patchBranch_of_not_reaches (hd : ¬ form.Reaches d) : patchBranch w d = none := by
  have hcond : d % 4 ≠ 0 ∨ form.reach < d ∨ d < -form.reach - 4 := by
    simp only [BranchForm.Reaches] at hd
    omega
  rw [patchBranch, hform]
  simp only [Option.bind_eq_bind, Option.bind_some, if_pos hcond]

end

/-! ## Patched instructions -/

theorem field_and_keep {w : Nat} (v : BitVec w) (p : Nat) (m : Word)
    (hm : m.extractLsb' p w = BitVec.allOnes w) : field v p &&& m = field v p := by
  apply BitVec.eq_of_getLsbD_eq
  intro i hi
  rw [BitVec.getLsbD_and, getLsbD_field v p i hi]
  by_cases hp : p ≤ i
  · by_cases hw : i - p < w
    · have hbit := congrArg (BitVec.getLsbD · (i - p)) hm
      simp only [BitVec.getLsbD_extractLsb', hw, Nat.add_sub_cancel' hp, BitVec.getLsbD_allOnes,
        decide_true, Bool.true_and] at hbit
      simp [hbit]
    · simp [BitVec.getLsbD_of_ge v _ (Nat.le_of_not_lt hw)]
  · simp [hp]

theorem sshiftRight_ofInt (d : Int) (hl : -0x80000000 ≤ d) (hu : d < 0x80000000) :
    (BitVec.ofInt 32 d).sshiftRight 2 = BitVec.ofInt 32 (d / 4) := by
  apply BitVec.eq_of_toInt_eq
  rw [BitVec.toInt_sshiftRight, Int.shiftRight_eq_div_pow,
    BitVec.toInt_ofInt_eq_self (by decide) hl hu,
    BitVec.toInt_ofInt_eq_self (by decide) (by omega) (by omega)]
  rfl

theorem branchForm?_encode (i : Instr) (form : BranchForm) (hf : i.form? = some form) :
    branchForm? i.encode = some form := by
  cases i with
  | b | bl | bCond | cbz =>
    cases hf
    simp (disch := decide) [branchForm?, Instr.encode, BitVec.and_or_distrib_right, field_and_num,
      imm26_eq, imm19_eq]
  | _ => cases hf

theorem patchBranch_encode (i : Instr) (form : BranchForm) (hf : i.form? = some form) (d : Int)
    (hd : form.Reaches d) :
    patchBranch i.encode d = some (i.retarget (BitVec.ofInt 32 d)).encode := by
  rw [patchBranch_of_reaches (branchForm?_encode i form hf) hd]
  obtain ⟨h4, hl, hu⟩ := hd
  have hreach : form.reach < 0x7FFFFFFF := by cases form <;> decide
  have hwords := sshiftRight_ofInt d (by omega) (by omega)
  have hmask26 : field (BitVec.allOnes 26) 0 = 0x03FFFFFF := by decide
  have hmask19 : field (BitVec.allOnes 19) 5 = 0xFFFFE0 := by decide
  cases i with
  | b old | bl old =>
    cases hf
    simp only [BranchForm.put, BranchForm.width, BranchForm.start, hmask26, Instr.encode,
      Instr.retarget, imm26_eq, hwords, BitVec.and_or_distrib_right]
    rw [field_and_num _ _ _ (by decide)]
    simp
  | bCond cond old | cbz cond old =>
    cases hf
    simp only [BranchForm.put, BranchForm.width, BranchForm.start, hmask19, Instr.encode,
      Instr.retarget, imm19_eq, hwords, BitVec.and_or_distrib_right]
    rw [field_and_num _ 5 _ (by decide), field_and_keep _ 0 _ (by decide)]
    simp only [BitVec.or_assoc, BitVec.or_comm (field _ 0)]
    simp
  | _ => cases hf

theorem patchBranch_encode_none (i : Instr) (form : BranchForm) (hf : i.form? = some form) (d : Int)
    (hd : ¬ form.Reaches d) : patchBranch i.encode d = none :=
  patchBranch_of_not_reaches (branchForm?_encode i form hf) hd

theorem fits_retarget (i : Instr) (form : BranchForm) (hf : i.form? = some form) (d : Int)
    (hd : form.Reaches d) : (i.retarget (BitVec.ofInt 32 d)).Fits := by
  obtain ⟨h4, hl, hu⟩ := hd
  have hreach : form.reach < 0x7FFFFFFF := by cases form <;> decide
  have hd : (BitVec.ofInt 32 d).toInt = d :=
    BitVec.toInt_ofInt_eq_self (by decide) (by omega) (by omega)
  cases i with
  | b | bl | bCond | cbz =>
    cases hf
    simp only [Instr.retarget, Instr.Fits, BranchForm.reach, hd] at hl hu ⊢
    omega
  | _ => cases hf

/-! ## Words that are no branches -/

/-- The bits that are the same in all four branches. -/
theorem branch_bits (o : Op) (w : Word) (hm : o.matched w)
    (ho : o = .b ∨ o = .bl ∨ o = .bCond ∨ o = .cbz) : w &&& 0x1C000000 = 0x14000000 := by
  have hsub : o.mask &&& 0x1C000000 = 0x1C000000 := by
    rcases ho with rfl | rfl | rfl | rfl <;> decide
  have hpat : o.pattern &&& 0x1C000000 = 0x14000000 := by
    rcases ho with rfl | rfl | rfl | rfl <;> decide
  simp only [Op.matched, decide_eq_true_eq] at hm
  rw [and_submask hm _ hsub, hpat]

theorem field_shift (shift : BitVec 8) :
    field (shift / 16#8) 21 = field ((shift / 16#8).setWidth 4) 21 := by
  apply field_narrow
  rw [BitVec.toNat_udiv]
  have := shift.isLt
  show shift.toNat / 16 < 16
  omega

theorem encode_bits (i : Instr) (hi : i.displacement? = none) (hr : i ≠ .ret)
    (hb : ∀ rn, i ≠ .blr rn) : i.encode &&& 0x1C000000 ≠ 0x14000000 := by
  cases i with
  | b | bl | bCond | cbz => cases hi
  | ret => contradiction
  | blr rn => exact absurd rfl (hb rn)
  | movz | movn | movk =>
    simp (disch := decide) [Instr.encode, BitVec.and_or_distrib_right, field_and_num, field_shift]
  | _ =>
    simp (disch := decide) [Instr.encode, BitVec.and_or_distrib_right, field_and_num, imm12_eq,
      imm9_eq, imm7_eq, pageField_eq, scaled]

theorem and_of_branchForm? {w : Word} {form : BranchForm} (h : branchForm? w = some form) :
    w &&& 0x1C000000 = 0x14000000 := by
  unfold branchForm? at h
  split at h
  · exact and_submask ‹_› 0x1C000000 (by decide)
  · split at h
    · rcases ‹_ ∨ _› with hbits | hbits
      · exact and_submask hbits 0x1C000000 (by decide)
      · exact and_submask hbits 0x1C000000 (by decide)
    · cases h

theorem branchForm?_eq_none {i : Instr} (hi : i.form? = none) : branchForm? i.encode = none := by
  cases i with
  | b | bl | bCond | cbz => cases hi
  -- a branch to a register has those bits too
  | ret => decide
  | blr rn =>
    simp (disch := decide) [branchForm?, Instr.encode, BitVec.and_or_distrib_right, field_and_num]
  | _ =>
    apply Option.eq_none_iff_forall_ne_some.mpr
    intro form hform
    refine absurd (and_of_branchForm? hform) (encode_bits _ rfl ?_ ?_)
    · intro h
      cases h
    · intro rn h
      cases h

theorem displacement?_decode (i j : Instr) (hi : i.displacement? = none)
    (hj : decode i.encode = some j) : j.displacement? = none := by
  by_cases hr : i = .ret ∨ ∃ rn, i = .blr rn
  · have hfits : i.Fits := by rcases hr with rfl | ⟨rn, rfl⟩ <;> trivial
    rw [decode_encode i hfits] at hj
    cases hj
    rcases hr with rfl | ⟨rn, rfl⟩ <;> rfl
  · simp only [not_or, not_exists] at hr
    have hbits := encode_bits i hi hr.1 hr.2
    obtain ⟨o, ho, rfl⟩ := Option.map_eq_some_iff.mp hj
    have hm := List.find?_some ho
    cases o with
    | b | bl | bCond | cbz => exact absurd (branch_bits _ _ hm (by decide)) hbits
    | sub | orr =>
      simp only [Op.read]
      split <;> rfl
    | _ => rfl

end Armature.A64
