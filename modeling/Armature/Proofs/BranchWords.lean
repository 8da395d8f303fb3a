import Armature.Proofs.Branches

/-!
# Words of branches

The words that are branches, read field by field: the two unconditional branches, those on a
condition, and those on whether a register is zero, also of forms that compiled code does not have.
Patching such a word changes its displacement and nothing else.
-/

namespace Armature.A64

/-! ## Reading a word -/

/-- What a branch does, apart from how far it goes. -/
inductive BranchOp where
  | b
  | bl
  | bCond (cond : BitVec 4)
  /-- Compares a register with zero, or only its low half if it is not `wide`. -/
  | compare (nonzero wide : Bool) (rt : BitVec 5)
deriving DecidableEq

def BranchOp.form : BranchOp → BranchForm
  | b | bl => .imm26
  | bCond _ | compare .. => .imm19

def branchOp? (w : Word) : Option BranchOp :=
  if w.extractLsb' 26 6 = 0b000101 then some .b
  else if w.extractLsb' 26 6 = 0b100101 then some .bl
  else if w.extractLsb' 24 8 = 0b01010100 ∧ w.getLsbD 4 = false then
    some (.bCond (w.extractLsb' 0 4))
  else if w.extractLsb' 25 6 = 0b011010 then
    some (.compare (w.getLsbD 24) (w.getLsbD 31) (w.extractLsb' 0 5))
  else none

namespace BranchForm

/-- The displacement in bytes that a word of the form holds. Its field counts words and has a
sign. -/
def displacement (form : BranchForm) (w : Word) : Int :=
  4 * (w.extractLsb' form.start form.width).toInt

/-- The field can hold the displacement, as a number of words in two's complement. -/
def InRange (form : BranchForm) (d : Int) : Prop :=
  d % 4 = 0 ∧ -2 ^ (form.width - 1) ≤ d / 4 ∧ d / 4 < 2 ^ (form.width - 1)

instance (form : BranchForm) (d : Int) : Decidable (form.InRange d) :=
  inferInstanceAs (Decidable (_ ∧ _))

theorem reaches_iff (form : BranchForm) (d : Int) : form.Reaches d ↔ form.InRange d := by
  cases form <;> simp only [Reaches, reach, InRange, width] <;> omega

end BranchForm

/-- The operation of a word that is a branch, and its displacement. -/
def branch? (w : Word) : Option (BranchOp × Int) :=
  (branchOp? w).map fun op => (op, op.form.displacement w)

/-! ## Fields bit by bit -/

section

variable {w w' : Word}

theorem and_eq_iff (w m v : Word) (hv : v &&& m = v) :
    w &&& m = v ↔ ∀ i < 32, m.getLsbD i = true → w.getLsbD i = v.getLsbD i := by
  constructor
  · rintro rfl i hi hm
    rw [BitVec.getLsbD_and, hm, Bool.and_true]
  · intro h
    rw [← hv]
    apply BitVec.eq_of_getLsbD_eq
    intro i hi
    rw [BitVec.getLsbD_and, BitVec.getLsbD_and]
    cases hm : m.getLsbD i with
    | false => simp
    | true => rw [h i hi hm]

theorem extract_eq_iff {n : Nat} (w : Word) (p : Nat) (v : BitVec n) :
    w.extractLsb' p n = v ↔ ∀ i < n, w.getLsbD (p + i) = v.getLsbD i := by
  constructor
  · rintro rfl i hi
    simp [hi]
  · intro h
    apply BitVec.eq_of_getLsbD_eq
    intro i hi
    simp [hi, h i hi]

theorem extract_congr (p n : Nat) (h : ∀ i, p ≤ i → i < p + n → w'.getLsbD i = w.getLsbD i) :
    w'.extractLsb' p n = w.extractLsb' p n := by
  rw [extract_eq_iff]
  intro i hi
  rw [h (p + i) (by omega) (by omega)]
  simp [hi]

theorem getLsbD_of_extract {p n : Nat} (h : w'.extractLsb' p n = w.extractLsb' p n) (i : Nat)
    (hl : p ≤ i) (hu : i < p + n) : w'.getLsbD i = w.getLsbD i := by
  have hbit := (extract_eq_iff w' p _).mp h (i - p) (by omega)
  rw [BitVec.getLsbD_extractLsb', Nat.add_sub_cancel' hl] at hbit
  simpa [show i - p < n by omega] using hbit

end

/-! ## Which words are branches -/

theorem unconditional_iff (w : Word) : w &&& 0x7C000000 = 0x14000000 ↔
    w.extractLsb' 26 6 = 0b000101 ∨ w.extractLsb' 26 6 = 0b100101 := by
  rw [and_eq_iff _ _ _ (by decide), extract_eq_iff, extract_eq_iff]
  simp only [Nat.forall_lt_succ_right]
  simp [← and_or_left]

theorem conditional_iff (w : Word) : w &&& 0xFF000010 = 0x54000000 ↔
    w.extractLsb' 24 8 = 0b01010100 ∧ w.getLsbD 4 = false := by
  rw [and_eq_iff _ _ _ (by decide), extract_eq_iff]
  simp only [Nat.forall_lt_succ_right]
  simp [and_assoc, and_comm]

theorem comparing_iff (w : Word) : w &&& 0x7E000000 = 0x34000000 ↔
    w.extractLsb' 25 6 = 0b011010 := by
  rw [and_eq_iff _ _ _ (by decide), extract_eq_iff]
  simp only [Nat.forall_lt_succ_right]
  simp

theorem branchForm?_eq (w : Word) : branchForm? w = (branchOp? w).map BranchOp.form := by
  simp only [branchForm?, unconditional_iff, conditional_iff, comparing_iff, branchOp?]
  grind [BranchOp.form]

section

variable {w w' : Word} {op : BranchOp}

theorem branchOp?_congr (hop : branchOp? w = some op)
    (h : ∀ i, i < op.form.start ∨ op.form.start + op.form.width ≤ i →
      w'.getLsbD i = w.getLsbD i) : branchOp? w' = some op := by
  cases op with
  | b =>
    have hbits : w.extractLsb' 26 6 = 0b000101 := by
      unfold branchOp? at hop
      grind
    rw [branchOp?, extract_congr 26 6 fun i hi _ => h i (.inr hi), if_pos hbits]
  | bl =>
    have hbits : w.extractLsb' 26 6 = 0b100101 := by
      unfold branchOp? at hop
      grind
    rw [branchOp?, extract_congr 26 6 fun i hi _ => h i (.inr hi),
      if_neg (by rw [hbits]; decide), if_pos hbits]
  | bCond | compare =>
    have hlow (i : Nat) (hi : i < 5) := h i (.inl hi)
    have hhigh (i : Nat) (hi : 24 ≤ i) := h i (.inr hi)
    unfold branchOp? at hop ⊢
    rw [extract_congr 26 6 fun i hi _ => hhigh i (by omega),
      extract_congr 24 8 fun i hi _ => hhigh i hi,
      extract_congr 25 6 fun i hi _ => hhigh i (by omega),
      extract_congr 0 4 fun i _ hi => hlow i (by omega),
      extract_congr 0 5 fun i _ hi => hlow i (by omega), hlow 4 (by omega), hhigh 24 (by omega),
      hhigh 31 (by omega)]
    exact hop

theorem getLsbD_of_branchOp? (h : branchOp? w = some op) (h' : branchOp? w' = some op) (i : Nat)
    (hi : i < op.form.start ∨ op.form.start + op.form.width ≤ i) :
    w'.getLsbD i = w.getLsbD i := by
  by_cases h32 : 32 ≤ i
  · rw [BitVec.getLsbD_of_ge _ _ h32, BitVec.getLsbD_of_ge _ _ h32]
  unfold branchOp? at h h'
  cases op with
  | b | bl =>
    have htop : w'.extractLsb' 26 6 = w.extractLsb' 26 6 := by grind
    exact getLsbD_of_extract htop i (hi.resolve_left (Nat.not_lt_zero i)) (by omega)
  | bCond cond =>
    have htop : w'.extractLsb' 24 8 = w.extractLsb' 24 8 := by grind
    have hcond : w'.extractLsb' 0 4 = w.extractLsb' 0 4 := by grind
    have hbit : w'.getLsbD 4 = w.getLsbD 4 := by grind
    rcases hi with hi | hi
    · have hi : i < 5 := hi
      rcases Nat.lt_or_eq_of_le (Nat.le_of_lt_succ hi) with hi | rfl
      · exact getLsbD_of_extract hcond i (Nat.zero_le i) (by omega)
      · exact hbit
    · exact getLsbD_of_extract htop i hi (by omega)
  | compare nonzero wide rt =>
    have htop : w'.extractLsb' 25 6 = w.extractLsb' 25 6 := by grind
    have hrt : w'.extractLsb' 0 5 = w.extractLsb' 0 5 := by grind
    have hnonzero : w'.getLsbD 24 = w.getLsbD 24 := by grind
    have hwide : w'.getLsbD 31 = w.getLsbD 31 := by grind
    rcases hi with hi | hi
    · exact getLsbD_of_extract hrt i (Nat.zero_le i) hi
    · have hi : 24 ≤ i := hi
      have hcases : i = 24 ∨ i = 31 ∨ (25 ≤ i ∧ i < 31) := by omega
      rcases hcases with rfl | rfl | hi
      · exact hnonzero
      · exact hwide
      · exact getLsbD_of_extract htop i hi.1 hi.2

end

theorem branch?_inj {w w' : Word} {r : BranchOp × Int} (h : branch? w = some r)
    (h' : branch? w' = some r) : w' = w := by
  obtain ⟨op, hop, rfl⟩ := Option.map_eq_some_iff.mp h
  obtain ⟨op', hop', heq⟩ := Option.map_eq_some_iff.mp h'
  obtain rfl : op' = op := congrArg Prod.fst heq
  have hd : op'.form.displacement w' = op'.form.displacement w := congrArg Prod.snd heq
  have hfield : w'.extractLsb' op'.form.start op'.form.width =
      w.extractLsb' op'.form.start op'.form.width := by
    apply BitVec.eq_of_toInt_eq
    simp only [BranchForm.displacement] at hd
    omega
  apply BitVec.eq_of_getLsbD_eq
  intro i hi
  by_cases hout : i < op'.form.start ∨ op'.form.start + op'.form.width ≤ i
  · exact getLsbD_of_branchOp? hop hop' i hout
  · exact getLsbD_of_extract hfield i (by omega) (by omega)

/-! ## Retargeted branches -/

/-- The second word is the same branch as the first, bit by bit outside of its displacement, and the
displacement is `d`. -/
def Retargeted (w w' : Word) (d : Int) : Prop :=
  ∃ op, branchOp? w = some op ∧ branch? w' = some (op, d) ∧
    ∀ i, i < op.form.start ∨ op.form.start + op.form.width ≤ i → w'.getLsbD i = w.getLsbD i

section

variable {w₁ w₂ w₃ : Word} {d d' : Int}

theorem branchOp?_of_branch? {w : Word} {op : BranchOp} (h : branch? w = some (op, d)) :
    branchOp? w = some op := by
  obtain ⟨op', hop, heq⟩ := Option.map_eq_some_iff.mp h
  obtain ⟨rfl, -⟩ := Prod.mk.injEq .. ▸ heq
  exact hop

theorem retargeted_of_branch? {op : BranchOp} (h : branchOp? w₁ = some op)
    (h' : branch? w₂ = some (op, d)) : Retargeted w₁ w₂ d :=
  ⟨op, h, h', getLsbD_of_branchOp? h (branchOp?_of_branch? h')⟩

theorem Retargeted.branchOp?_eq (h : Retargeted w₁ w₂ d) : branchOp? w₂ = branchOp? w₁ := by
  obtain ⟨op, hop, hbranch, -⟩ := h
  rw [hop, branchOp?_of_branch? hbranch]

theorem Retargeted.congr_left (h : Retargeted w₂ w₃ d) (hop : branchOp? w₂ = branchOp? w₁) :
    Retargeted w₁ w₃ d := by
  obtain ⟨op, hop', hbranch, -⟩ := h
  exact retargeted_of_branch? (hop ▸ hop') hbranch

theorem Retargeted.eq_self (h : Retargeted w₁ w₂ d) (h' : Retargeted w₂ w₃ d) : w₃ = w₂ := by
  obtain ⟨op, -, hbranch, -⟩ := h
  obtain ⟨op', hop', hbranch', -⟩ := h'
  obtain rfl : op = op' := Option.some.inj ((branchOp?_of_branch? hbranch).symm.trans hop')
  exact branch?_inj hbranch hbranch'

end

/-! ## Patching -/

namespace BranchForm

theorem getLsbD_put (form : BranchForm) (w words : Word) {i : Nat} (hi : i < 32) :
    (form.put w words).getLsbD i =
      if form.start ≤ i ∧ i < form.start + form.width then words.getLsbD (i - form.start)
      else w.getLsbD i := by
  rw [put, BitVec.getLsbD_or, BitVec.getLsbD_and, BitVec.getLsbD_not, getLsbD_field _ _ _ hi,
    getLsbD_field _ _ _ hi, BitVec.getLsbD_allOnes, BitVec.getLsbD_setWidth]
  by_cases hl : form.start ≤ i
  · have hwidth : i < form.start + form.width ↔ i - form.start < form.width := by omega
    by_cases hu : i - form.start < form.width <;> simp [hi, hl, hu, hwidth]
  · simp [hi, hl]

theorem extract_put (form : BranchForm) (w words : Word) :
    (form.put w words).extractLsb' form.start form.width = words.setWidth form.width := by
  rw [extract_eq_iff]
  intro i hi
  have hle : form.start + form.width ≤ 32 := by cases form <;> decide
  rw [form.getLsbD_put _ _ (by omega), if_pos (by omega), Nat.add_sub_cancel_left,
    BitVec.getLsbD_setWidth]
  simp [hi]

end BranchForm

section

variable {w : Word} {op : BranchOp} {d : Int} (hop : branchOp? w = some op)

include hop

theorem patchBranch_of_inRange (hd : op.form.InRange d) :
    patchBranch w d = some (op.form.put w (BitVec.ofInt 32 (d / 4))) :=
  patchBranch_of_reaches (by rw [branchForm?_eq, hop, Option.map_some])
    ((op.form.reaches_iff d).mpr hd)

theorem patchBranch_of_not_inRange (hd : ¬ op.form.InRange d) : patchBranch w d = none :=
  patchBranch_of_not_reaches (by rw [branchForm?_eq, hop, Option.map_some])
    (by rwa [op.form.reaches_iff])

theorem branch?_put (hd : op.form.InRange d) :
    branch? (op.form.put w (BitVec.ofInt 32 (d / 4))) = some (op, d) := by
  have hsame : branchOp? (op.form.put w (BitVec.ofInt 32 (d / 4))) = some op := by
    refine branchOp?_congr hop fun i hi => ?_
    by_cases h32 : i < 32
    · rw [op.form.getLsbD_put _ _ h32, if_neg (by omega)]
    · rw [BitVec.getLsbD_of_ge _ _ (by omega), BitVec.getLsbD_of_ge _ _ (by omega)]
  obtain ⟨h4, hl, hu⟩ := hd
  have hwords : ((BitVec.ofInt 32 (d / 4)).setWidth op.form.width).toInt = d / 4 := by
    cases hform : op.form with
    | imm26 | imm19 =>
      rw [hform, BranchForm.width] at hl hu
      have h32 : (BitVec.ofInt 32 (d / 4)).toInt = d / 4 :=
        BitVec.toInt_ofInt_eq_self (by decide) (by omega) (by omega)
      rw [BranchForm.width, toInt_setWidth_of_fits, h32]
      all_goals omega
  have hd4 : 4 * (d / 4) = d := by omega
  rw [branch?, hsame, Option.map_some, BranchForm.displacement, BranchForm.extract_put, hwords, hd4]

end

end Armature.A64
