import Armature.Proofs.Addresses
import Armature.Proofs.LabelTables

/-!
# Encodings

A word tells which instruction it encodes, up to the two that are written in another way when their
first operand is zero. Patching a word gives the one that encodes the instruction with its new
operand, and only branches are taken for branches.
-/

namespace Armature

open A64

namespace A64

/-! ## One word, one instruction -/

/-- The first is how the second is written when its first operand is zero. -/
inductive Alias : Instr → Instr → Prop where
  | mov (rd rm : XReg) : Alias (.mov rd rm) (.orr rd .zr rm)
  | neg (rd rm : XReg) : Alias (.neg rd rm) (.sub rd .zr rm)

theorem unaliased_cases (i : Instr) : i.unaliased = i ∨ Alias i.unaliased i := by
  cases i with
  | orr rd rn rm =>
    by_cases hzero : rn = .zr
    · subst hzero
      exact .inr (.mov rd rm)
    · exact .inl (if_neg hzero)
  | sub rd rn rm =>
    by_cases hzero : rn = .zr
    · subst hzero
      exact .inr (.neg rd rm)
    · exact .inl (if_neg hzero)
  | _ => exact .inl rfl

theorem Alias.unique {i j k : Instr} (hi : Alias k i) (hj : Alias k j) : i = j := by
  cases hi <;> cases hj <;> rfl

theorem Alias.encode_eq {i j : Instr} (h : Alias i j) : i.encode = j.encode := by
  have hzero : field XReg.zr.num 5 = 0x3E0 := by decide
  cases h with
  | mov rd rm | neg rd rm =>
    simp only [Instr.encode, hzero]
    rw [BitVec.or_assoc _ _ (0x3E0 : Word), BitVec.or_comm _ (0x3E0 : Word), ← BitVec.or_assoc]
    rfl

/-- Instructions whose operands fit have the same word only if they are the same, or if one is the
other's alias. -/
theorem same_word_iff (i j : Instr) (hi : i.Fits) (hj : j.Fits) :
    i.encode = j.encode ↔ i = j ∨ Alias i j ∨ Alias j i := by
  constructor
  · intro heq
    have hsame : i.unaliased = j.unaliased := by
      apply Option.some.inj
      rw [← decode_encode i hi, ← decode_encode j hj, heq]
    have hj := unaliased_cases j
    rw [← hsame] at hj
    rcases unaliased_cases i with hi | hi
    · rw [hi] at hj
      exact hj.elim .inl fun halias => .inr (.inl halias)
    · rcases hj with hj | hj
      · exact .inr (.inr (hj ▸ hi))
      · exact .inl (hi.unique hj)
  · rintro (rfl | halias | halias)
    · rfl
    · exact halias.encode_eq
    · exact halias.encode_eq.symm

/-- A subtraction from zero, and two moves of a pair at the ends of their range. -/
theorem pairs_differ :
    (Instr.neg .x1 .x2).encode = (Instr.sub .x1 .zr .x2).encode ∧
      (Instr.pushPair .x29 .x30 .sp (-512)).Fits ∧ (Instr.popPair .x29 .x30 .sp 504).Fits ∧
      (Instr.pushPair .x29 .x30 .sp (-512)).encode ≠ (Instr.popPair .x29 .x30 .sp 504).encode := by
  have hpush : (Instr.pushPair .x29 .x30 .sp (-512)).Fits := by simp [Instr.Fits]
  have hpop : (Instr.popPair .x29 .x30 .sp 504).Fits := by simp [Instr.Fits]
  refine ⟨(same_word_iff (.neg .x1 .x2) (.sub .x1 .zr .x2) trivial trivial).mpr
    (.inr (.inl (.neg .x1 .x2))), hpush, hpop, ?_⟩
  intro heq
  rcases (same_word_iff _ _ hpush hpop).mp heq with heq | halias | halias
  · cases heq
  · cases halias
  · cases halias

/-! ## Patched branches -/

theorem patchBranch_eq_some_iff {i : Instr} {form : BranchForm} (hf : i.form? = some form) (d : Int)
    (w : Word) :
    patchBranch i.encode d = some w ↔
      form.InRange d ∧ ∃ offset : BitVec 32, offset.toInt = d ∧ w = (i.retarget offset).encode := by
  by_cases hd : form.InRange d
  · obtain ⟨-, hl, hu⟩ := (form.reaches_iff d).mpr hd
    have hreach : form.reach ≤ 0x7FFFFFC := by cases form <;> decide
    rw [patchBranch_encode i form hf d ((form.reaches_iff d).mpr hd), Option.some.injEq]
    constructor
    · rintro rfl
      exact ⟨hd, _, BitVec.toInt_ofInt_eq_self (by decide) (by omega) (by omega), rfl⟩
    · rintro ⟨-, offset, rfl, rfl⟩
      rw [BitVec.ofInt_toInt]
  · rw [patchBranch_encode_none i form hf d (by rwa [form.reaches_iff])]
    simp [hd]

/-! ## Patched page counts -/

theorem getLsbD_pageCount (w : Word) {i : Nat} (hi : i < 21) :
    (Op.pageCount w).getLsbD i = if i < 2 then w.getLsbD (29 + i) else w.getLsbD (3 + i) := by
  simp only [Op.pageCount, BitVec.getLsbD_signExtend, BitVec.getLsbD_append,
    BitVec.getLsbD_extractLsb', hi, show i < 32 by omega, show i - 2 < 19 by omega]
  by_cases hlow : i < 2
  · simp [hlow]
  · simp [hlow, show 5 + (i - 2) = 3 + i by omega]

theorem encode_adrp {w : Word} (h : w &&& 0x9F000000 = 0x90000000) :
    (Instr.adrp (Op.xreg w 0) (Op.pageCount w)).encode = w := by
  have hlow : (Op.pageCount w).setWidth 2 = w.extractLsb' 29 2 := by
    apply BitVec.eq_of_getLsbD_eq
    intro i hi
    rw [BitVec.getLsbD_setWidth, getLsbD_pageCount w (by omega), BitVec.getLsbD_extractLsb',
      if_pos hi]
  have hhigh : (Op.pageCount w).extractLsb' 2 19 = w.extractLsb' 5 19 := by
    apply BitVec.eq_of_getLsbD_eq
    intro i hi
    rw [BitVec.getLsbD_extractLsb', getLsbD_pageCount w (by omega), BitVec.getLsbD_extractLsb',
      if_neg (by omega), ← Nat.add_assoc]
  have hall : (0x9F000000 ||| (field (BitVec.allOnes 2) 29 ||| field (BitVec.allOnes 19) 5) |||
      field (BitVec.allOnes 5) 0 : Word) = BitVec.allOnes 32 := by decide
  rw [Instr.encode, pageField_eq, hlow, hhigh, Op.xreg, field_extract, field_extract, field_extract,
    ← h, ← BitVec.and_or_distrib_left, ← BitVec.and_or_distrib_left, ← BitVec.and_or_distrib_left,
    hall, BitVec.and_allOnes]

theorem patchAdrp_eq_some_iff (w w' : Word) (pages : Int) :
    patchAdrp w pages = some w' ↔
      (-2 ^ 20 ≤ pages ∧ pages < 2 ^ 20) ∧ ∃ (rd : XReg) (old new : BitVec 32),
        w = (Instr.adrp rd old).encode ∧ new.toInt = pages ∧ w' = (Instr.adrp rd new).encode := by
  constructor
  · intro h
    have hcond : ¬ (w &&& 0x9F000000 ≠ 0x90000000 ∨ pages < -0x100000 ∨ 0x100000 ≤ pages) := by
      intro hcond
      rw [patchAdrp, if_pos hcond] at h
      cases h
    simp only [not_or, ne_eq, not_not, Int.not_lt, Int.not_le] at hcond
    obtain ⟨hopcode, hl, hu⟩ := hcond
    have hdecode := (decode_adrp_iff w _ _).mpr ⟨hopcode, rfl, rfl⟩
    rw [patchAdrp_of_decode hdecode hl hu, Option.some.injEq] at h
    exact ⟨⟨hl, hu⟩, _, _, _, (encode_adrp hopcode).symm,
      BitVec.toInt_ofInt_eq_self (by decide) (by omega) (by omega), h.symm⟩
  · rintro ⟨⟨hl, hu⟩, rd, old, new, rfl, rfl, rfl⟩
    obtain ⟨_, hdecode⟩ := decode_adrp_encode rd old
    rw [patchAdrp_of_decode hdecode hl hu, BitVec.ofInt_toInt]

end A64

/-! ## Words that are no branches -/

namespace Asm.LabelTable

theorem resolveAll_keeps (t : LabelTable) {fixups : List Fixup} {code : Buffer} {pos : Nat}
    {w : Word} (hw : code.word? pos = some w) (hform : branchForm? w = none)
    (hsites : ∀ f ∈ fixups, f.site = pos ∨ f.site + 4 ≤ pos ∨ pos + 4 ≤ f.site) :
    (t.resolveAll fixups code).1.word? pos = some w ∧
      ((∃ f ∈ fixups, f.site = pos) → ∃ d, (t.resolveAll fixups code).2 = .error d) := by
  induction fixups generalizing code with
  | nil =>
    refine ⟨hw, ?_⟩
    rintro ⟨f, hf, -⟩
    cases hf
  | cons f rest ih =>
    rw [resolveAll]
    rcases t.patched_cases code f with ⟨-, d, hp⟩ | ⟨-, v, v', offset, hp, hv, -, hretargeted⟩
    · rw [hp]
      exact ⟨hw, fun _ => ⟨d, rfl⟩⟩
    · have hne : f.site ≠ pos := by
        rintro rfl
        obtain rfl := Option.some.inj (hw.symm.trans hv)
        obtain ⟨op, hop, -⟩ := hretargeted
        rw [branchForm?_eq, hop] at hform
        cases hform
      have hkept : (code.overwrite f.site v'.bytes).word? pos = some w := by
        rw [← hw]
        refine Buffer.word?_congr fun i hl hu => ?_
        rcases (hsites f List.mem_cons_self).resolve_left hne with hbefore | hafter
        · exact code.getElem?_overwrite_of_ge _ _ _ (by rw [Word.length_bytes]; omega)
        · exact code.getElem?_overwrite_of_lt _ _ _ (by omega)
      rw [hp]
      obtain ⟨hword, herror⟩ := ih hkept fun g hg => hsites g (List.mem_cons_of_mem f hg)
      refine ⟨hword, ?_⟩
      rintro ⟨g, hg, hsite⟩
      have hrest : g ∈ rest := (List.mem_cons.mp hg).resolve_left fun heq => hne (heq ▸ hsite)
      exact herror ⟨g, hrest, hsite⟩

end Asm.LabelTable

/-- Patching gives the words that encoding gives. A branch takes each displacement that its field
can hold and an `adrp` each page count, whatever they held before, and nothing else is taken. The
word of another instruction is not taken for a branch, so that resolving never changes it, and
fails if it should. -/
theorem patched_as_encoded :
    (∀ (i : Instr) (form : BranchForm) (d : Int) (w : Word), i.form? = some form →
      (patchBranch i.encode d = some w ↔ form.InRange d ∧
        ∃ offset : BitVec 32, offset.toInt = d ∧ w = (i.retarget offset).encode)) ∧
    (∀ (w w' : Word) (pages : Int), patchAdrp w pages = some w' ↔
      (-2 ^ 20 ≤ pages ∧ pages < 2 ^ 20) ∧ ∃ (rd : XReg) (old new : BitVec 32),
        w = (Instr.adrp rd old).encode ∧ new.toInt = pages ∧ w' = (Instr.adrp rd new).encode) ∧
    ∀ i : Instr, i.form? = none → branchForm? i.encode = none ∧
      ∀ (t : Asm.LabelTable) (code : Buffer) (pos : Nat), code.word? pos = some i.encode →
        (∀ f ∈ t.fixups, f.site = pos ∨ f.site + 4 ≤ pos ∨ pos + 4 ≤ f.site) →
        (t.resolve code).1.word? pos = some i.encode ∧
          ((∃ f ∈ t.fixups, f.site = pos) → ∃ d, (t.resolve code).2 = .error d) := by
  refine ⟨fun i form d w hf => patchBranch_eq_some_iff hf d w, patchAdrp_eq_some_iff,
    fun i hi => ⟨branchForm?_eq_none hi, fun t code pos hw hsites => ?_⟩⟩
  simp only [← Array.mem_toList_iff] at hsites ⊢
  exact t.resolveAll_keeps hw (branchForm?_eq_none hi) hsites

/-- A loop that goes back to a comparison, and a fixup that would overwrite the comparison. -/
theorem loopEnd_patched :
    let code := Buffer.ofWords [(Instr.cmp .x0 .x1).encode, (Instr.bCond .ge 0x40).encode]
    let table (site : Nat) : Asm.LabelTable := ⟨#[⟨.loopTop, some 0⟩], #[⟨site, ⟨0⟩⟩]⟩
    patchBranch (Instr.bCond .ge 0x40).encode (-0x100000) =
        some (Instr.bCond .ge (-0x100000)).encode ∧
      patchBranch (Instr.bCond .ge 0x40).encode 0x100000 = none ∧
      patchAdrp (Instr.adrp .x16 5).encode (-0x100000) =
        some (Instr.adrp .x16 (-0x100000)).encode ∧
      ((table 4).resolve code).1.word? 0 = some (Instr.cmp .x0 .x1).encode ∧
      ((table 0).resolve code).1.word? 0 = some (Instr.cmp .x0 .x1).encode ∧
      ∃ d, ((table 0).resolve code).2 = .error d := by
  intro code table
  obtain ⟨hbranch, hadrp, hothers⟩ := patched_as_encoded
  have hback (w : Word) := hbranch (.bCond .ge 0x40) .imm19 (-0x100000) w rfl
  have hfar (w : Word) := hbranch (.bCond .ge 0x40) .imm19 0x100000 w rfl
  have hword : code.word? 0 = some (Instr.cmp .x0 .x1).encode := Buffer.word?_ofWords _ 0
  obtain ⟨-, hkept⟩ := hothers (.cmp .x0 .x1) rfl
  obtain ⟨hafter, -⟩ := hkept (table 4) code 0 hword (by simp [table])
  obtain ⟨hself, herror⟩ := hkept (table 0) code 0 hword (by simp [table])
  refine ⟨(hback _).mpr ⟨by decide, -0x100000, by decide, rfl⟩, ?_,
    (hadrp _ _ _).mpr ⟨by decide, .x16, 5, -0x100000, rfl, by decide, rfl⟩, hafter, hself,
    herror (by simp [table])⟩
  apply Option.eq_none_iff_forall_ne_some.mpr
  intro w hw
  exact absurd ((hfar w).mp hw).1 (by decide)

end Armature
