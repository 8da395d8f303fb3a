import Armature.Proofs.ControlFlow

/-!
# Frame discipline

What an instruction may do to the frame of its function. Values are pushed and popped in steps of 16
bytes, and how far the stack pointer is below its place after the prologue can be read off the words
from the first one on.
-/

namespace Armature

open A64 (DReg Instr XReg decode)

/-! ## Instructions -/

namespace A64.Instr

/-- The register, if it is not the one that reads as zero. -/
def general (r : XReg) : List XReg := if r = .zr then [] else [r]

/-- The registers that an instruction changes. Number 31 is one of them only where it is the stack
pointer. -/
def written : Instr → List XReg
  | movz rd _ _ | movn rd _ _ | movk rd _ _ | adrp rd _ | mov rd _ | neg rd _ | add rd _ _
  | sub rd _ _ | mul rd _ _ | sdiv rd _ _ | msub rd _ _ _ | and rd _ _ | orr rd _ _ | cset rd _
  | csel rd _ _ _ | ldrX rd _ _ | ldrXAt rd _ _ => general rd
  | addImm rd _ _ | subImm rd _ _ => [rd]
  | popX rt rn _ => rn :: general rt
  | popPair rt₁ rt₂ rn _ => rn :: general rt₁ ++ general rt₂
  | pushX _ rn _ | pushD _ rn _ | popD _ rn _ | pushPair _ _ rn _ => [rn]
  | bl _ | blr _ => [.x30]
  | cmpImm .. | cmp .. | fadd .. | fsub .. | fmul .. | fdiv .. | fmsub .. | frintz .. | fneg ..
  | fmov .. | fcmp .. | fcmpZero .. | scvtf .. | b _ | bCond .. | ret | cbz .. | strX .. | ldrD ..
  | strD .. | ldrDAt .. => []

/-- How far a value that is pushed or popped moves the stack pointer. -/
def move : Instr → Int
  | pushX _ rn offset | pushD _ rn offset => if rn = .sp ∧ offset = -16 then -16 else 0
  | popX _ rn offset | popD _ rn offset => if rn = .sp ∧ offset = 16 then 16 else 0
  | _ => 0

/-- The base of a load or a store. -/
def base? : Instr → Option XReg
  | ldrX _ rn _ | strX _ rn _ | ldrD _ rn _ | strD _ rn _ | ldrXAt _ rn _ | ldrDAt _ rn _
  | pushX _ rn _ | popX _ rn _ | pushD _ rn _ | popD _ rn _ | pushPair _ _ rn _
  | popPair _ _ rn _ => some rn
  | _ => none

/-- The offset of a load or a store that does not move its base. -/
def offset? : Instr → Option (BitVec 16)
  | ldrX _ _ offset | strX _ _ offset | ldrD _ _ offset | strD _ _ offset => some offset
  | _ => none

/-- The base and the offset of a store that does not move its base. -/
def store? : Instr → Option (XReg × BitVec 16)
  | strX _ rn offset | strD _ rn offset => some (rn, offset)
  | _ => none

def isImportCall : Instr → Bool
  | blr _ => true
  | _ => false

/-- What an instruction does where the stack pointer has moved by `d` since the prologue. -/
structure Disciplined (d : Int) (i : Instr) : Prop where
  /-- The stack pointer changes only where a value is pushed or popped. -/
  stack : .sp ∈ i.written → i.move = -16 ∨ i.move = 16
  below : d + i.move ≤ 0
  level : i.jump?.isSome ∨ i.isImportCall → d = 0
  frame : .frameBase ∉ i.written ∧ .x29 ∉ i.written
  slots : i.base? = some .frameBase →
    ∃ offset, i.offset? = some offset ∧ offset.toNat % 8 = 0 ∧ 64 ≤ offset.toNat ∧
      offset.toNat < 2112
  /-- Arguments are stored below the slots. -/
  arguments : ∀ offset, i.store? = some (.sp, offset) → d = 0 ∧ offset.toNat < 64

/-- A register that is not used for frames. -/
def isFree (r : XReg) : Bool := r ≠ .sp && r ≠ .frameBase && r ≠ .x29

/-- A register that no function saves for its caller. -/
def isTemporary (r : XReg) : Bool := r.num < 19

/-- The instruction computes in temporary registers, and does not address the frame. -/
def calm : Instr → Bool
  | movz rd _ shift | movn rd _ shift | movk rd _ shift =>
    isTemporary rd && (shift = 0 || shift = 16 || shift = 32 || shift = 48)
  | addImm rd _ imm => isTemporary rd && imm.toNat < 4096
  | cmpImm _ imm => imm.toNat < 4096
  | mov rd _ | neg rd _ | add rd _ _ | sub rd _ _ | mul rd _ _ | sdiv rd _ _ | msub rd _ _ _
  | and rd _ _ | orr rd _ _ | cset rd _ | csel rd _ _ _ => isTemporary rd
  | cmp .. | fadd .. | fsub .. | fmul .. | fdiv .. | fmsub .. | frintz .. | fneg .. | fmov ..
  | fcmp .. | fcmpZero .. | scvtf .. => true
  | ldrXAt rt rn _ => isTemporary rt && isTemporary rn
  | ldrDAt _ rn _ => isTemporary rn
  | _ => false

def isAdrp : Instr → Bool
  | adrp .. => true
  | _ => false

variable {i : Instr} {d : Int}

theorem mem_general {r rd : XReg} (h : r ∈ general rd) : r = rd := by
  unfold general at h
  split at h
  · cases h
  · exact List.mem_singleton.mp h

theorem free_of_temporary {r : XReg} (h : isTemporary r = true) : isFree r = true := by
  have hne (r' : XReg) (h' : isTemporary r' = false) : r ≠ r' := by
    rintro rfl
    rw [h] at h'
    cases h'
  simp [isFree, hne .sp rfl, hne .frameBase rfl, hne .x29 rfl]

theorem disciplined_of_free (hd : d ≤ 0) (hmove : i.move = 0)
    (hlevel : i.jump?.isSome ∨ i.isImportCall → d = 0) (hwritten : i.written.all isFree = true)
    (hbase : i.base?.all isFree = true) : i.Disciplined d := by
  have hnot (r : XReg) (hr : isFree r = false) : r ∉ i.written := by
    intro hmem
    rw [List.all_eq_true.mp hwritten r hmem] at hr
    cases hr
  have hnot_base (r : XReg) (hr : isFree r = false) : i.base? ≠ some r := by
    intro h
    rw [h, Option.all_some, hr] at hbase
    cases hbase
  refine ⟨fun h => absurd h (hnot _ rfl), by omega, hlevel, ⟨hnot _ rfl, hnot _ rfl⟩,
    fun h => absurd h (hnot_base _ rfl), ?_⟩
  intro offset h
  have hsp : i.base? = some .sp := by
    cases i with
    | strX | strD =>
      cases h
      rfl
    | _ => cases h
  exact absurd hsp (hnot_base _ rfl)

theorem fits_of_calm (h : i.calm = true) : i.Fits := by
  cases i <;> simp_all [calm, Fits, or_assoc]

theorem written_of_calm (h : i.calm = true) (r : XReg) (hr : r ∈ i.written) :
    isTemporary r = true := by
  cases i with
  | addImm =>
    rw [List.mem_singleton.mp hr]
    simp_all [calm]
  | movz | movn | movk | mov | neg | add | sub | mul | sdiv | msub | and | orr | cset | csel
  | ldrXAt =>
    rw [mem_general hr]
    simp_all [calm]
  | _ => simp_all [calm, written]

theorem free_base_of_calm (h : i.calm = true) : i.base?.all isFree = true := by
  cases i with
  | ldrXAt rt rn rm =>
    rw [calm, Bool.and_eq_true] at h
    exact free_of_temporary h.2
  | ldrDAt rt rn rm => exact free_of_temporary h
  | ldrX | strX | ldrD | strD | pushX | popX | pushD | popD | pushPair | popPair => cases h
  | _ => rfl

theorem calm_unaliased (h : i.calm = true) : i.unaliased.calm = true := by
  cases i with
  | orr | sub =>
    simp only [unaliased]
    split <;> exact h
  | _ => exact h

@[simp] theorem move_unaliased (i : Instr) : i.unaliased.move = i.move := by
  cases i with
  | orr | sub =>
    simp only [unaliased]
    split <;> rfl
  | _ => rfl

@[simp] theorem written_unaliased (i : Instr) : i.unaliased.written = i.written := by
  cases i with
  | orr | sub =>
    simp only [unaliased]
    split <;> rfl
  | _ => rfl

theorem move_of_calm (h : i.calm = true) : i.move = 0 := by
  cases i with
  | pushX | pushD | popX | popD => cases h
  | _ => rfl

theorem disciplined_of_calm (hd : d ≤ 0) (h : i.calm = true) : i.Disciplined d := by
  refine disciplined_of_free hd (move_of_calm h) ?_ ?_ (free_base_of_calm h)
  · cases i with
    | b | bCond | cbz | blr => cases h
    | _ => rintro (h' | h') <;> cases h'
  · rw [List.all_eq_true]
    exact fun r hr => free_of_temporary (written_of_calm h r hr)

theorem disciplined_branch (hd : d ≤ 0) (hi : i.displacement?.isSome)
    (hlevel : i.jump?.isSome → d = 0) : i.Disciplined d ∧ i.move = 0 := by
  cases i with
  | b | bCond | cbz => exact ⟨disciplined_of_free hd rfl (fun _ => hlevel rfl) rfl rfl, rfl⟩
  | bl => exact ⟨disciplined_of_free hd rfl nofun rfl rfl, rfl⟩
  | _ => cases hi

end A64.Instr

/-! ## Immediates that are cut -/

namespace A64

theorem exists_decode_addImm (rd rn : XReg) (imm : BitVec 16) :
    ∃ imm', decode (Instr.addImm rd rn imm).encode = some (.addImm rd rn imm') := by
  have hcut : (Instr.addImm rd rn imm).encode = (Instr.addImm rd rn (imm &&& 0xFFF)).encode := by
    simp only [Instr.encode, imm12, BitVec.and_assoc, BitVec.and_self]
  have hfits : (Instr.addImm rd rn (imm &&& 0xFFF)).Fits := by
    have hle := Nat.and_le_right (n := imm.toNat) (m := 0xFFF)
    show (imm &&& 0xFFF).toNat < 4096
    rw [BitVec.toNat_and]
    exact Nat.lt_succ_of_le hle
  exact ⟨_, by rw [hcut, decode_encode _ hfits]; rfl⟩

/-- A bit that is set anyway hides the one that an offset may have above its field. -/
theorem or_scaled (w : Word) (hw : w.getLsbD 22 = true) (offset : BitVec 16) :
    w ||| scaled offset = w ||| field ((offset / 8#16).setWidth 12) 10 := by
  have hlt : (offset / 8#16).toNat < 2 ^ 13 := by
    rw [BitVec.toNat_udiv]
    have := offset.isLt
    show offset.toNat / 8 < 2 ^ 13
    omega
  apply BitVec.eq_of_getLsbD_eq
  intro i hi
  rw [BitVec.getLsbD_or, BitVec.getLsbD_or, scaled, getLsbD_field _ _ _ hi, getLsbD_field _ _ _ hi,
    BitVec.getLsbD_setWidth]
  by_cases h22 : i = 22
  · simp [h22, hw]
  · by_cases h : i - 10 < 12
    · simp [h]
    · have hzero := getLsbD_eq_false_of_lt _ 13 (i - 10) hlt (by omega)
      simp [h, hzero]

theorem exists_decode_ldrX (rt rn : XReg) (offset : BitVec 16) :
    ∃ offset', decode (Instr.ldrX rt rn offset).encode = some (.ldrX rt rn offset') := by
  have hcode : (Instr.ldrX rt rn offset).encode =
      0xF9400000 ||| field ((offset / 8#16).setWidth 12) 10 ||| field rn.num 5 ||| field rt.num 0 := by
    rw [Instr.encode, or_scaled _ (by decide)]
  have hmatched : Op.ldrX.matched (Instr.ldrX rt rn offset).encode := by
    rw [hcode]
    simp (disch := decide) [Op.matched, Op.mask, Op.pattern, BitVec.and_or_distrib_right,
      field_and_num]
  refine ⟨8 * Op.uimm12 (Instr.ldrX rt rn offset).encode, ?_⟩
  rw [decode_of_matched _ _ hmatched, hcode]
  simp (disch := decide) [Op.read, Op.xreg, BitVec.extractLsb'_or, extract_field_self,
    extract_field_below, extract_field_over]

theorem exists_decode_ldrD (rt : DReg) (rn : XReg) (offset : BitVec 16) :
    ∃ offset', decode (Instr.ldrD rt rn offset).encode = some (.ldrD rt rn offset') := by
  have hcode : (Instr.ldrD rt rn offset).encode =
      0xFD400000 ||| field ((offset / 8#16).setWidth 12) 10 ||| field rn.num 5 ||| field rt.num 0 := by
    rw [Instr.encode, or_scaled _ (by decide)]
  have hmatched : Op.ldrD.matched (Instr.ldrD rt rn offset).encode := by
    rw [hcode]
    simp (disch := decide) [Op.matched, Op.mask, Op.pattern, BitVec.and_or_distrib_right,
      field_and_num]
  refine ⟨8 * Op.uimm12 (Instr.ldrD rt rn offset).encode, ?_⟩
  rw [decode_of_matched _ _ hmatched, hcode]
  simp (disch := decide) [Op.read, Op.xreg, Op.dreg, BitVec.extractLsb'_or, extract_field_self,
    extract_field_below, extract_field_over]

end A64

/-! ## Lines -/

namespace Asm

namespace Line

/-- How far a line moves the stack pointer. -/
def move : Line → Int
  | instr i => i.move
  | _ => 0

/-- What a line does where the stack pointer has moved by `d` since the prologue. Addresses of
constants are formed by lines of their own. -/
def Keeps (d : Int) : Line → Prop
  | instr i =>
    i.isAdrp = false ∧ ∃ j, decode i.encode = some j ∧ j.Disciplined d ∧ j.move = i.move
  | mark _ | jump _ | jumpIf .. | jumpIfZero .. | callImport _ => d = 0
  | address reg _ => d ≤ 0 ∧ Instr.isTemporary reg = true
  | call _ | double .. | reserve _ => d ≤ 0
  | entry => False

variable {d : Int}

theorem keeps_of_fits {i : Instr} (hadrp : i.isAdrp = false) (hfits : i.Fits)
    (h : i.unaliased.Disciplined d) : (instr i).Keeps d :=
  ⟨hadrp, _, A64.decode_encode i hfits, h, i.move_unaliased⟩

theorem keeps_of_calm {i : Instr} (hd : d ≤ 0) (h : i.calm = true) : (instr i).Keeps d := by
  refine keeps_of_fits ?_ (Instr.fits_of_calm h)
    (Instr.disciplined_of_calm hd (Instr.calm_unaliased h))
  cases i with
  | adrp => cases h
  | _ => rfl

theorem move_of_calm {i : Instr} (h : i.calm = true) : (instr i).move = 0 := Instr.move_of_calm h

end Line

namespace Code

/-- Along the lines, the stack pointer gets from `d` to `d'`, and each line does what it may. -/
def Moves (d : Int) : Code → Int → Prop
  | [], d' => d = d'
  | l :: rest, d' => l.Keeps d ∧ Moves (d + l.move) rest d'

@[simp] theorem moves_nil (d d' : Int) : Moves d [] d' ↔ d = d' := Iff.rfl

theorem Moves.append {d m d' : Int} {c c' : Code} (h : Moves d c m) (h' : Moves m c' d') :
    Moves d (c ++ c') d' := by
  induction c generalizing d with
  | nil =>
    cases h
    exact h'
  | cons l rest ih => exact ⟨h.1, ih h.2⟩

end Code

end Asm

/-! ## Words -/

/-- How far the words move the stack pointer, one after the other. -/
def stackMove (ws : List Word) : Int := (ws.map fun w => ((decode w).map Instr.move).getD 0).sum

@[simp] theorem stackMove_nil : stackMove [] = 0 := rfl

@[simp] theorem stackMove_cons (w : Word) (ws : List Word) :
    stackMove (w :: ws) = ((decode w).map Instr.move).getD 0 + stackMove ws := by
  simp [stackMove]

@[simp] theorem stackMove_append (xs ys : List Word) :
    stackMove (xs ++ ys) = stackMove xs + stackMove ys := by
  simp [stackMove]

/-- Every word is an instruction that does what it may, when the stack pointer has moved by `d`
before the first one. -/
def Scanned (d : Int) (ws : List Word) : Prop :=
  ∀ (j : Nat) w, ws[j]? = some w →
    ∃ i, decode w = some i ∧ i.Disciplined (d + stackMove (ws.take j))

theorem Scanned.append {d : Int} {xs ys : List Word} (hx : Scanned d xs)
    (hy : Scanned (d + stackMove xs) ys) : Scanned d (xs ++ ys) := by
  intro j w hj
  rw [List.getElem?_append] at hj
  split at hj
  · rename_i hlt
    rw [List.take_append_of_le_length (Nat.le_of_lt hlt)]
    exact hx j w hj
  · rename_i hge
    rw [List.take_append, List.take_of_length_le (Nat.le_of_not_lt hge), stackMove_append,
      ← Int.add_assoc]
    exact hy _ w hj

theorem scanned_singleton {d : Int} {w : Word} {i : Instr} (hw : decode w = some i)
    (hi : i.Disciplined d) : Scanned d [w] := by
  intro j w' hj
  rw [List.getElem?_singleton] at hj
  split at hj
  · rename_i hzero
    cases hj
    subst hzero
    exact ⟨i, hw, by simpa using hi⟩
  · cases hj

theorem scanned_of_still {d : Int} (is : List Instr)
    (h : ∀ i ∈ is, i.Fits ∧ i.unaliased.Disciplined d ∧ i.move = 0) :
    Scanned d (is.map Instr.encode) ∧ stackMove (is.map Instr.encode) = 0 := by
  induction is with
  | nil => exact ⟨nofun, rfl⟩
  | cons i rest ih =>
    obtain ⟨hfits, hi, hmove⟩ := h i List.mem_cons_self
    obtain ⟨hrest, hzero⟩ := ih fun i hi => h i (List.mem_cons_of_mem _ hi)
    have hdecode := A64.decode_encode i hfits
    have hfirst : stackMove [i.encode] = 0 := by simp [hdecode, hmove]
    rw [List.map_cons, ← List.singleton_append]
    refine ⟨(scanned_singleton hdecode hi).append ?_, ?_⟩
    · rwa [hfirst, Int.add_zero]
    · rw [stackMove_append, hfirst, hzero, Int.add_zero]

theorem A64.Instr.disciplined_adrp {d : Int} (hd : d ≤ 0) {rd : XReg}
    (hrd : isTemporary rd = true) : (adrp rd 0).Disciplined d := by
  refine disciplined_of_free hd rfl nofun ?_ rfl
  rw [List.all_eq_true]
  intro r hr
  rw [mem_general hr]
  exact free_of_temporary hrd

namespace Asm

theorem Line.Keeps.scanned {d : Int} {l : Line} (h : l.Keeps d) {place : Label → Nat} {q : Nat}
    (hreach : l.Reaches place q) :
    Scanned d ((l.resolved place q).map Instr.encode) ∧
      stackMove ((l.resolved place q).map Instr.encode) = l.move := by
  have hbranch (label : Label) (hlabel : l.target? = some label) (hd : d ≤ 0)
      (hlevel : l.jumpTarget?.isSome → d = 0) :
      Scanned d ((l.resolved place q).map Instr.encode) ∧
        stackMove ((l.resolved place q).map Instr.encode) = 0 := by
    obtain ⟨i, o, hresolved, hdecode, ho, -, hjump⟩ := l.resolved_branch place q label hlabel hreach
    obtain ⟨hi, hmove⟩ := Instr.disciplined_branch hd (i := i) (by simp [ho]) (by simpa [hjump])
    rw [hresolved]
    exact ⟨scanned_singleton hdecode hi, by simp [hdecode, hmove]⟩
  have hstill (hl : l.resolved place q = l.body) (hmove : l.move = 0)
      (h : ∀ i ∈ l.body, i.Fits ∧ i.unaliased.Disciplined d ∧ i.move = 0) :
      Scanned d ((l.resolved place q).map Instr.encode) ∧
        stackMove ((l.resolved place q).map Instr.encode) = l.move := by
    rw [hl, hmove]
    exact scanned_of_still l.body h
  cases l with
  | instr i =>
    obtain ⟨-, j, hj, hdisciplined, hmove⟩ := h
    have hword : ((instr i).resolved place q).map Instr.encode = [i.encode] := rfl
    rw [hword]
    exact ⟨scanned_singleton hj hdisciplined, by simp [hj, hmove, move]⟩
  | mark | reserve => exact hstill rfl rfl (List.forall_mem_nil _)
  | jump label | jumpIf _ label | jumpIfZero _ label =>
    exact hbranch label rfl (Int.le_of_eq h) fun _ => h
  | call label => exact hbranch label rfl h (by simp [jumpTarget?])
  | address reg bytes =>
    obtain ⟨hd, hreg⟩ := h
    refine hstill rfl rfl ?_
    simp only [body, List.forall_mem_cons]
    have hcalm : (Instr.addImm reg reg 0).calm = true := by simpa [Instr.calm] using hreg
    exact ⟨⟨by simp [Instr.Fits], Instr.disciplined_adrp hd hreg, rfl⟩,
      ⟨by simp [Instr.Fits], Instr.disciplined_of_calm hd hcalm, rfl⟩, List.forall_mem_nil _⟩
  | double reg bits =>
    refine hstill rfl rfl ?_
    simp only [body, List.forall_mem_cons]
    have hload : (Instr.ldrD reg .x16 0).unaliased.Disciplined d :=
      Instr.disciplined_of_free h rfl
        (by simp [Instr.unaliased, Instr.isImportCall, Instr.jump?]) rfl rfl
    exact ⟨⟨by simp [Instr.Fits], Instr.disciplined_adrp h rfl, rfl⟩,
      ⟨by simp [Instr.Fits], hload, rfl⟩, List.forall_mem_nil _⟩
  | callImport f =>
    have hd : d ≤ 0 := Int.le_of_eq h
    refine hstill rfl rfl ?_
    simp only [body, List.forall_mem_cons]
    have hload : (Instr.ldrX .x16 .x16 0).unaliased.Disciplined d :=
      Instr.disciplined_of_free hd rfl (fun _ => h) rfl rfl
    exact ⟨⟨by simp [Instr.Fits], Instr.disciplined_adrp hd rfl, rfl⟩,
      ⟨by simp [Instr.Fits], hload, rfl⟩,
      ⟨trivial, Instr.disciplined_of_free hd rfl (fun _ => h) rfl rfl, rfl⟩, List.forall_mem_nil _⟩
  | entry => exact h.elim

namespace Code

variable {place : Label → Nat} {d d' : Int} {c : Code}

theorem Moves.scanned (h : Moves d c d') {k : Nat}
    (hreach : ∀ q l, (q, l) ∈ located k c → l.Reaches place q) :
    Scanned d ((c.instrs place k).map Instr.encode) ∧
      d + stackMove ((c.instrs place k).map Instr.encode) = d' := by
  induction c generalizing d k with
  | nil =>
    rw [moves_nil] at h
    exact ⟨nofun, by simpa using h⟩
  | cons l rest ih =>
    obtain ⟨hl, hrest⟩ := h
    obtain ⟨hscanned, hmove⟩ := hl.scanned (hreach k l (by simp))
    obtain ⟨hscanned', hmove'⟩ := ih hrest (k := k + l.size)
      fun q l hmem => hreach q l (by simp [hmem])
    rw [instrs_cons, List.map_append]
    refine ⟨hscanned.append (by rwa [hmove]), ?_⟩
    rw [stackMove_append, hmove, ← Int.add_assoc]
    exact hmove'

/-- At a label the stack pointer is back where it was after the prologue. -/
theorem Moves.level (h : Moves d c d') {k : Nat}
    (hreach : ∀ q l, (q, l) ∈ located k c → l.Reaches place q) {r : Nat} {label : Label}
    (hr : (r, .mark label) ∈ located k c) :
    d + stackMove (((c.instrs place k).map Instr.encode).take (r - k)) = 0 := by
  induction c generalizing d k with
  | nil => cases hr
  | cons l rest ih =>
    obtain ⟨hl, hrest⟩ := h
    rw [located_cons, List.mem_cons, Prod.mk.injEq] at hr
    rcases hr with ⟨rfl, rfl⟩ | hr
    · have hzero : d = 0 := hl
      simp [hzero]
    · have hle := (mem_located _ _ _ _ hr).1
      obtain ⟨-, hmove⟩ := hl.scanned (hreach k l (by simp))
      have hlevel := ih hrest (k := k + l.size) (fun q l hmem => hreach q l (by simp [hmem])) hr
      have hlength : ((l.resolved place k).map Instr.encode).length = l.size := by simp
      rw [instrs_cons, List.map_append, List.take_append, List.take_of_length_le (by omega), hlength,
        stackMove_append, hmove, ← Int.add_assoc, Nat.sub_sub]
      exact hlevel

end Code

end Asm

end Armature
