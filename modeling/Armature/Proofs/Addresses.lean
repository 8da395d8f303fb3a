import Armature.Proofs.Framing
import Armature.Proofs.Loaded
import Armature.Proofs.Parsed

/-!
# Addresses in code

An `adrp` and the instruction after it form the address of a constant or of a pointer to an import.
Filling in the references of a code gives each such pair its operands, and leaves all other words.
-/

namespace Armature

/-! ## Instructions that form addresses -/

namespace A64

theorem opcode_ne_adrp {w : Word} (m : Word) (hm : 0x9F000000 &&& m = m)
    (h : w &&& m ≠ 0x90000000 &&& m) : w &&& 0x9F000000 ≠ 0x90000000 := by
  intro hw
  exact h (and_submask hw m hm)

theorem encode_ne_adrp (i : Instr) (hi : i.isAdrp = false) :
    i.encode &&& 0x9F000000 ≠ 0x90000000 := by
  -- an operand that does not fit may reach into the opcode, so some bits of it are left out
  cases i with
  | adrp => cases hi
  | movz | movn | movk =>
    apply opcode_ne_adrp 0x1E000000 (by decide)
    simp (disch := decide) [Instr.encode, BitVec.and_or_distrib_right, field_and_num, field_shift]
  | b | bl | ldrX | strX | ldrD | strD =>
    apply opcode_ne_adrp 0x1C000000 (by decide)
    simp (disch := decide) [Instr.encode, BitVec.and_or_distrib_right, field_and_num, imm26_eq,
      scaled]
  | _ =>
    simp (disch := decide) [Instr.encode, BitVec.and_or_distrib_right, field_and_num, imm12_eq,
      imm9_eq, imm7_eq, imm19_eq]

theorem decode_adrp_iff (w : Word) (rd : XReg) (pages : BitVec 32) :
    decode w = some (.adrp rd pages) ↔
      w &&& 0x9F000000 = 0x90000000 ∧ rd = Op.xreg w 0 ∧ pages = Op.pageCount w := by
  constructor
  · intro h
    obtain ⟨o, ho, hread⟩ := Option.map_eq_some_iff.mp h
    have hmatched := List.find?_some ho
    cases o with
    | adrp =>
      cases hread
      exact ⟨of_decide_eq_true hmatched, rfl, rfl⟩
    | sub | orr =>
      simp only [Op.read] at hread
      split at hread <;> cases hread
    | _ => cases hread
  · rintro ⟨h, rfl, rfl⟩
    exact decode_of_matched .adrp w (decide_eq_true h)

theorem decode_adrp_encode (rd : XReg) (pages : BitVec 32) :
    ∃ n, decode (Instr.adrp rd pages).encode = some (.adrp rd n) := by
  refine ⟨_, (decode_adrp_iff _ _ _).mpr ⟨?_, ?_, rfl⟩⟩
  · simp (disch := decide) [Instr.encode, BitVec.and_or_distrib_right, field_and_num, pageField_eq]
  · simp (disch := decide) [Op.xreg, Instr.encode, BitVec.extractLsb'_or, extract_field_self,
      extract_field_below, pageField_eq]

theorem exists_decode_adrp {i : Instr} (hi : i.isAdrp = true) :
    ∃ rd pages, decode i.encode = some (.adrp rd pages) := by
  cases i with
  | adrp rd pages => exact ⟨rd, decode_adrp_encode rd pages⟩
  | _ => cases hi

theorem isAdrp_of_decode {i : Instr} {rd : XReg} {pages : BitVec 32}
    (h : decode i.encode = some (.adrp rd pages)) : i.isAdrp = true := by
  by_contra hi
  exact encode_ne_adrp i (by simpa using hi) ((decode_adrp_iff _ _ _).mp h).1

namespace Instr

/-- An addition counts its operand in bytes, a load in units of eight. -/
def unit? : Instr → Option Nat
  | addImm .. => some 1
  | ldrX .. | ldrD .. => some 8
  | _ => none

/-- The same addition or load with another offset in bytes. -/
def withOffset (offset : BitVec 16) : Instr → Instr
  | addImm rd rn _ => addImm rd rn offset
  | ldrX rt rn _ => ldrX rt rn offset
  | ldrD rt rn _ => ldrD rt rn offset
  | i => i

end Instr

theorem field_xreg (w : Word) : field (Op.xreg w 0).num 0 = w &&& 0x1F := by
  have hmask : field (BitVec.allOnes 5) 0 = 0x1F := by decide
  rw [Op.xreg, field_extract, hmask]

theorem patchAdrp_of_decode {w : Word} {rd : XReg} {n : BitVec 32} {pages : Int}
    (h : decode w = some (.adrp rd n)) (hl : -0x100000 ≤ pages) (hu : pages < 0x100000) :
    patchAdrp w pages = some (Instr.adrp rd (BitVec.ofInt 32 pages)).encode := by
  obtain ⟨hopcode, rfl, -⟩ := (decode_adrp_iff _ _ _).mp h
  rw [patchAdrp, if_neg (by simp only [hopcode, ne_eq, not_true_eq_false, false_or]; omega),
    ← field_xreg]
  rfl

theorem patchAdrp_encode (rd : XReg) (pages : Int) (hl : -0x100000 ≤ pages)
    (hu : pages < 0x100000) :
    patchAdrp (Instr.adrp rd 0).encode pages =
      some (Instr.adrp rd (BitVec.ofInt 32 pages)).encode :=
  patchAdrp_of_decode (decode_encode (.adrp rd 0) ⟨by decide, by decide⟩) hl hu

theorem shiftLeft_ofNat (n : Nat) (h : n < 4096) :
    BitVec.ofNat 32 n <<< 10 = field (BitVec.ofNat 12 n) 10 := by
  have hwide : (BitVec.ofNat 12 n).setWidth 32 = BitVec.ofNat 32 n := by
    apply BitVec.eq_of_toNat_eq
    simp only [BitVec.toNat_setWidth, BitVec.toNat_ofNat]
    omega
  rw [field, hwide]

theorem imm12_ofNat (n : Nat) :
    imm12 (BitVec.ofNat 16 n) = field (BitVec.ofNat 12 n) 10 := by
  rw [imm12_eq]
  congr 1
  apply BitVec.eq_of_toNat_eq
  simp only [BitVec.toNat_setWidth, BitVec.toNat_ofNat]
  omega

theorem scaled_ofNat (n : Nat) (h : 8 * n < 4096) :
    scaled (BitVec.ofNat 16 (8 * n)) = field (BitVec.ofNat 12 n) 10 := by
  have hoffset : (BitVec.ofNat 16 (8 * n)).toNat = 8 * n := by
    rw [BitVec.toNat_ofNat]
    omega
  rw [scaled_eq _ (by omega)]
  congr 1
  apply BitVec.eq_of_toNat_eq
  rw [BitVec.toNat_setWidth, BitVec.toNat_udiv, hoffset, BitVec.toNat_ofNat]
  show 8 * n / 8 % _ = _
  rw [Nat.mul_div_cancel_left n (by decide)]

theorem patchImm12_encode (i : Instr) (u : Nat) (hi : i.unit? = some u) (n : Nat)
    (hn : u * n < 4096) :
    patchImm12 (i.withOffset 0).encode n =
      some (i.withOffset (BitVec.ofNat 16 (u * n))).encode := by
  cases i with
  | addImm rd rn _ =>
    cases hi
    rw [Nat.one_mul] at hn ⊢
    rw [patchImm12, if_neg (by omega), shiftLeft_ofNat n hn, Instr.withOffset, Instr.withOffset,
      Instr.encode, Instr.encode, imm12_ofNat n]
    simp (disch := decide) [BitVec.and_or_distrib_right, field_and_keep, imm12_eq]
    ac_rfl
  | ldrX rt rn _ =>
    cases hi
    rw [patchImm12, if_neg (by omega), shiftLeft_ofNat n (by omega), Instr.withOffset,
      Instr.withOffset, Instr.encode, Instr.encode, scaled_ofNat n hn]
    simp (disch := decide) [BitVec.and_or_distrib_right, field_and_keep, scaled]
    ac_rfl
  | ldrD rt rn _ =>
    cases hi
    rw [patchImm12, if_neg (by omega), shiftLeft_ofNat n (by omega), Instr.withOffset,
      Instr.withOffset, Instr.encode, Instr.encode, scaled_ofNat n hn]
    simp (disch := decide) [BitVec.and_or_distrib_right, field_and_keep, scaled]
    ac_rfl
  | _ => cases hi

/-- The page of the address `a`, counted from the page of `pc`. -/
def pagesTo (pc a : Nat) : BitVec 32 := BitVec.ofInt 32 (a / 4096 - pc / 4096 : Int)

def inPage (a : Nat) : BitVec 16 := BitVec.ofNat 16 (a % 4096)

/-- The bits of an `adrp` that hold the page. -/
def pageBits : Word := 0x60FFFFE0

/-- The bits of an addition or a load that hold the offset. -/
def offsetBits : Word := 0x003FFC00

theorem adrp_bits (rd : XReg) (pages : BitVec 32) :
    (Instr.adrp rd pages).encode &&& ~~~pageBits = (Instr.adrp rd 0).encode &&& ~~~pageBits := by
  simp (disch := decide) [pageBits, Instr.encode, BitVec.and_or_distrib_right, field_and_num,
    pageField_eq]

theorem withOffset_bits (i : Instr) (offset : BitVec 16) (h : offset.toNat < 4096) :
    (i.withOffset offset).encode &&& ~~~offsetBits =
      (i.withOffset 0).encode &&& ~~~offsetBits := by
  have hscaled : scaled offset = field ((offset / 8).setWidth 12) 10 := scaled_eq offset (by omega)
  have hzero : scaled 0#16 = 0#32 := by decide
  cases i with
  | addImm | ldrX | ldrD =>
    simp (disch := decide) [Instr.withOffset, offsetBits, Instr.encode, BitVec.and_or_distrib_right,
      field_and_num, imm12_eq, hscaled, hzero]
  | _ => rfl

/-- Code at `pc` can form the address `a`. -/
def Near (pc a : Nat) : Prop :=
  -0x100000 ≤ (a / 4096 - pc / 4096 : Int) ∧ (a / 4096 - pc / 4096 : Int) < 0x100000

theorem toInt_pagesTo {pc a : Nat} (h : A64.Near pc a) :
    (A64.pagesTo pc a).toInt = a / 4096 - pc / 4096 := by
  obtain ⟨hl, hu⟩ := h
  exact BitVec.toInt_ofInt_eq_self (by decide) (by omega) (by omega)

theorem toNat_inPage (a : Nat) : (A64.inPage a).toNat = a % 4096 := by
  rw [A64.inPage, BitVec.toNat_ofNat]
  omega

end A64

/-! ## Lines that form addresses -/

namespace Asm

open A64 (Instr Near inPage offsetBits pageBits pagesTo)

namespace Line

/-- Addresses are formed by lines of their own. -/
def explicit : Line → Bool
  | instr i => !i.isAdrp
  | _ => true

/-- The instructions of a line at word `k` of a code at the address `base`, when the places of
labels are known and `dest k` is the address to form. -/
def linked (place : Label → Nat) (base : Nat) (dest : Nat → Nat) (k : Nat) : Line → List Instr
  | address reg _ =>
    [.adrp reg (pagesTo (base + 4 * k) (dest k)), .addImm reg reg (inPage (dest k))]
  | double reg _ =>
    [.adrp .x16 (pagesTo (base + 4 * k) (dest k)), .ldrD reg .x16 (inPage (dest k))]
  | callImport _ =>
    [.adrp .x16 (pagesTo (base + 4 * k) (dest k)), .ldrX .x16 .x16 (inPage (dest k)), .blr .x16]
  | l => l.resolved place k

variable {place : Label → Nat} {base : Nat} {dest : Nat → Nat} {k : Nat} {l : Line} {d : Datum}

theorem linked_of_none (h : l.datum? = none) :
    l.linked place base dest k = l.resolved place k := by
  cases l with
  | address | double | callImport => cases h
  | _ => rfl

theorem length_linked : (l.linked place base dest k).length = l.size := by
  cases l with
  | address | double | callImport => rfl
  | _ => rw [linked_of_none rfl, length_resolved]

theorem isAdrp_resolved (hl : l.explicit = true) {n : Nat} {i : Instr}
    (h : (l.resolved place k)[n]? = some i) :
    i.isAdrp = true ↔ n = 0 ∧ l.datum?.isSome := by
  have hone (i' : Instr) (hi' : i'.isAdrp = false) (hres : l.resolved place k = [i'])
      (hnone : l.datum? = none) : i.isAdrp = true ↔ n = 0 ∧ l.datum?.isSome := by
    rw [hres, List.getElem?_singleton] at h
    split at h
    · cases h
      simp [hi', hnone]
    · cases h
  cases l with
  | instr i' => exact hone i' (by simpa [explicit] using hl) rfl rfl
  | jump | jumpIf | jumpIfZero | call => exact hone _ rfl rfl rfl
  | mark | reserve | entry => cases h
  | address | double =>
    rcases n with _ | _ | n <;> cases h <;> simp [Instr.isAdrp, datum?]
  | callImport =>
    rcases n with _ | _ | _ | n <;> cases h <;> simp [Instr.isAdrp, datum?]

/-- Forming an address changes only the operands of two instructions. -/
theorem linked_bits (base : Nat) (dest : Nat → Nat) {n : Nat} {i : Instr}
    (h : (l.resolved place k)[n]? = some i) :
    ∃ i', (l.linked place base dest k)[n]? = some i' ∧
      (i' = i ∨
        l.datum?.isSome ∧ n = 0 ∧ i'.encode &&& ~~~pageBits = i.encode &&& ~~~pageBits ∨
        l.datum?.isSome ∧ n = 1 ∧ i'.encode &&& ~~~offsetBits = i.encode &&& ~~~offsetBits) := by
  have hoffset (i : Instr) := A64.withOffset_bits i (inPage (dest k)) (by
    rw [A64.toNat_inPage]
    omega)
  cases l with
  | address reg bytes =>
    rcases n with _ | _ | n <;> cases h
    · exact ⟨_, rfl, .inr (.inl ⟨rfl, rfl, A64.adrp_bits _ _⟩)⟩
    · exact ⟨_, rfl, .inr (.inr ⟨rfl, rfl, hoffset (.addImm reg reg 0)⟩)⟩
  | double reg bits =>
    rcases n with _ | _ | n <;> cases h
    · exact ⟨_, rfl, .inr (.inl ⟨rfl, rfl, A64.adrp_bits _ _⟩)⟩
    · exact ⟨_, rfl, .inr (.inr ⟨rfl, rfl, hoffset (.ldrD reg .x16 0)⟩)⟩
  | callImport f =>
    rcases n with _ | _ | _ | n <;> cases h
    · exact ⟨_, rfl, .inr (.inl ⟨rfl, rfl, A64.adrp_bits _ _⟩)⟩
    · exact ⟨_, rfl, .inr (.inr ⟨rfl, rfl, hoffset (.ldrX .x16 .x16 0)⟩)⟩
    · exact ⟨_, rfl, .inl rfl⟩
  | _ => exact ⟨i, h, .inl rfl⟩

end Line

/-- From the address `pc` on, two instructions take the address `a` of a datum: an addition that of
a string, and a load that of a double or a pointer. -/
inductive Forms (pc a : Nat) : Datum → Instr → Instr → Prop
  | string (bytes : Bytes) (rd : A64.XReg) (pages : BitVec 32) (offset : BitVec 16)
    (h : (a : Int) = 4096 * (pc / 4096 + pages.toInt) + offset.toNat) :
    Forms pc a (.string bytes) (.adrp rd pages) (.addImm rd rd offset)
  | double (bits : UInt64) (rd : A64.XReg) (rt : A64.DReg) (pages : BitVec 32)
    (offset : BitVec 16) (h : (a : Int) = 4096 * (pc / 4096 + pages.toInt) + offset.toNat) :
    Forms pc a (.double bits) (.adrp rd pages) (.ldrD rt rd offset)
  | pointer (f : Import) (rd rt : A64.XReg) (pages : BitVec 32) (offset : BitVec 16)
    (h : (a : Int) = 4096 * (pc / 4096 + pages.toInt) + offset.toNat) :
    Forms pc a (.pointer f) (.adrp rd pages) (.ldrX rt rd offset)

/-- Loads take addresses in units of eight. -/
def Datum.Aligned (a : Nat) : Datum → Prop
  | .string _ => True
  | .double _ | .pointer _ => a % 8 = 0

theorem Line.linked_forms (place : Label → Nat) {base : Nat} {dest : Nat → Nat} {k : Nat} {l : Line}
    {d : Datum} (hd : l.datum? = some d) (hnear : Near (base + 4 * k) (dest k))
    (haligned : d.Aligned (dest k)) :
    ∃ first second, (l.linked place base dest k)[0]? = some first ∧
      (l.linked place base dest k)[1]? = some second ∧
      A64.decode first.encode = some first ∧ A64.decode second.encode = some second ∧
      Forms (base + 4 * k) (dest k) d first second := by
  have hpages := A64.toInt_pagesTo hnear
  have hoffset := A64.toNat_inPage (dest k)
  have hadrp (rd : A64.XReg) : (Instr.adrp rd (pagesTo (base + 4 * k) (dest k))).Fits := by
    simp only [Instr.Fits, hpages]
    exact hnear
  have hform : (dest k : Int) = 4096 * (((base + 4 * k : Nat) : Int) / 4096 +
      (pagesTo (base + 4 * k) (dest k)).toInt) + (inPage (dest k)).toNat := by
    rw [hpages, hoffset]
    omega
  cases l with
  | address reg bytes =>
    cases hd
    refine ⟨_, _, rfl, rfl, A64.decode_encode _ (hadrp _), A64.decode_encode _ ?_,
      .string bytes reg _ _ hform⟩
    simp only [Instr.Fits, hoffset]
    omega
  | double reg bits =>
    cases hd
    have haligned : dest k % 8 = 0 := haligned
    refine ⟨_, _, rfl, rfl, A64.decode_encode _ (hadrp _), A64.decode_encode _ ?_,
      .double bits .x16 reg _ _ hform⟩
    simp only [Instr.Fits, hoffset]
    omega
  | callImport f =>
    cases hd
    have haligned : dest k % 8 = 0 := haligned
    refine ⟨_, _, rfl, rfl, A64.decode_encode _ (hadrp _), A64.decode_encode _ ?_,
      .pointer f .x16 .x16 _ _ hform⟩
    simp only [Instr.Fits, hoffset]
    omega
  | _ => cases hd

namespace Code

/-- The instructions of a code when all addresses are known. -/
def linked (place : Label → Nat) (base : Nat) (dest : Nat → Nat) (k : Nat) (c : Code) :
    List Instr :=
  (located k c).flatMap fun (q, l) => l.linked place base dest q

theorem linked_cons (place : Label → Nat) (base : Nat) (dest : Nat → Nat) (k : Nat) (l : Line)
    (c : Code) : linked place base dest k (l :: c) =
      l.linked place base dest k ++ linked place base dest (k + l.size) c := by
  simp [linked]

theorem Moves.explicit {d d' : Int} {c : Code} (h : Moves d c d') : c.all Line.explicit = true := by
  induction c generalizing d with
  | nil => rfl
  | cons first rest ih =>
    rw [List.all_cons, ih h.2, Bool.and_true]
    cases first with
    | instr i => simp [Line.explicit, h.1.1]
    | _ => rfl

end Code

end Asm

open Asm (Code Line)

theorem Lower.Middle.explicit {head : Line} {c mid : Code} (h : Middle head c mid)
    (hhead : head.body = []) : c.all Line.explicit = true := by
  have hprologue : prologue.all Line.explicit = true := by decide
  have hepilogue : epilogue.all Line.explicit = true := by decide
  have hmark : head.explicit = true := by
    cases head with
    | instr => cases hhead
    | _ => rfl
  rw [h.shape, List.all_cons, List.all_append, List.all_append, hmark, hprologue, h.level.explicit,
    hepilogue]
  rfl

/-- In the code of a program, addresses are formed by lines of their own. -/
theorem Lower.Bodies.explicit {p : Program} {d : Declared} {codes : List Code} {l : Asm.Listing}
    (h : Bodies p d codes l) {q : Nat} {line : Line} (hmem : (q, line) ∈ Code.located 0 l.code) :
    line.explicit = true := by
  rcases h.mem_located q line hmem with ⟨bytes, rfl⟩ | ⟨i, code, hi, hmem⟩
  · rfl
  · obtain ⟨-, -, -, hlowers⟩ := h.body_at i code hi
    obtain ⟨head, mid, hhead, hmid⟩ := hlowers.middle
    exact List.all_eq_true.mp (hmid.explicit hhead) line (Code.mem_of_mem_located _ _ _ _ hmem)

/-! ## Filling in references -/

namespace Buffer

theorem word?_second (ws tail : List Word) (w₁ w₂ : Word) :
    (ofWords (ws ++ w₁ :: w₂ :: tail)).word? (4 * ws.length + 4) = some w₂ := by
  have hword := word?_split (ws ++ [w₁]) tail w₂
  rw [List.append_assoc, List.singleton_append, List.length_append, List.length_singleton,
    Nat.mul_add] at hword
  exact hword

theorem overwrite_pair (ws tail : List Word) (w₁ w₂ v₁ v₂ : Word) :
    (ofWords (ws ++ w₁ :: w₂ :: tail)).overwrite (4 * ws.length) (v₁.bytes ++ v₂.bytes) =
      ofWords (ws ++ v₁ :: v₂ :: tail) := by
  have hold : (ofWords (ws ++ w₁ :: w₂ :: tail)).toList =
      ws.flatMap Word.bytes ++ (w₁.bytes ++ w₂.bytes) ++ tail.flatMap Word.bytes := by
    simp [ofWords]
  apply Array.toList_inj.mp
  rw [toList_overwrite _ _ _ _ _ _ hold (length_flatMap_bytes ws) (by simp)]
  simp [ofWords]

end Buffer

namespace MachO

open A64 (Instr Near inPage pagesTo)
open Asm (Datum Image Label Pool Reference)

/-- A reference is to a datum at the address `a`, which its code can form. -/
structure Addressed (p : Placement) (image : Image) (pool : Pool) (r : Reference) (d : Datum)
    (a : Nat) : Prop where
  holds : pool.Holds r.target d
  address : p.address image r.target = .ok a
  near : Near (imageBase + Placement.code + r.site) a
  aligned : d.Aligned a

variable {p : Placement} {image : Image} {pool : Pool} {r : Reference}

theorem resolveReferences_pair {a u : Nat} (rest : List Reference) (ws tail : List Word)
    (reg : A64.XReg) (i : Instr) (hsite : r.site = 4 * ws.length)
    (haddress : p.address image r.target = .ok a)
    (hnear : Near (imageBase + Placement.code + 4 * ws.length) a)
    (hi : i.unit? = some u) (hoffset : u * pageOffset r.target a = a % 4096) :
    resolveReferences p image (r :: rest)
        (.ofWords (ws ++ (Instr.adrp reg 0).encode :: (i.withOffset 0).encode :: tail)) =
      resolveReferences p image rest (.ofWords (ws ++
        (Instr.adrp reg (pagesTo (imageBase + Placement.code + 4 * ws.length) a)).encode ::
          (i.withOffset (inPage a)).encode :: tail)) := by
  have hwords : addressWords (.ofWords
      (ws ++ (Instr.adrp reg 0).encode :: (i.withOffset 0).encode :: tail)) r a =
      some ((Instr.adrp reg (pagesTo (imageBase + Placement.code + 4 * ws.length) a)).encode,
        (i.withOffset (inPage a)).encode) := by
    simp only [addressWords, hsite, Buffer.word?_split, Buffer.word?_second, Option.bind_eq_bind,
      Option.bind_some, A64.patchAdrp_encode reg _ hnear.1 hnear.2,
      A64.patchImm12_encode i u hi (pageOffset r.target a) (by omega), hoffset]
    rfl
  rw [resolveReferences, haddress]
  simp only [hwords]
  rw [hsite, Buffer.overwrite_pair]

theorem resolveReferences_line {place : Label → Nat} {dest : Nat → Nat} {l : Line} {d : Datum}
    (rest : List Reference) (ws tail : List Word) (hd : l.datum? = some d)
    (hsite : r.site = 4 * ws.length) (h : Addressed p image pool r d (dest ws.length)) :
    resolveReferences p image (r :: rest)
        (.ofWords (ws ++ (l.resolved place ws.length).map Instr.encode ++ tail)) =
      resolveReferences p image rest (.ofWords (ws ++ (l.linked place
        (imageBase + Placement.code) dest ws.length).map Instr.encode ++ tail)) := by
  have hnear := h.near
  have hholds := h.holds
  have haligned := h.aligned
  rw [hsite] at hnear
  rw [List.append_assoc, List.append_assoc]
  cases l with
  | address reg bytes =>
    cases hd
    refine resolveReferences_pair rest ws tail reg (.addImm reg reg 0) hsite h.address hnear rfl ?_
    match htarget : r.target, hholds with
    | .constant (.string n), _ => exact Nat.one_mul _
  | double reg bits =>
    cases hd
    refine resolveReferences_pair rest ws tail .x16 (.ldrD reg .x16 0) hsite h.address hnear rfl ?_
    have haligned : dest ws.length % 8 = 0 := haligned
    match htarget : r.target, hholds with
    | .constant (.double n), _ =>
      simp only [pageOffset]
      omega
  | callImport f =>
    cases hd
    refine resolveReferences_pair rest ws ((Instr.blr .x16).encode :: tail) .x16
      (.ldrX .x16 .x16 0) hsite h.address hnear rfl ?_
    have haligned : dest ws.length % 8 = 0 := haligned
    match htarget : r.target, hholds with
    | .imported g, _ =>
      simp only [pageOffset]
      omega
  | _ => cases hd

theorem resolveReferences_code {place : Label → Nat} {dest : Nat → Nat} (ws : List Word) (c : Code)
    (references : List Reference) (hsites : references.map (·.site) = Code.sites ws.length c)
    (h : ∀ q l d, (q, l) ∈ Code.located ws.length c → l.datum? = some d →
      ∀ r ∈ references, r.site = 4 * q → Addressed p image pool r d (dest q)) :
    resolveReferences p image references
        (.ofWords (ws ++ (c.instrs place ws.length).map Instr.encode)) =
      .ok (.ofWords (ws ++
        (c.linked place (imageBase + Placement.code) dest ws.length).map Instr.encode)) := by
  -- the words in front are finished, so a later reference cannot touch them
  induction c generalizing ws references with
  | nil =>
    obtain rfl := List.map_eq_nil_iff.mp hsites
    rfl
  | cons l rest ih =>
    rw [Code.instrs_cons, Code.linked_cons, List.map_append, List.map_append, ← List.append_assoc,
      ← List.append_assoc]
    have hstep (references : List Reference)
        (hsites : references.map (·.site) = Code.sites (ws.length + l.size) rest)
        (h : ∀ q l' d, (q, l') ∈ Code.located (ws.length + l.size) rest → l'.datum? = some d →
          ∀ r ∈ references, r.site = 4 * q → Addressed p image pool r d (dest q)) := by
      have hlength : (ws ++ (l.linked place (imageBase + Placement.code) dest ws.length).map
          Instr.encode).length = ws.length + l.size := by simp [Line.length_linked]
      have := ih (ws ++ (l.linked place (imageBase + Placement.code) dest ws.length).map
        Instr.encode) references (by rw [hlength]; exact hsites) (by rw [hlength]; exact h)
      rwa [hlength] at this
    cases hd : l.datum? with
    | none =>
      have hskip : Code.sites ws.length (l :: rest) = Code.sites (ws.length + l.size) rest := by
        simp [Code.sites, hd]
      rw [← Line.linked_of_none hd]
      exact hstep references (by rw [← hskip, hsites])
        fun q l' d hmem => h q l' d (List.mem_cons_of_mem _ hmem)
    | some d =>
      have hsite : Code.sites ws.length (l :: rest) =
          4 * ws.length :: Code.sites (ws.length + l.size) rest := by
        simp [Code.sites, hd]
      rw [hsite, List.map_eq_cons_iff] at hsites
      obtain ⟨r, references, rfl, hr, hsites⟩ := hsites
      rw [resolveReferences_line references ws _ hd hr
        (h ws.length l d List.mem_cons_self hd r List.mem_cons_self hr)]
      exact hstep references hsites fun q l' d hmem hd r hr =>
        h q l' d (List.mem_cons_of_mem _ hmem) hd r (List.mem_cons_of_mem _ hr)

end MachO

end Armature
