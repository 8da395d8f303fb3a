import Armature.Lower.Expr
import Armature.Proofs.Loaded

/-!
# Loading constants

A constant is loaded one halfword at a time. Halfwords that already have the right bits are left
out.
-/

namespace Armature.A64

/-! ## Halfwords -/

/-- Replaces the halfword whose lowest bit is number `s`. -/
def setHalf (w : BitVec 64) (half : BitVec 16) (s : Nat) : BitVec 64 :=
  w &&& ~~~((0xFFFF : BitVec 64) <<< s) ||| half.setWidth 64 <<< s

theorem getLsbD_ffff (i : Nat) : (0xFFFF : BitVec 64).getLsbD i = decide (i < 16) := by
  have h : (0xFFFF : BitVec 64) = (BitVec.allOnes 16).setWidth 64 := by decide
  rw [h, BitVec.getLsbD_setWidth, BitVec.getLsbD_allOnes]
  by_cases hi : i < 16
  · have : i < 64 := by omega
    simp [hi, this]
  · simp [hi]

theorem getLsbD_setHalf (w : BitVec 64) (half : BitVec 16) (s j : Nat) (hj : j < 64) :
    (setHalf w half s).getLsbD j =
      if s ≤ j ∧ j < s + 16 then half.getLsbD (j - s) else w.getLsbD j := by
  rw [setHalf, BitVec.getLsbD_or, BitVec.getLsbD_and, BitVec.getLsbD_not, BitVec.getLsbD_shiftLeft,
    BitVec.getLsbD_shiftLeft, BitVec.getLsbD_setWidth, getLsbD_ffff]
  by_cases hs : s ≤ j
  · have hlt : ¬ j < s := by omega
    by_cases hu : j < s + 16
    · have h16 : j - s < 16 := by omega
      have h64 : j - s < 64 := by omega
      simp [hs, hu, hj, hlt, h16, h64]
    · have h16 : 16 ≤ j - s := by omega
      simp [hs, hu, hj, hlt, Nat.not_lt.mpr h16, BitVec.getLsbD_of_ge half _ h16]
  · have hlt : j < s := by omega
    simp [hs, hj, hlt]

theorem setHalf_zero (half : BitVec 16) (s : Nat) : setHalf 0 half s = half.setWidth 64 <<< s := by
  simp [setHalf]

theorem setHalf_allOnes (half : BitVec 16) (s : Nat) :
    setHalf (BitVec.allOnes 64) half s = ~~~((~~~half).setWidth 64 <<< s) := by
  apply BitVec.eq_of_getLsbD_eq
  intro j hj
  rw [getLsbD_setHalf _ _ _ _ hj, BitVec.getLsbD_not, BitVec.getLsbD_shiftLeft,
    BitVec.getLsbD_setWidth, BitVec.getLsbD_not, BitVec.getLsbD_allOnes]
  by_cases hc : s ≤ j ∧ j < s + 16
  · have hlt : ¬ j < s := by omega
    have h16 : j - s < 16 := by omega
    have h64 : j - s < 64 := by omega
    simp [hc, hj, hlt, h16, h64]
  · by_cases hs : j < s
    · simp [hc, hj, hs]
    · have h16 : ¬ j - s < 16 := by omega
      simp [hc, hj, hs, h16]

/-- Replaces one halfword after the other. -/
def setHalves (w : BitVec 64) (halves : List (BitVec 16 × BitVec 8)) : BitVec 64 :=
  halves.foldl (fun w h => setHalf w h.1 h.2.toNat) w

/-- The halfword covers the bit. -/
def covers (j : Nat) (h : BitVec 16 × BitVec 8) : Bool := h.2.toNat ≤ j ∧ j < h.2.toNat + 16

theorem getLsbD_setHalves (value w : BitVec 64) (halves : List (BitVec 16 × BitVec 8))
    (hhalves : ∀ h ∈ halves, h.1 = value.extractLsb' h.2.toNat 16) (j : Nat) (hj : j < 64) :
    (setHalves w halves).getLsbD j =
      if halves.any (covers j) then value.getLsbD j else w.getLsbD j := by
  induction halves generalizing w with
  | nil => rfl
  | cons h rest ih =>
    have hrest := ih (setHalf w h.1 h.2.toNat) fun h hh => hhalves h (List.mem_cons_of_mem _ hh)
    rw [setHalves, List.foldl_cons]
    refine hrest.trans ?_
    rw [List.any_cons, getLsbD_setHalf _ _ _ _ hj]
    by_cases hany : rest.any (covers j) = true
    · simp [hany]
    · by_cases hcovers : covers j h = true
      · have hc : h.2.toNat ≤ j ∧ j < h.2.toNat + 16 := by simpa [covers] using hcovers
        have h16 : j - h.2.toNat < 16 := by omega
        have hadd : h.2.toNat + (j - h.2.toNat) = j := by omega
        rw [hhalves h List.mem_cons_self, BitVec.getLsbD_extractLsb']
        simp [hany, hcovers, hc, h16, hadd]
      · have hc : ¬ (h.2.toNat ≤ j ∧ j < h.2.toNat + 16) := by simpa [covers] using hcovers
        simp [hany, hcovers, hc]

theorem halfwords_eq (value : BitVec 64) (h : BitVec 16 × BitVec 8) (hh : h ∈ halfwords value) :
    h.1 = value.extractLsb' h.2.toNat 16 ∧ (h.2 = 0 ∨ h.2 = 16 ∨ h.2 = 32 ∨ h.2 = 48) := by
  simp only [halfwords, List.mem_cons, List.not_mem_nil, or_false] at hh
  rcases hh with rfl | rfl | rfl | rfl
  · exact ⟨rfl, .inl rfl⟩
  · exact ⟨rfl, .inr (.inl rfl)⟩
  · exact ⟨rfl, .inr (.inr (.inl rfl))⟩
  · exact ⟨rfl, .inr (.inr (.inr rfl))⟩

theorem exists_covers (value : BitVec 64) (j : Nat) (hj : j < 64) :
    ∃ h ∈ halfwords value, covers j h = true := by
  have : j < 16 ∨ 16 ≤ j ∧ j < 32 ∨ 32 ≤ j ∧ j < 48 ∨ 48 ≤ j ∧ j < 64 := by omega
  rcases this with h | h | h | h
  · exact ⟨(value.extractLsb' 0 16, 0), by simp [halfwords], by simp [covers]; omega⟩
  · exact ⟨(value.extractLsb' 16 16, 16), by simp [halfwords], by simp [covers]; omega⟩
  · exact ⟨(value.extractLsb' 32 16, 32), by simp [halfwords], by simp [covers]; omega⟩
  · exact ⟨(value.extractLsb' 48 16, 48), by simp [halfwords], by simp [covers]; omega⟩

theorem setHalves_filter (value w : BitVec 64) (fill : BitVec 16)
    (hw : ∀ j < 64, w.getLsbD j = fill.getLsbD (j % 16)) :
    setHalves w ((halfwords value).filter (·.1 ≠ fill)) = value := by
  apply BitVec.eq_of_getLsbD_eq
  intro j hj
  rw [getLsbD_setHalves value w _ (fun h hh => (halfwords_eq value h (List.mem_filter.mp hh).1).1)
    j hj]
  split
  · rfl
  · rename_i hnone
    -- the halfword that covers the bit was left out, so it equals the fill
    obtain ⟨h, hh, hcovers⟩ := exists_covers value j hj
    obtain ⟨hhalf, hshift⟩ := halfwords_eq value h hh
    have hfill : h.1 = fill := by
      simp only [List.any_filter, List.any_eq_true, not_exists, not_and] at hnone
      simpa [hcovers] using hnone h hh
    have hc : h.2.toNat ≤ j ∧ j < h.2.toNat + 16 := by simpa [covers] using hcovers
    have hmod : j % 16 = j - h.2.toNat := by
      rcases hshift with hs | hs | hs | hs <;> rw [hs] at hc ⊢ <;> simp at hc ⊢ <;> omega
    have h16 : j - h.2.toNat < 16 := by omega
    have hadd : h.2.toNat + (j - h.2.toNat) = j := by omega
    rw [hw j hj, ← hfill, hhalf, BitVec.getLsbD_extractLsb', hmod, hadd]
    simp [h16]

/-! ## How many instructions are needed -/

/-- How many of the four halfwords of a value are equal to `half`. -/
def halfCount (value : BitVec 64) (half : BitVec 16) : Nat :=
  (List.range 4).countP fun i => value.extractLsb' (16 * i) 16 = half

theorem countP_halfwords (value : BitVec 64) (half : BitVec 16) :
    (halfwords value).countP (·.1 = half) = halfCount value half := by
  simp [halfwords, halfCount, List.range_succ, List.countP_cons]

theorem length_halfwords_filter (value : BitVec 64) (fill : BitVec 16) :
    ((halfwords value).filter (·.1 ≠ fill)).length = 4 - halfCount value fill := by
  have hsum := (halfwords value).length_eq_countP_add_countP (·.1 = fill)
  have hlength : (halfwords value).length = 4 := rfl
  rw [countP_halfwords, hlength] at hsum
  rw [← List.countP_eq_length_filter]
  have hrest : (halfwords value).countP (·.1 ≠ fill) =
      (halfwords value).countP fun h => ¬ (decide (h.1 = fill)) = true := by simp
  omega

/-- Of the two fills, the one with more halfwords decides. -/
theorem length_loadImm (rd : XReg) (value : BitVec 64) :
    (loadImm rd value).length = max 1 (4 - max (halfCount value 0) (halfCount value 0xFFFF)) := by
  have hzeros := length_halfwords_filter value 0
  have hones := length_halfwords_filter value 0xFFFF
  unfold loadImm
  simp only [countP_halfwords]
  split
  · cases hfilter : (halfwords value).filter (·.1 ≠ 0xFFFF) with
    | nil =>
      rw [hfilter, List.length_nil] at hones
      simp only [List.length_cons, List.length_nil]
      omega
    | cons h rest =>
      rw [hfilter, List.length_cons] at hones
      simp only [List.length_cons, List.length_map]
      omega
  · cases hfilter : (halfwords value).filter (·.1 ≠ 0) with
    | nil =>
      rw [hfilter, List.length_nil] at hzeros
      simp only [List.length_cons, List.length_nil]
      omega
    | cons h rest =>
      rw [hfilter, List.length_cons] at hzeros
      simp only [List.length_cons, List.length_map]
      omega

end Armature.A64

namespace Armature.Process

open A64 (Instr Machine XReg halfCount halfwords loadImm setHalf setHalves)
open Asm (Code Image Label Line)

variable {image : Image} {env : Process image}

/-! ## Rows of instructions -/

/-- Instructions one after the other, of which none branches. -/
def performAll? (env : Process image) (m : Machine) (is : List Instr) : Option Machine :=
  is.foldlM env.perform? m

@[simp] theorem performAll?_nil (m : Machine) : env.performAll? m [] = some m := rfl

@[simp] theorem performAll?_cons (m : Machine) (i : Instr) (is : List Instr) :
    env.performAll? m (i :: is) = (env.perform? m i).bind fun m => env.performAll? m is := rfl

@[simp] theorem size_map_instr (is : List Instr) : Code.size (is.map .instr) = is.length := by
  induction is with
  | nil => rfl
  | cons i rest ih =>
    rw [List.map_cons, Code.size_cons, ih, List.length_cons, Nat.add_comm]
    rfl

theorem Installed.instrs {place : Label → Nat} {k : Nat} {m m' : Machine} (is : List Instr)
    (h : env.Installed place k (is.map .instr)) (hfits : ∀ i ∈ is, i.Fits)
    (hperform : env.performAll? m is = some m') :
    env.Leads (env.pc k) m (env.pc (k + is.length)) (· = m') := by
  induction is generalizing k m with
  | nil =>
    cases hperform
    exact .refl rfl
  | cons i rest ih =>
    rw [List.map_cons, installed_cons] at h
    rw [performAll?_cons, Option.bind_eq_some_iff] at hperform
    obtain ⟨m₁, hm₁, hrest⟩ := hperform
    refine (h.1.instr (hfits i List.mem_cons_self) hm₁).trans ?_
    rintro _ rfl
    rw [List.length_cons, Nat.add_comm rest.length, ← Nat.add_assoc]
    exact ih h.2 (fun i hi => hfits i (List.mem_cons_of_mem _ hi)) hrest

/-! ## Constants -/

/-- The first instruction sets the whole register, and the others replace halfwords. -/
theorem loadImm_spec (env : Process image) (rd : XReg) (value : BitVec 64) :
    ∃ first w halves, loadImm rd value = first :: halves.map (fun (h, s) => .movk rd h s) ∧
      first.Fits ∧ (∀ m, env.perform? m first = some (m.set rd w)) ∧
      (∀ h ∈ halves, h.2 = 0 ∨ h.2 = 16 ∨ h.2 = 32 ∨ h.2 = 48) ∧ setHalves w halves = value := by
  have hzeros := A64.setHalves_filter value 0 0 (by simp)
  have hones := A64.setHalves_filter value (BitVec.allOnes 64) 0xFFFF (by
    intro j hj
    have hmod : j % 16 < 16 := by omega
    have h16 : (0xFFFF : BitVec 16) = BitVec.allOnes 16 := by decide
    rw [h16, BitVec.getLsbD_allOnes, BitVec.getLsbD_allOnes]
    simp [hj, hmod])
  have hshift (fill : BitVec 16) : ∀ h ∈ (halfwords value).filter (·.1 ≠ fill),
      h.2 = 0 ∨ h.2 = 16 ∨ h.2 = 32 ∨ h.2 = 48 :=
    fun h hh => (A64.halfwords_eq value h (List.mem_filter.mp hh).1).2
  unfold loadImm
  simp only
  split
  · cases hfilter : (halfwords value).filter (·.1 ≠ 0xFFFF) with
    | nil =>
      rw [hfilter] at hones
      exact ⟨.movn rd 0 0, BitVec.allOnes 64, [], rfl, .inl rfl, fun m => rfl, by simp, hones⟩
    | cons h rest =>
      have := hshift 0xFFFF
      rw [hfilter] at hones this
      refine ⟨.movn rd (~~~h.1) h.2, setHalf (BitVec.allOnes 64) h.1 h.2.toNat, rest, rfl,
        this h List.mem_cons_self, fun m => ?_, fun h hh => this h (List.mem_cons_of_mem _ hh),
        hones⟩
      rw [A64.setHalf_allOnes]
      rfl
  · cases hfilter : (halfwords value).filter (·.1 ≠ 0) with
    | nil =>
      rw [hfilter] at hzeros
      exact ⟨.mov rd .zr, 0, [], rfl, trivial, fun m => rfl, by simp, hzeros⟩
    | cons h rest =>
      have := hshift 0
      rw [hfilter] at hzeros this
      refine ⟨.movz rd h.1 h.2, setHalf 0 h.1 h.2.toNat, rest, rfl, this h List.mem_cons_self,
        fun m => ?_, fun h hh => this h (List.mem_cons_of_mem _ hh), hzeros⟩
      rw [A64.setHalf_zero]
      rfl

theorem performAll?_movk (m : Machine) (rd : XReg) (hrd : rd.num ≠ 31) (w : BitVec 64)
    (halves : List (BitVec 16 × BitVec 8)) :
    env.performAll? (m.put rd w) (halves.map fun (h, s) => .movk rd h s) =
      some (m.put rd (setHalves w halves)) := by
  induction halves generalizing w with
  | nil => rfl
  | cons h rest ih =>
    have hstep : env.perform? (m.put rd w) (.movk rd h.1 h.2) =
        some (m.put rd (setHalf w h.1 h.2.toNat)) := by
      simp only [perform?, A64.Machine.set_of_ne _ _ _ hrd, A64.Machine.get_of_ne _ _ hrd,
        A64.Machine.x_put_self, A64.Machine.put_put, setHalf]
    rw [List.map_cons, performAll?_cons, hstep]
    exact ih _

theorem performAll?_loadImm (env : Process image) (m : Machine) (rd : XReg)
    (hrd : rd.num ≠ 31) (value : BitVec 64) :
    (∀ i ∈ loadImm rd value, i.Fits) ∧
      env.performAll? m (loadImm rd value) = some (m.put rd value) := by
  obtain ⟨first, w, halves, heq, hfits, hfirst, hshift, hvalue⟩ := loadImm_spec env rd value
  rw [heq]
  constructor
  · simp only [List.mem_cons, forall_eq_or_imp, List.mem_map, forall_exists_index, and_imp]
    refine ⟨hfits, ?_⟩
    rintro _ h hh rfl
    exact hshift h hh
  · rw [performAll?_cons, hfirst, A64.Machine.set_of_ne _ _ _ hrd, Option.bind_some,
      performAll?_movk m rd hrd, hvalue]

theorem Installed.constant {place : Label → Nat} {k : Nat} {m : Machine} (rd : XReg)
    (value : BitVec 64) (h : env.Installed place k (Lower.constant rd value))
    (hrd : rd.num ≠ 31) :
    env.Leads (env.pc k) m (env.pc (k + Code.size (Lower.constant rd value)))
      (· = m.put rd value) := by
  obtain ⟨hfits, hperform⟩ := performAll?_loadImm env m rd hrd value
  rw [Lower.constant, size_map_instr]
  exact Installed.instrs _ h hfits hperform

/-! ## Constants in a buffer of words -/

theorem installed_of_words (env : Process image) (place : Label → Nat) (is : List Instr) (k : Nat)
    (hcode : ∀ n i, is[n]? = some i → image.code.word? (4 * (k + n)) = some i.encode) :
    env.Installed place k (is.map .instr) := by
  induction is generalizing k with
  | nil =>
    intro q l hmem
    cases hmem
  | cons i rest ih =>
    have hword : image.code.word? (4 * k) = some i.encode := hcode 0 i rfl
    have hk : 4 * k < image.code.size := by
      by_contra hk
      rw [Buffer.word?, dif_neg (by omega)] at hword
      cases hword
    rw [List.map_cons, installed_cons]
    refine ⟨⟨?_, ?_, ?_, by simp, ?_⟩, ih (k + 1) fun n j hj => ?_⟩
    · intro n hn
      obtain rfl : n = 0 := Nat.lt_one_iff.mp hn
      exact env.pc_ne_imports k hk
    · intro n j hj hfits
      have hline : [i][n]? = some j := hj
      obtain ⟨rfl, rfl⟩ : n = 0 ∧ i = j := by simpa [List.getElem?_singleton] using hline
      exact env.fetch_pc k i.encode _ hword (A64.decode_encode i hfits) hk
    · intro l form htarget
      cases htarget
    · intro d hdatum
      cases hdatum
    · have := hcode (n + 1) j hj
      rwa [show k + 1 + n = k + (n + 1) by omega]

/-- The words of a load put the value into the register and change nothing else. There are as many
as the better of the two fills needs. -/
theorem constant_loaded (env : Process image) (rd : XReg) (hrd : rd.num ≠ 31) (value : BitVec 64)
    (k : Nat) (hcode : ∀ n w, ((loadImm rd value).map Instr.encode)[n]? = some w →
      image.code.word? (4 * (k + n)) = some w) (m : Machine) :
    env.Leads (env.pc k) m (env.pc (k + ((loadImm rd value).map Instr.encode).length))
        (· = m.put rd value) ∧
      ((loadImm rd value).map Instr.encode).length =
        max 1 (4 - max (halfCount value 0) (halfCount value 0xFFFF)) := by
  have hinstalled : env.Installed (fun _ => 0) k (Lower.constant rd value) :=
    env.installed_of_words _ _ k fun n i hi =>
      hcode n i.encode (by rw [List.getElem?_map, hi]; rfl)
  have hrun := hinstalled.constant (m := m) rd value hrd
  rw [Lower.constant, size_map_instr] at hrun
  rw [List.length_map]
  exact ⟨hrun, A64.length_loadImm rd value⟩

/-- Two halfwords of ones against one of zeros: a `movn` sets them and one `movk` follows. -/
theorem lopsided_loaded : ∃ env : Process ⟨.ofWords [0x929DB969, 0xF2A00009], 0,
    Asm.Pool.empty.freeze, #[]⟩, ∀ m, env.Leads (env.pc 0) m (env.pc 2)
      (· = m.put ⟨9⟩ 0xFFFFFFFF00001234) := by
  have hwords : (loadImm ⟨9⟩ 0xFFFFFFFF00001234).map Instr.encode = [0x929DB969, 0xF2A00009] := by
    decide
  obtain ⟨env, -, -⟩ := exists_process ⟨.ofWords [0x929DB969, 0xF2A00009], 0,
    Asm.Pool.empty.freeze, #[]⟩ (by rw [Buffer.size_ofWords]; decide) (by decide) (by decide)
  refine ⟨env, fun m => ?_⟩
  have hrun := (env.constant_loaded ⟨9⟩ (by decide) 0xFFFFFFFF00001234 0 (by
    intro n w hw
    rw [Nat.zero_add, Buffer.word?_ofWords, ← hwords, hw]) m).1
  rwa [hwords] at hrun

end Armature.Process
