import Armature.Decimal.Printing
import Mathlib.Data.Int.Log
import Mathlib.Data.Rat.Floor
import Mathlib.Algebra.Order.Field.Power
import Mathlib.Tactic.FieldSimp
import Mathlib.Tactic.Linarith
import Mathlib.Tactic.Positivity

/-!
# Rounding in decimal

What the digits of a number should be is said with rational numbers, and the computation with
numerators and denominators is shown to give them. The main fact is that rounding to significant
digits is rounding to a number of places, counted from the first digit of the result. The two could
differ where rounding carries into a new digit.
-/

namespace Armature

/-! ## Nearest whole numbers -/

/-- The whole number nearest to `q`; of two equally near ones, the even one. -/
def roundHalfEven (q : ℚ) : ℤ :=
  if 2 * Int.fract q < 1 ∨ (2 * Int.fract q = 1 ∧ Even ⌊q⌋) then ⌊q⌋ else ⌊q⌋ + 1

theorem roundHalfEven_nearest (q : ℚ) :
    |q - roundHalfEven q| ≤ 1 / 2 ∧ (|q - roundHalfEven q| = 1 / 2 → Even (roundHalfEven q)) := by
  have hfract := Int.self_sub_floor q
  have hnonneg := Int.fract_nonneg q
  have hlt := Int.fract_lt_one q
  unfold roundHalfEven
  split
  · rename_i h
    rw [hfract, abs_of_nonneg hnonneg]
    rcases h with h | ⟨h, heven⟩
    · exact ⟨by linarith, fun htie => by linarith⟩
    · exact ⟨by linarith, fun _ => heven⟩
  · rename_i h
    rw [not_or, not_and] at h
    have hup : q - ((⌊q⌋ + 1 : ℤ) : ℚ) = -(1 - Int.fract q) := by
      push_cast
      linarith
    rw [hup, abs_neg, abs_of_nonneg (by linarith)]
    refine ⟨by linarith [h.1], fun htie => ?_⟩
    exact (Int.not_even_iff_odd.mp (h.2 (by linarith))).add_one

/-- Nothing else is as near, or as near and even. -/
theorem eq_roundHalfEven {q : ℚ} {n : ℤ} (hnear : |q - n| ≤ 1 / 2)
    (htie : |q - n| = 1 / 2 → Even n) : n = roundHalfEven q := by
  obtain ⟨hnear', htie'⟩ := roundHalfEven_nearest q
  generalize roundHalfEven q = m at hnear' htie' ⊢
  rw [abs_le] at hnear hnear'
  have hupper : n ≤ m + 1 := by
    have : (n : ℚ) ≤ ((m + 1 : ℤ) : ℚ) := by push_cast; linarith [hnear.1, hnear'.2]
    exact_mod_cast this
  have hlower : m ≤ n + 1 := by
    have : (m : ℚ) ≤ ((n + 1 : ℤ) : ℚ) := by push_cast; linarith [hnear'.1, hnear.2]
    exact_mod_cast this
  by_contra hne
  -- `q` is halfway between two neighbours, which are not both even
  rcases (by omega : n = m + 1 ∨ m = n + 1) with rfl | rfl
  · push_cast at hnear htie
    have hq : q - m = 1 / 2 := by linarith [hnear.1, hnear'.2]
    have heven : Even m := htie' (by rw [hq]; norm_num)
    have heven' : Even (m + 1) := htie (by rw [show q - (m + 1) = -(1 / 2) by linarith]; norm_num)
    exact (Int.even_add_one.mp heven') heven
  · push_cast at hnear' htie'
    have hq : q - n = 1 / 2 := by linarith [hnear'.1, hnear.2]
    have heven : Even n := htie (by rw [hq]; norm_num)
    have heven' : Even (n + 1) := htie' (by rw [show q - (n + 1) = -(1 / 2) by linarith]; norm_num)
    exact (Int.even_add_one.mp heven') heven

theorem roundHalfEven_neg (q : ℚ) : roundHalfEven (-q) = -roundHalfEven q := by
  obtain ⟨hnear, htie⟩ := roundHalfEven_nearest q
  have habs : |-q - ((-roundHalfEven q : ℤ) : ℚ)| = |q - roundHalfEven q| := by
    rw [Int.cast_neg, ← neg_sub', abs_neg]
  refine (eq_roundHalfEven (by rwa [habs]) fun h => ?_).symm
  rw [habs] at h
  exact (htie h).neg

theorem le_roundHalfEven {q : ℚ} {n : ℤ} (h : (n : ℚ) ≤ q) : n ≤ roundHalfEven q := by
  have hnear := abs_le.mp (roundHalfEven_nearest q).1
  by_contra hlt
  have hgap : (roundHalfEven q : ℚ) + 1 ≤ n := by exact_mod_cast not_le.mp hlt
  linarith [hnear.2]

theorem roundHalfEven_le {q : ℚ} {n : ℤ} (h : q ≤ n) : roundHalfEven q ≤ n := by
  have hnear := abs_le.mp (roundHalfEven_nearest q).1
  by_contra hlt
  have hgap : (n : ℚ) + 1 ≤ roundHalfEven q := by exact_mod_cast not_le.mp hlt
  linarith [hnear.1]

/-- What rounds to a multiple of ten is so close to it that a tenth rounds to a tenth. -/
theorem roundHalfEven_div_ten {q : ℚ} {n : ℤ} (h : roundHalfEven q = 10 * n) :
    roundHalfEven (q / 10) = n := by
  have hnear := abs_le.mp (roundHalfEven_nearest q).1
  rw [h] at hnear
  push_cast at hnear
  have hclose : |q / 10 - n| < 1 / 2 := by
    rw [abs_lt]
    constructor <;> linarith [hnear.1, hnear.2]
  exact (eq_roundHalfEven hclose.le fun htie => absurd htie hclose.ne).symm

namespace Double

theorem divHalfEven_eq (n : Nat) {d : Nat} (hd : 0 < d) :
    (divHalfEven n d : ℤ) = roundHalfEven ((n : ℚ) / d) := by
  have hpos : (0 : ℚ) < d := by exact_mod_cast hd
  have hfloor : ⌊(n : ℚ) / d⌋ = ((n / d : ℕ) : ℤ) := by
    simpa using Rat.floor_intCast_div_natCast n d
  have hfract : Int.fract ((n : ℚ) / d) = ((n % d : ℕ) : ℚ) / d :=
    Int.fract_div_natCast_eq_div_natCast_mod
  have hless : 2 * (((n % d : ℕ) : ℚ) / d) < 1 ↔ 2 * (n % d) < d := by
    rw [← mul_div_assoc, div_lt_one hpos]
    exact_mod_cast Iff.rfl
  have htie : 2 * (((n % d : ℕ) : ℚ) / d) = 1 ↔ 2 * (n % d) = d := by
    rw [← mul_div_assoc, div_eq_one_iff_eq hpos.ne']
    exact_mod_cast Iff.rfl
  have heven : Even ((n / d : ℕ) : ℤ) ↔ n / d % 2 = 0 := by
    rw [Int.even_coe_nat, Nat.even_iff]
  unfold divHalfEven roundHalfEven
  simp only [hfloor, hfract, hless, htie, heven]
  split
  · rfl
  · push_cast
    rfl

/-! ## Powers -/

theorem overPow_div {base : Nat} (hbase : 0 < base) (num den : Nat) (e : Int) :
    ((overPow base num den e).1 : ℚ) / (overPow base num den e).2 = num / den / (base : ℚ) ^ e := by
  have hpos : (0 : ℚ) < base := by exact_mod_cast hbase
  unfold overPow
  split
  · rename_i he
    obtain ⟨k, rfl⟩ := Int.eq_ofNat_of_zero_le he
    simp [div_div]
  · rename_i he
    obtain ⟨k, hk⟩ : ∃ k : Nat, e = -(k : Int) := ⟨(-e).toNat, by omega⟩
    subst hk
    simp [div_mul_eq_mul_div]

theorem overPow_pos {base den : Nat} (hbase : 0 < base) (hden : 0 < den) (num : Nat) (e : Int) :
    0 < (overPow base num den e).2 := by
  unfold overPow
  split
  · exact Nat.mul_pos hden (Nat.pow_pos hbase)
  · exact hden

theorem divHalfEven_overPow {den : Nat} (hden : 0 < den) (num : Nat) (e : Int) :
    (divHalfEven (overPow 10 num den e).1 (overPow 10 num den e).2 : ℤ) =
      roundHalfEven ((num : ℚ) / den * 10 ^ (-e)) := by
  have hbase : 0 < 10 := by decide
  rw [divHalfEven_eq _ (overPow_pos hbase hden num e), overPow_div hbase, zpow_neg,
    ← div_eq_mul_inv]
  norm_num

end Double

/-! ## First digits -/

theorem log_eq {r : ℚ} {e : ℤ} (hr : 0 < r) (hle : (10 : ℚ) ^ e ≤ r) (hlt : r < 10 ^ (e + 1)) :
    Int.log 10 r = e := by
  have h₁ := (Int.zpow_le_iff_le_log (by decide : 1 < 10) hr).mp hle
  have h₂ := (Int.lt_zpow_iff_log_lt (by decide : 1 < 10) hr).mp hlt
  omega

theorem log_spec {r : ℚ} (hr : 0 < r) :
    (10 : ℚ) ^ Int.log 10 r ≤ r ∧ r < 10 ^ (Int.log 10 r + 1) :=
  ⟨Int.zpow_log_le_self (by decide : 1 < 10) hr, Int.lt_zpow_succ_log_self (by decide : 1 < 10) r⟩

theorem log_mul_zpow {r : ℚ} (hr : 0 < r) (k : ℤ) : Int.log 10 (r * 10 ^ k) = Int.log 10 r + k := by
  obtain ⟨hle, hlt⟩ := log_spec hr
  have hpos : (0 : ℚ) < 10 ^ k := by positivity
  apply log_eq (by positivity)
  · rw [zpow_add₀ (by norm_num)]
    gcongr
  · rw [add_right_comm, zpow_add₀ (by norm_num)]
    gcongr

namespace Decimal

theorem digitCount_eq {n : Nat} (hn : n ≠ 0) : digitCount n = Nat.log 10 n + 1 := by
  have hpos : 0 < digitCount n := Nat.length_toDigits_pos
  have hupper : n < 10 ^ digitCount n :=
    (Nat.length_toDigits_le_iff (by decide) hpos).mp le_rfl
  have hlower : 10 ^ (digitCount n - 1) ≤ n := by
    by_contra hlt
    by_cases hone : digitCount n - 1 = 0
    · rw [hone] at hlt
      omega
    · have : digitCount n ≤ digitCount n - 1 :=
        (Nat.length_toDigits_le_iff (by decide) (by omega)).mpr (by omega)
      omega
  have hlog : Nat.log 10 n = digitCount n - 1 := by
    rw [Nat.log_eq_iff (.inr ⟨by decide, hn⟩), Nat.sub_add_cancel hpos]
    exact ⟨hlower, hupper⟩
  omega

theorem decimalExponent_eq {num den : Nat} (hnum : 0 < num) (hden : 0 < den) :
    decimalExponent num den = Int.log 10 ((num : ℚ) / den) := by
  have hnum' : (0 : ℚ) < num := by exact_mod_cast hnum
  have hden' : (0 : ℚ) < den := by exact_mod_cast hden
  have he : (digitCount num : ℤ) - digitCount den =
      Int.log 10 (num : ℚ) - Int.log 10 (den : ℚ) := by
    rw [digitCount_eq hnum.ne', digitCount_eq hden.ne', Int.log_natCast, Int.log_natCast]
    push_cast
    ring
  have hless (e : ℤ) : (Double.overPow 10 num den e).1 < (Double.overPow 10 num den e).2 ↔
      (num : ℚ) / den < 10 ^ e := by
    have hsecond := Double.overPow_pos (by decide : 0 < 10) hden num e
    have hsecond' : (0 : ℚ) < (Double.overPow 10 num den e).2 := by exact_mod_cast hsecond
    have hdiv := Double.overPow_div (by decide : 0 < 10) num den e
    have hpow : (0 : ℚ) < ((10 : ℕ) : ℚ) ^ e := by positivity
    rw [← Nat.cast_lt (α := ℚ), ← div_lt_one hsecond', hdiv, div_lt_one hpow]
    norm_num
  obtain ⟨hnumLe, hnumLt⟩ := log_spec hnum'
  obtain ⟨hdenLe, hdenLt⟩ := log_spec hden'
  unfold decimalExponent
  simp only [he, hless]
  generalize Int.log 10 (num : ℚ) = a at hnumLe hnumLt ⊢
  generalize Int.log 10 (den : ℚ) = b at hdenLe hdenLt ⊢
  have hlower : (10 : ℚ) ^ (a - b - 1) ≤ num / den := by
    rw [le_div_iff₀ hden']
    calc (10 : ℚ) ^ (a - b - 1) * den ≤ 10 ^ (a - b - 1) * 10 ^ (b + 1) := by gcongr
      _ = 10 ^ a := by rw [← zpow_add₀ (by norm_num)]; congr 1; ring
      _ ≤ num := hnumLe
  have hupper : (num : ℚ) / den < 10 ^ (a - b + 1) := by
    rw [div_lt_iff₀ hden']
    calc (num : ℚ) < 10 ^ (a + 1) := hnumLt
      _ = 10 ^ (a - b + 1) * 10 ^ b := by rw [← zpow_add₀ (by norm_num)]; congr 1; ring
      _ ≤ 10 ^ (a - b + 1) * den := by gcongr
  have hpos : (0 : ℚ) < num / den := by positivity
  split
  · rename_i h
    exact (log_eq hpos hlower (by rwa [sub_add_cancel])).symm
  · rename_i h
    exact (log_eq hpos (not_lt.mp h) hupper).symm

end Decimal

/-! ## Places and significant digits -/

/-- The nearest number with so many places after the point, or before it if negative. -/
def roundTo (places : ℤ) (q : ℚ) : ℚ := roundHalfEven (q * 10 ^ places) / 10 ^ places

/-- The nearest number with so many digits, counted from the first one of `q`. -/
def roundSignificant (count : ℕ) (q : ℚ) : ℚ := roundTo (count - 1 - Int.log 10 |q|) q

theorem roundTo_neg (places : ℤ) (q : ℚ) : roundTo places (-q) = -roundTo places q := by
  rw [roundTo, roundTo, neg_mul, roundHalfEven_neg, Int.cast_neg, neg_div]

theorem roundSignificant_neg (count : ℕ) (q : ℚ) :
    roundSignificant count (-q) = -roundSignificant count q := by
  rw [roundSignificant, roundSignificant, abs_neg, roundTo_neg]

section Significant

variable {count : ℕ} (hcount : 0 < count) {q : ℚ} (hq : 0 < q)
include hcount hq

theorem roundHalfEven_digits :
    10 ^ (count - 1) ≤ roundHalfEven (q * 10 ^ ((count : ℤ) - 1 - Int.log 10 |q|)) ∧
      roundHalfEven (q * 10 ^ ((count : ℤ) - 1 - Int.log 10 |q|)) ≤ 10 ^ count := by
  obtain ⟨hle, hlt⟩ := log_spec hq
  rw [abs_of_pos hq]
  generalize Int.log 10 q = e at hle hlt ⊢
  have hpos : (0 : ℚ) < 10 ^ ((count : ℤ) - 1 - e) := by positivity
  constructor
  · apply le_roundHalfEven
    calc ((10 ^ (count - 1) : ℤ) : ℚ) = 10 ^ e * 10 ^ ((count : ℤ) - 1 - e) := by
          rw [← zpow_add₀ (by norm_num), add_sub_cancel, ← Nat.cast_pred hcount, zpow_natCast]
          push_cast
          rfl
      _ ≤ q * 10 ^ ((count : ℤ) - 1 - e) := by gcongr
  · apply roundHalfEven_le
    calc q * 10 ^ ((count : ℤ) - 1 - e) ≤ 10 ^ (e + 1) * 10 ^ ((count : ℤ) - 1 - e) := by gcongr
      _ = ((10 ^ count : ℤ) : ℚ) := by
          rw [← zpow_add₀ (by norm_num), show e + 1 + ((count : ℤ) - 1 - e) = count by ring,
            zpow_natCast]
          push_cast
          rfl

theorem roundSignificant_pos : 0 < roundSignificant count q := by
  have hdigits := (roundHalfEven_digits hcount hq).1
  have hpos : (0 : ℤ) < roundHalfEven (q * 10 ^ ((count : ℤ) - 1 - Int.log 10 |q|)) :=
    lt_of_lt_of_le (by positivity) hdigits
  unfold roundSignificant roundTo
  exact div_pos (by exact_mod_cast hpos) (by positivity)

theorem roundTo_log_roundSignificant :
    roundTo (count - 1 - Int.log 10 (roundSignificant count q)) q = roundSignificant count q := by
  obtain ⟨hlower, hupper⟩ := roundHalfEven_digits hcount hq
  unfold roundSignificant
  generalize hplaces : (count : ℤ) - 1 - Int.log 10 |q| = places at hlower hupper ⊢
  generalize hrounded : roundHalfEven (q * 10 ^ places) = c at hlower hupper
  have hvalue : roundTo places q = c * 10 ^ (-places) := by
    rw [roundTo, hrounded, zpow_neg, div_eq_mul_inv]
  have hpos : (0 : ℚ) < c := by exact_mod_cast lt_of_lt_of_le (by positivity) hlower
  rcases hupper.lt_or_eq with hlt | hcarry
  · -- the first digit is where that of `q` is
    have hlog : Int.log 10 (c : ℚ) = count - 1 := by
      apply log_eq hpos
      · rw [← Nat.cast_pred hcount, zpow_natCast]
        exact_mod_cast hlower
      · rw [sub_add_cancel, zpow_natCast]
        exact_mod_cast hlt
    rw [hvalue, log_mul_zpow hpos, hlog, ← hvalue]
    congr 1
    ring
  · have hlog : Int.log 10 (c : ℚ) = count := by
      rw [hcarry]
      push_cast
      rw [← zpow_natCast]
      exact_mod_cast Int.log_zpow (R := ℚ) (by decide : 1 < 10) count
    have hten : c = 10 * 10 ^ (count - 1) := by
      rw [hcarry, ← pow_succ', Nat.sub_add_cancel hcount]
    have hround : roundHalfEven (q * 10 ^ (places - 1)) = 10 ^ (count - 1) := by
      rw [zpow_sub_one₀ (by norm_num), ← mul_assoc, ← div_eq_mul_inv]
      exact roundHalfEven_div_ten (hrounded.trans hten)
    have hplaces' : (count : ℤ) - 1 - (count + -places) = places - 1 := by ring
    rw [hvalue, log_mul_zpow hpos, hlog, hplaces', roundTo, hround, hten,
      zpow_sub_one₀ (by norm_num), zpow_neg]
    push_cast
    field_simp

end Significant

theorem roundTo_log_abs_roundSignificant {count : ℕ} (hcount : 0 < count) {q : ℚ} (hq : q ≠ 0) :
    roundTo (count - 1 - Int.log 10 |roundSignificant count q|) q = roundSignificant count q := by
  rcases hq.lt_or_gt with hneg | hpos
  · have hpos := neg_pos.mpr hneg
    have habs : |roundSignificant count q| = roundSignificant count (-q) := by
      rw [← abs_neg, ← roundSignificant_neg, abs_of_pos (roundSignificant_pos hcount hpos)]
    have hplaces := roundTo_log_roundSignificant hcount hpos
    rw [habs, ← neg_inj, ← roundTo_neg, ← roundSignificant_neg]
    exact hplaces
  · rw [abs_of_pos (roundSignificant_pos hcount hpos)]
    exact roundTo_log_roundSignificant hcount hpos

namespace Decimal

section Significant

variable {count num den : Nat} (hcount : 0 < count) (hnum : 0 < num) (hden : 0 < den)
include hcount hnum hden

theorem significant_exponent :
    (significant count num den).exponent = -((count : ℤ) - 1 - Int.log 10 |(num : ℚ) / den|) := by
  have hpos : (0 : ℚ) < num / den := div_pos (Nat.cast_pos.mpr hnum) (Nat.cast_pos.mpr hden)
  rw [abs_of_pos hpos, ← decimalExponent_eq hnum hden]
  simp only [significant]
  omega

theorem significant_coefficient :
    ((significant count num den).coefficient : ℤ) =
      roundHalfEven (num / den * 10 ^ ((count : ℤ) - 1 - Int.log 10 |(num : ℚ) / den|)) := by
  have hround : ((significant count num den).coefficient : ℤ) =
      roundHalfEven (num / den * 10 ^ (-(significant count num den).exponent)) :=
    Double.divHalfEven_overPow hden num _
  rw [hround, significant_exponent hcount hnum hden, neg_neg]

theorem significant_eq :
    ((significant count num den).coefficient : ℚ) * 10 ^ (significant count num den).exponent =
      roundSignificant count (num / den) := by
  rw [roundSignificant, roundTo, div_eq_mul_inv, ← zpow_neg, ← significant_exponent hcount hnum hden,
    ← Int.cast_natCast, significant_coefficient hcount hnum hden]

end Significant

theorem toPlaces_coefficient {den : Nat} (hden : 0 < den) (places num : Nat) :
    ((toPlaces places num den).coefficient : ℤ) =
      roundHalfEven ((num : ℚ) / den * 10 ^ (places : ℤ)) := by
  have hnum : ((num * Nat.pow 10 places : ℕ) : ℚ) / den = num / den * 10 ^ (places : ℤ) := by
    rw [zpow_natCast, div_mul_eq_mul_div, Nat.pow_eq]
    push_cast
    rfl
  rw [toPlaces, Double.divHalfEven_eq _ hden, hnum]

end Decimal

end Armature
