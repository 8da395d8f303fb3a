import Armature.Proofs.PrintedDigits

/-!
# Doubles as they are printed

A finite double is printed as its exact value rounded to six significant digits. The digits are
chosen first, then zeros at the end are dropped, and what is left is laid out in one of three ways
that denote the same number.
-/

namespace Armature

open Numeral

/-! ## What numerals denote -/

namespace Numeral

/-- The number that a numeral denotes. -/
def value (n : Numeral) : ℚ :=
  (if n.negative then -1 else 1) * (n.coefficient * 10 ^ (n.exponent.getD 0 - n.fraction.length))

theorem abs_value (n : Numeral) :
    |n.value| = n.coefficient * 10 ^ (n.exponent.getD 0 - n.fraction.length) := by
  have hpos : (0 : ℚ) ≤ n.coefficient * 10 ^ (n.exponent.getD 0 - n.fraction.length) := by
    positivity
  unfold value
  cases n.negative
  · simp [abs_of_nonneg hpos]
  · simp [abs_of_nonneg hpos]

theorem value_eq_abs (n : Numeral) : n.value = (if n.negative then -1 else 1) * |n.value| := by
  rw [abs_value]
  rfl

theorem Legible.whole_eq {n : Numeral} (h : n.Legible) (hexponent : n.exponent = none) :
    n.whole = Nat.toDigits 10 ⌊|n.value|⌋₊ := by
  have hfloor : ⌊|n.value|⌋₊ = ofDigits n.whole := by
    have hlt : (ofDigits n.fraction : ℚ) < 10 ^ n.fraction.length := by
      exact_mod_cast ofDigits_lt h.fraction
    have hpos : (0 : ℚ) < 10 ^ n.fraction.length := by positivity
    have hsplit : |n.value| = ofDigits n.whole + ofDigits n.fraction / 10 ^ n.fraction.length := by
      rw [abs_value, hexponent, coefficient, ofDigits_append]
      simp only [Option.getD_none, zero_sub, zpow_neg, zpow_natCast]
      push_cast
      field_simp
    rw [Nat.floor_eq_iff (abs_nonneg _), hsplit]
    refine ⟨le_add_of_nonneg_right (by positivity), ?_⟩
    have hless : (ofDigits n.fraction : ℚ) / 10 ^ n.fraction.length < 1 := (div_lt_one hpos).mpr hlt
    linarith
  rw [hfloor, h.toDigits_whole]

end Numeral

namespace Decimal

/-! ## Layouts -/

/-- A numeral that shows digits, the first of which counts for `10 ^ first`. -/
structure Shows (digits : List Char) (first : Int) (n : Numeral) : Prop where
  legible : n.Legible
  abs_value : |n.value| = ofDigits digits * 10 ^ (first + 1 - digits.length)
  last : n.fraction.getLast? ≠ some '0'

section Lay

variable {digits : List Char} (h : Trimmed digits) {first : Int} (negative : Bool)
include h

theorem Trimmed.getLast?_drop (count : Nat) : (digits.drop count).getLast? ≠ some '0' := by
  rw [List.getLast?_drop]
  split
  · nofun
  · exact h.last

theorem Trimmed.take_leading {count : Nat} (hcount : 0 < count) (zeros : List Char) :
    digits.take count ++ zeros ≠ [] ∧ (digits.take count ++ zeros).head? ≠ some '0' := by
  have hne := h.ne_nil
  have hfirst := h.first
  cases digits with
  | nil => exact absurd rfl hne
  | cons d ds =>
    obtain ⟨k, rfl⟩ := Nat.exists_eq_add_of_lt hcount
    simpa using hfirst

theorem shows_scientific :
    Shows digits first ⟨negative, digits.take 1, digits.drop 1, some first⟩ := by
  have hlength := List.length_pos_iff.mpr h.ne_nil
  refine ⟨⟨fun c hc => h.digits c (List.mem_of_mem_take hc), .inr ?_,
    fun c hc => h.digits c (List.mem_of_mem_drop hc)⟩, ?_, h.getLast?_drop 1⟩
  · simpa using h.take_leading Nat.one_pos []
  · rw [Numeral.abs_value]
    simp only [Numeral.coefficient, List.take_append_drop, Option.getD_some, List.length_drop]
    congr 2
    omega

theorem shows_small (hfirst : first < 0) :
    Shows digits first
      ⟨negative, ['0'], List.replicate (-first - 1).toNat '0' ++ digits, none⟩ := by
  refine ⟨⟨by simp, .inl rfl, fun c hc => ?_⟩, ?_, ?_⟩
  · rcases List.mem_append.mp hc with hc | hc
    · rw [List.eq_of_mem_replicate hc]
      rfl
    · exact h.digits c hc
  · rw [Numeral.abs_value]
    have hzeros : ofDigits ['0'] = 0 := by decide
    simp only [Numeral.coefficient, ofDigits_append, ofDigits_zeros, hzeros, Nat.zero_mul,
      Nat.zero_add, Option.getD_none, List.length_append, List.length_replicate]
    congr 2
    omega
  · rw [List.getLast?_append_of_ne_nil _ h.ne_nil]
    exact h.last

theorem shows_plain (hfirst : 0 ≤ first) :
    Shows digits first ⟨negative,
      digits.take (first.toNat + 1) ++ List.replicate (first.toNat + 1 - digits.length) '0',
      digits.drop (first.toNat + 1), none⟩ := by
  refine ⟨⟨fun c hc => ?_, .inr (h.take_leading (Nat.succ_pos _) _),
    fun c hc => h.digits c (List.mem_of_mem_drop hc)⟩, ?_, h.getLast?_drop _⟩
  · rcases List.mem_append.mp hc with hc | hc
    · exact h.digits c (List.mem_of_mem_take hc)
    · rw [List.eq_of_mem_replicate hc]
      rfl
  · rw [Numeral.abs_value]
    simp only [Numeral.coefficient, Option.getD_none, List.length_drop]
    rcases le_total digits.length (first.toNat + 1) with hle | hge
    · -- zeros are put behind the digits, up to the place of the point
      rw [List.take_of_length_le hle, List.drop_of_length_le hle, List.append_nil, ofDigits_append,
        ofDigits_zeros, List.length_replicate, Nat.add_zero, Nat.sub_eq_zero_of_le hle]
      have hplaces : first + 1 - digits.length = ((first.toNat + 1 - digits.length : ℕ) : ℤ) := by
        omega
      rw [hplaces, zpow_natCast]
      push_cast
      simp
    · rw [Nat.sub_eq_zero_of_le hge, List.replicate_zero, List.append_nil, List.take_append_drop]
      congr 2
      omega

end Lay

theorem Style.shows_lay {style : Style} (hstyle : style.pointZero = false) {digits : List Char}
    (h : Trimmed digits) (first : Int) (negative : Bool) :
    Shows digits first (style.lay negative digits first) := by
  unfold Style.lay
  split
  · exact shows_scientific h negative
  · split
    · rename_i hfirst
      exact shows_small h negative hfirst
    · rename_i hfirst
      simp only [hstyle, Bool.and_false, Bool.false_eq_true, if_false]
      exact shows_plain h negative (Int.not_lt.mp hfirst)

theorem Style.negative_lay (style : Style) (negative : Bool) (digits : List Char) (first : Int) :
    (style.lay negative digits first).negative = negative := by
  unfold Style.lay
  split
  · rfl
  · split <;> rfl

theorem Style.exponent_lay (style : Style) (negative : Bool) (digits : List Char) (first : Int) :
    (style.lay negative digits first).exponent =
      if first < style.least ∨ style.most < first then some first else none := by
  unfold Style.lay
  split
  · rfl
  · split <;> rfl

theorem Style.whole_lay (style : Style) (negative : Bool) {digits : List Char} (h : Trimmed digits)
    (first : Int) (hfirst : first < style.least ∨ style.most < first) :
    ∃ c, (style.lay negative digits first).whole = [c] ∧ c ≠ '0' := by
  have hne := h.ne_nil
  have hhead := h.first
  rw [Style.lay, if_pos hfirst]
  cases digits with
  | nil => exact absurd rfl hne
  | cons c rest => exact ⟨c, rfl, by simpa using hhead⟩

end Decimal

/-! ## Doubles -/

namespace Double

/-- The number that a finite double stands for. -/
def value (x : Double) : ℚ :=
  match x.view with
  | .finite negative mantissa exponent => (if negative then -1 else 1) * (mantissa * 2 ^ exponent)
  | _ => 0

theorem ratio_div (mantissa : Nat) (exponent : Int) :
    ((ratio mantissa exponent).1 : ℚ) / (ratio mantissa exponent).2 = mantissa * 2 ^ exponent := by
  have hbase : 0 < 2 := by decide
  rw [ratio, overPow_div hbase, zpow_neg]
  norm_num

theorem ratio_pos {mantissa : Nat} (h : mantissa ≠ 0) (exponent : Int) :
    0 < (ratio mantissa exponent).1 ∧ 0 < (ratio mantissa exponent).2 := by
  have hbase : 0 < 2 := by decide
  refine ⟨?_, overPow_pos hbase Nat.one_pos _ _⟩
  rw [ratio, overPow]
  split
  · exact Nat.pos_of_ne_zero h
  · exact Nat.mul_pos (Nat.pos_of_ne_zero h) (Nat.pow_pos hbase)

theorem view_bounds {x : Double} {negative : Bool} {mantissa : Nat} {exponent : Int}
    (hx : x.view = .finite negative mantissa exponent) :
    mantissa < 2 ^ 53 ∧ -1074 ≤ exponent ∧ exponent ≤ 971 := by
  have hunit : unit = 2 ^ 52 := by decide
  have hfraction : x.bits.toNat % unit < unit := Nat.mod_lt _ (by decide)
  have hbiased : x.bits.toNat / unit % 2048 < 2048 := Nat.mod_lt _ (by decide)
  simp only [view] at hx
  split at hx
  · split at hx
    · cases hx
    · cases hx
  · rename_i htop
    simp only [topExponent] at htop
    split at hx
    · cases hx
      omega
    · cases hx
      omega

/-- The six digits that are printed. -/
def sixDigits (mantissa : Nat) (exponent : Int) : Decimal :=
  .significant 6 (ratio mantissa exponent).1 (ratio mantissa exponent).2

theorem sixDigits_pos {mantissa : Nat} (h : mantissa ≠ 0) (exponent : Int) :
    0 < (sixDigits mantissa exponent).coefficient := by
  obtain ⟨hnum, hden⟩ := ratio_pos h exponent
  have hsix : 0 < 6 := by decide
  have hdigits := Decimal.significant_eq hsix hnum hden
  have hpos := roundSignificant_pos hsix (div_pos (Nat.cast_pos.mpr hnum) (Nat.cast_pos.mpr hden))
  rw [← hdigits] at hpos
  exact_mod_cast pos_of_mul_pos_left hpos (by positivity)

section Finite

variable {x : Double} {negative : Bool} {mantissa : Nat} {exponent : Int}
  (hx : x.view = .finite negative mantissa exponent) (hmantissa : mantissa ≠ 0)
include hx hmantissa

theorem log_ratio_bounds :
    -1074 ≤ Int.log 10 (((ratio mantissa exponent).1 : ℚ) / (ratio mantissa exponent).2) ∧
      Int.log 10 (((ratio mantissa exponent).1 : ℚ) / (ratio mantissa exponent).2) < 1024 := by
  obtain ⟨hbound, hleast, hmost⟩ := view_bounds hx
  have hone : (1 : ℚ) ≤ mantissa := by exact_mod_cast Nat.one_le_iff_ne_zero.mpr hmantissa
  have hpos : (0 : ℚ) < mantissa * 2 ^ exponent := by positivity
  have hbase (n : ℕ) : (2 : ℚ) ^ n ≤ 10 ^ n := pow_le_pow_left₀ (by norm_num) (by norm_num) n
  have hinv (n : ℕ) : ((10 : ℕ) : ℚ) ^ (-n : ℤ) ≤ 2 ^ (-n : ℤ) := by
    rw [zpow_neg, zpow_neg, zpow_natCast, zpow_natCast]
    exact inv_anti₀ (by positivity) (hbase n)
  rw [ratio_div]
  constructor
  · rw [← Int.zpow_le_iff_le_log (by decide) hpos]
    calc ((10 : ℕ) : ℚ) ^ (-1074 : ℤ) ≤ 2 ^ (-1074 : ℤ) := hinv 1074
      _ ≤ 2 ^ exponent := by gcongr; norm_num
      _ ≤ mantissa * 2 ^ exponent := le_mul_of_one_le_left (by positivity) hone
  · rw [← Int.lt_zpow_iff_log_lt (by decide) hpos]
    have hupper : (mantissa : ℚ) < 2 ^ (53 : ℤ) := by exact_mod_cast hbound
    calc (mantissa : ℚ) * 2 ^ exponent < 2 ^ (53 : ℤ) * 2 ^ exponent := by gcongr
      _ ≤ 2 ^ (53 : ℤ) * 2 ^ (971 : ℤ) := by gcongr; norm_num
      _ = 2 ^ (1024 : ℤ) := by rw [← zpow_add₀ (by norm_num)]; norm_num
      _ ≤ ((10 : ℕ) : ℚ) ^ (1024 : ℤ) := hbase 1024

/-- The exponent that is read back from the first text is small. -/
theorem sixDigits_first :
    -1074 ≤ (sixDigits mantissa exponent).normalized.2 ∧
      (sixDigits mantissa exponent).normalized.2 ≤ 1024 := by
  obtain ⟨hnum, hden⟩ := ratio_pos hmantissa exponent
  have hbounds := log_ratio_bounds hx hmantissa
  have hnear := Decimal.normalized_significant_near hnum hden
  rw [sixDigits]
  omega

theorem text_eq :
    x.text = (Decimal.printStyle.lay negative (sixDigits mantissa exponent).normalized.1
      (sixDigits mantissa exponent).normalized.2).text 2 := by
  obtain ⟨hnum, hden⟩ := ratio_pos hmantissa exponent
  obtain ⟨hleast, hmost⟩ := sixDigits_first hx hmantissa
  have hgeneral := Decimal.general_eq hnum hden negative (le_trans (by decide) hleast)
    (lt_of_le_of_lt hmost (by decide))
  rw [text, hx]
  simp only [hmantissa, if_false, hgeneral]
  rfl

theorem roundSignificant_value :
    roundSignificant 6 x.value = (if negative then -1 else 1) *
      ((sixDigits mantissa exponent).coefficient *
        10 ^ (sixDigits mantissa exponent).exponent) := by
  obtain ⟨hnum, hden⟩ := ratio_pos hmantissa exponent
  have hdigits := Decimal.significant_eq (by decide : 0 < 6) hnum hden
  rw [ratio_div] at hdigits
  rw [sixDigits, hdigits, value, hx]
  cases negative
  · simp
  · simp [roundSignificant_neg]

theorem abs_roundSignificant_value :
    |roundSignificant 6 x.value| =
      (sixDigits mantissa exponent).coefficient * 10 ^ (sixDigits mantissa exponent).exponent := by
  have hnonneg : (0 : ℚ) ≤
    (sixDigits mantissa exponent).coefficient * 10 ^ (sixDigits mantissa exponent).exponent := by
    positivity
  rw [roundSignificant_value hx hmantissa, abs_mul, abs_of_nonneg hnonneg]
  cases negative <;> simp

theorem value_ne_zero : x.value ≠ 0 := by
  have hpos : (0 : ℚ) < mantissa * 2 ^ exponent := by positivity
  rw [value, hx]
  cases negative
  · simpa using hpos.ne'
  · simpa using hpos.ne'

theorem normalized_sixDigits :
    (sixDigits mantissa exponent).normalized.2 = Int.log 10 |roundSignificant 6 x.value| := by
  rw [Decimal.normalized_snd (sixDigits_pos hmantissa exponent),
    abs_roundSignificant_value hx hmantissa]

theorem exponent_read :
    ∃ before power, Decimal.splitOnce 'e' (Decimal.scientific negative 5
        (ratio mantissa exponent).1 (ratio mantissa exponent).2) = some (before, power) ∧
      Decimal.readInt? power = some (Int.log 10 |roundSignificant 6 x.value|) := by
  obtain ⟨hnum, hden⟩ := ratio_pos hmantissa exponent
  obtain ⟨hleast, hmost⟩ := sixDigits_first hx hmantissa
  obtain ⟨hlower, hupper⟩ := Decimal.significant_six hnum hden
  obtain ⟨c, -, -, htake, -⟩ := Decimal.exists_six hlower hupper
  refine ⟨_, _, Decimal.splitOnce_scientific negative _ _ htake, ?_⟩
  rw [← normalized_sixDigits hx hmantissa]
  exact Decimal.readInt?_ofInt (le_trans (by decide) hleast) (lt_of_le_of_lt hmost (by decide))

theorem rounded_again (hfirst : Int.log 10 |roundSignificant 6 x.value| ≤ 5) :
    ((Decimal.toPlaces (5 - Int.log 10 |roundSignificant 6 x.value|).toNat
        (ratio mantissa exponent).1 (ratio mantissa exponent).2).coefficient : ℚ) *
      10 ^ (Decimal.toPlaces (5 - Int.log 10 |roundSignificant 6 x.value|).toNat
        (ratio mantissa exponent).1 (ratio mantissa exponent).2).exponent =
      |roundSignificant 6 x.value| := by
  obtain ⟨hnum, hden⟩ := ratio_pos hmantissa exponent
  rw [← normalized_sixDigits hx hmantissa] at hfirst ⊢
  rw [abs_roundSignificant_value hx hmantissa]
  exact Decimal.toPlaces_eq hnum hden hfirst

theorem exists_numeral :
    ∃ n : Numeral, x.text.toList = n.chars 2 ∧ n.value = roundSignificant 6 x.value ∧
      ∃ digits, Decimal.Trimmed digits ∧
        n = Decimal.printStyle.lay negative digits (Int.log 10 |roundSignificant 6 x.value|) := by
  have hpos := sixDigits_pos hmantissa exponent
  have hfirst := normalized_sixDigits hx hmantissa
  have htrimmed : Decimal.Trimmed (sixDigits mantissa exponent).normalized.1 :=
    Decimal.trimmed_stripZeros hpos
  refine ⟨_, ?_, ?_, _, htrimmed, rfl⟩
  · rw [text_eq hx hmantissa, hfirst, Numeral.text, String.toList_ofList]
  · have hshows := Decimal.Style.shows_lay (rfl : Decimal.printStyle.pointZero = false) htrimmed
      (Int.log 10 |roundSignificant 6 x.value|) negative
    rw [value_eq_abs, hshows.abs_value, Decimal.printStyle.negative_lay, ← hfirst,
      Decimal.ofDigits_normalized, roundSignificant_value hx hmantissa]

end Finite

/-- The text of a finite double denotes its value, rounded to six significant digits. The exponent
that decides on the notation is read back from a text and is that of the rounded number, and the
second rounding, to the places that are shown, gives the same number. There is an exponent if the
first digit stands for less than `0.0001` or for a million or more. -/
theorem text_denotes {x : Double} {negative : Bool} {mantissa : Nat} {exponent : Int}
    (hx : x.view = .finite negative mantissa exponent) (hmantissa : mantissa ≠ 0) :
    let rounded := roundSignificant 6 x.value
    let first := Int.log 10 |rounded|
    let num := (ratio mantissa exponent).1
    let den := (ratio mantissa exponent).2
    let again := Decimal.toPlaces (5 - first).toNat num den
    (∃ before power, Decimal.splitOnce 'e' (Decimal.scientific negative 5 num den) =
        some (before, power) ∧ Decimal.readInt? power = some first) ∧
      (first ≤ 5 → (again.coefficient : ℚ) * 10 ^ again.exponent = |rounded|) ∧
      roundTo (5 - first) x.value = rounded ∧
      ∃ n significand suffix, Json.numeral x.text.toList = some (n, []) ∧ n.value = rounded ∧
        x.text.toList = significand ++ suffix ∧ 'e' ∉ significand ∧
        ('.' ∈ significand → significand.getLast? ≠ some '0' ∧ significand.getLast? ≠ some '.') ∧
        (-4 ≤ first ∧ first < 6 → suffix = [] ∧ n.whole = Nat.toDigits 10 ⌊|rounded|⌋₊) ∧
        (first < -4 ∨ 6 ≤ first → (∃ c, n.whole = [c] ∧ c ≠ '0') ∧
          ∃ digits, suffix = 'e' :: (if first < 0 then '-' else '+') :: digits ∧
            2 ≤ digits.length ∧ (∀ c ∈ digits, c.isDigit = true) ∧
              ofDigits digits = first.natAbs) := by
  intro rounded first num den again
  obtain ⟨n, htext, hvalue, digits, htrimmed, hn⟩ := exists_numeral hx hmantissa
  have hplaces := roundTo_log_abs_roundSignificant (by decide : 0 < 6) (value_ne_zero hx hmantissa)
  have hshows :=
    Decimal.Style.shows_lay (rfl : Decimal.printStyle.pointZero = false) htrimmed first negative
  have hexponent := Decimal.printStyle.exponent_lay negative digits first
  have hwhole := Decimal.printStyle.whole_lay negative htrimmed first
  rw [← hn] at hshows hexponent hwhole
  obtain ⟨hmark, hpoint⟩ := hshows.legible.significand_spec hshows.last
  refine ⟨exponent_read hx hmantissa, rounded_again hx hmantissa, by exact_mod_cast hplaces, n,
    n.significand, suffix 2 n.exponent, ?_, hvalue, ?_, hmark,
    hpoint, fun hfixed => ?_, fun hscientific => ?_⟩
  · rw [htext]
    simpa using Json.numeral_chars hshows.legible 2 (by simp [Json.Ends] : Json.Ends [])
  · rw [htext, n.chars_eq]
  · have hnone : n.exponent = none := by
      rw [hexponent, if_neg]
      simp only [Decimal.printStyle]
      omega
    have hinteger := hshows.legible.whole_eq hnone
    rw [hvalue] at hinteger
    rw [hnone]
    exact ⟨rfl, hinteger⟩
  · have hrange : first < Decimal.printStyle.least ∨ Decimal.printStyle.most < first := by
      simp only [Decimal.printStyle]
      omega
    obtain ⟨hdigits, hnumber⟩ := padLeft_toDigits 2 first.natAbs
    rw [hexponent, if_pos hrange]
    exact ⟨hwhole hrange, _, rfl, le_length_padLeft 2 _, hdigits, hnumber⟩

/-- A half below a million is rounded up to it, and the carry brings an exponent. -/
theorem nearMillion_denotes :
    (⟨0x412E847F00000000⟩ : Double).view = .finite false 0x1E847F00000000 (-33) ∧
      (⟨0x412E847F00000000⟩ : Double).text = "1e+06" ∧
      roundSignificant 6 (⟨0x412E847F00000000⟩ : Double).value = 1000000 := by
  have hview : (⟨0x412E847F00000000⟩ : Double).view = .finite false 0x1E847F00000000 (-33) := by
    decide +kernel
  have htext : (⟨0x412E847F00000000⟩ : Double).text = "1e+06" := by decide +kernel
  have hread : Json.numeral "1e+06".toList = some (⟨false, ['1'], [], some 6⟩, []) := by
    decide +kernel
  obtain ⟨-, -, -, n, -, -, hnumeral, hvalue, -⟩ := text_denotes hview (by decide)
  rw [htext, hread] at hnumeral
  cases hnumeral
  refine ⟨hview, htext, ?_⟩
  rw [← hvalue]
  have hone : Numeral.coefficient ⟨false, ['1'], [], some 6⟩ = 1 := by decide
  simp only [Numeral.value, hone]
  norm_num

end Double

end Armature
