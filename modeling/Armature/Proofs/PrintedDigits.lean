import Armature.Decimal.Printing
import Armature.Proofs.Numerals
import Armature.Proofs.Rounding
import Mathlib.Data.List.TakeWhile

/-!
# The digits that are printed

Printing rounds a number twice, to six significant digits and, if it is written without an exponent,
to the places that these digits leave. The second rounding gives the digits of the first one, so what
is printed is a layout of those.
-/

namespace Armature

open Numeral

namespace Decimal

/-! ## Stripping -/

theorem exists_stripEnd (c : Char) (text : List Char) :
    ∃ k, text = stripEnd c text ++ List.replicate k c ∧ (stripEnd c text).getLast? ≠ some c := by
  have hsame : text.reverse.takeWhile (· = c) =
      List.replicate (text.reverse.takeWhile (· = c)).length c := by
    rw [List.eq_replicate_iff]
    refine ⟨rfl, fun d hd => ?_⟩
    simpa using List.mem_takeWhile_imp hd
  refine ⟨(text.reverse.takeWhile (· = c)).length, ?_, ?_⟩
  · have hsplit := congrArg List.reverse
      (List.takeWhile_append_dropWhile (p := (· = c)) (l := text.reverse))
    rw [hsame, List.reverse_append, List.reverse_replicate, List.reverse_reverse] at hsplit
    exact hsplit.symm
  · rw [stripEnd, List.getLast?_reverse]
    intro hhead
    have := List.head?_dropWhile_not (· = c) text.reverse
    rw [hhead] at this
    simp at this

theorem stripEnd_append_replicate {c : Char} {text : List Char} (h : text.getLast? ≠ some c)
    (k : Nat) : stripEnd c (text ++ List.replicate k c) = text := by
  have hsame : ∀ d ∈ List.replicate k c, decide (d = c) = true := by simp
  rw [stripEnd, List.reverse_append, List.reverse_replicate, List.dropWhile_append_of_pos hsame]
  have hhead : text.reverse.head? ≠ some c := by rwa [List.head?_reverse]
  have hkept : text.reverse.dropWhile (· = c) = text.reverse := by
    cases hrev : text.reverse with
    | nil => rfl
    | cons d rest =>
      rw [hrev] at hhead
      have hd : d ≠ c := by simpa using hhead
      simp [hd]
  rw [hkept, List.reverse_reverse]

theorem stripEnd_of_getLast? {c : Char} {text : List Char} (h : text.getLast? ≠ some c) :
    stripEnd c text = text := by
  simpa using stripEnd_append_replicate h 0

theorem exists_stripZeros (digits : List Char) :
    ∃ k, digits = stripZeros digits ++ List.replicate k '0' ∧
      (stripZeros digits).getLast? ≠ some '0' :=
  exists_stripEnd '0' digits

section Digits

variable (digits : List Char) (count : Nat)

theorem stripZeros_drop : stripZeros (digits.drop count) = (stripZeros digits).drop count := by
  obtain ⟨k, hsplit, hlast⟩ := exists_stripZeros digits
  have hdrop : digits.drop count = (stripZeros digits).drop count ++
      List.replicate (k - (count - (stripZeros digits).length)) '0' := by
    conv_lhs => rw [hsplit]
    rw [List.drop_append, List.drop_replicate]
  rw [hdrop]
  apply stripEnd_append_replicate
  rw [List.getLast?_drop]
  split
  · intro h
    cases h
  · exact hlast

theorem take_stripZeros (hcount : count ≤ digits.length) :
    digits.take count = (stripZeros digits).take count ++
      List.replicate (count - (stripZeros digits).length) '0' := by
  obtain ⟨k, hsplit, -⟩ := exists_stripZeros digits
  have hlength := congrArg List.length hsplit
  rw [List.length_append, List.length_replicate] at hlength
  have hzeros : min (count - (stripZeros digits).length) k =
      count - (stripZeros digits).length := by
    omega
  conv_lhs => rw [hsplit]
  rw [List.take_append, List.take_replicate, hzeros]

theorem stripZeros_append {rest : List Char} (h : stripZeros rest ≠ []) :
    stripZeros (digits ++ rest) = digits ++ stripZeros rest := by
  obtain ⟨k, hsplit, hlast⟩ := exists_stripZeros rest
  conv_lhs => rw [hsplit, ← List.append_assoc]
  apply stripEnd_append_replicate
  rw [List.getLast?_append_of_ne_nil _ h]
  exact hlast

end Digits

theorem stripFraction_significand {n : Numeral} (hwhole : ∀ c ∈ n.whole, c.isDigit = true)
    (hfraction : ∀ c ∈ n.fraction, c.isDigit = true) :
    stripFraction n.significand =
      significand ⟨n.negative, n.whole, stripZeros n.fraction, n.exponent⟩ := by
  have hpoint {ds : List Char} (h : ∀ c ∈ ds, c.isDigit = true) : '.' ∉ ds := by
    intro hmem
    exact absurd (h _ hmem) (by decide)
  generalize hbefore : (if n.negative then ['-'] else []) ++ n.whole = before
  have hnone : '.' ∉ before := by
    rw [← hbefore, List.mem_append, not_or]
    refine ⟨?_, hpoint hwhole⟩
    cases n.negative <;> decide
  have hlast : before.getLast? ≠ some '.' := fun h => hnone (List.mem_of_getLast? h)
  unfold significand places
  rw [hbefore]
  by_cases hempty : n.fraction = []
  · have hstrip : stripZeros [] = [] := rfl
    simp only [hempty, hstrip, List.isEmpty_nil, if_true, List.append_nil]
    rw [stripFraction, if_neg (by simpa using hnone)]
  · obtain ⟨k, hsplit, hzero⟩ := exists_stripZeros n.fraction
    have hzeros : stripEnd '0' (before ++ '.' :: n.fraction) =
        before ++ '.' :: stripZeros n.fraction := by
      conv_lhs => rw [hsplit, ← List.cons_append, ← List.append_assoc]
      apply stripEnd_append_replicate
      rw [List.getLast?_append_of_ne_nil _ (List.cons_ne_nil _ _), List.getLast?_cons]
      cases hend : (stripZeros n.fraction).getLast? with
      | none => decide
      | some c => rwa [hend] at hzero
    have hdot : '.' ∉ stripZeros n.fraction := by
      intro hmem
      refine hpoint hfraction ?_
      rw [hsplit]
      exact List.mem_append_left _ hmem
    simp only [List.isEmpty_iff, hempty, if_false]
    rw [stripFraction, if_pos (by simp), hzeros]
    by_cases hnil : stripZeros n.fraction = []
    · rw [hnil, if_pos rfl, List.append_nil]
      exact stripEnd_append_replicate hlast 1
    · rw [if_neg hnil]
      apply stripEnd_of_getLast?
      rw [List.getLast?_append_of_ne_nil _ (List.cons_ne_nil _ _)]
      intro h
      rw [List.getLast?_cons_of_ne_nil hnil] at h
      exact hdot (List.mem_of_getLast? h)

/-! ## Reading the exponent -/

theorem splitOnce_append {c : Char} {before : List Char} (h : c ∉ before) (after : List Char) :
    splitOnce c (before ++ c :: after) = some (before, after) := by
  induction before with
  | nil => simp [splitOnce]
  | cons d before ih =>
    rw [List.mem_cons, not_or] at h
    simp [splitOnce, ih h.2, Ne.symm h.1]

theorem splitSign_digits {ds : List Char} (h : ∀ c ∈ ds, c.isDigit = true) :
    splitSign ds = (false, ds) := by
  unfold splitSign
  split
  · exact absurd (h '-' List.mem_cons_self) (by decide)
  · exact absurd (h '+' List.mem_cons_self) (by decide)
  · rfl

theorem readInt?_ofInt {i : Int} (hlower : -0x80000000 ≤ i) (hupper : i < 0x80000000) :
    readInt? ((Numeral.ofInt i).chars 0) = some i := by
  have hdigits := isDigit_of_mem_toDigits i.natAbs
  have hall : (Nat.toDigits 10 i.natAbs).all Char.isDigit = true := List.all_eq_true.mpr hdigits
  have hsign : splitSign ((Numeral.ofInt i).chars 0) =
      (decide (i < 0), Nat.toDigits 10 i.natAbs) := by
    by_cases hi : i < 0
    · simp [Numeral.chars, Numeral.ofInt, hi, splitSign]
    · simp [Numeral.chars, Numeral.ofInt, hi, splitSign_digits hdigits]
  have hvalue : Double.signed (decide (i < 0)) i.natAbs = i := by
    unfold Double.signed
    split
    · rename_i hi
      rw [decide_eq_true_eq] at hi
      omega
    · rename_i hi
      rw [decide_eq_true_eq] at hi
      omega
  rw [readInt?, hsign]
  simp [hall, ofDigits_toDigits, hvalue, hlower, hupper]

/-! ## Digits without trailing zeros -/

/-- Digits that begin and end with one that is not zero. -/
structure Trimmed (ds : List Char) : Prop where
  digits : ∀ c ∈ ds, c.isDigit = true
  ne_nil : ds ≠ []
  first : ds.head? ≠ some '0'
  last : ds.getLast? ≠ some '0'

theorem ofDigits_normalized (d : Decimal) :
    (ofDigits d.normalized.1 : ℚ) * 10 ^ (d.normalized.2 + 1 - d.normalized.1.length) =
      d.coefficient * 10 ^ d.exponent := by
  obtain ⟨k, hsplit, -⟩ := exists_stripZeros (Nat.toDigits 10 d.coefficient)
  have hvalue : d.coefficient = ofDigits (stripZeros (Nat.toDigits 10 d.coefficient)) * 10 ^ k := by
    have := congrArg ofDigits hsplit
    rwa [ofDigits_toDigits, ofDigits_append, ofDigits_zeros, List.length_replicate,
      Nat.add_zero] at this
  have hlength := congrArg List.length hsplit
  rw [List.length_append, List.length_replicate] at hlength
  have hexponent : d.normalized.2 + 1 - d.normalized.1.length = k + d.exponent := by
    simp only [normalized]
    omega
  rw [hexponent, zpow_add₀ (by norm_num), zpow_natCast, ← mul_assoc]
  congr 1
  rw [normalized]
  exact_mod_cast hvalue.symm

theorem trimmed_stripZeros {c : Nat} (hc : 0 < c) : Trimmed (stripZeros (Nat.toDigits 10 c)) := by
  obtain ⟨k, hsplit, hlast⟩ := exists_stripZeros (Nat.toDigits 10 c)
  have hhead := head_toDigits c hc
  have hne : stripZeros (Nat.toDigits 10 c) ≠ [] := by
    intro hnil
    rw [hnil, List.nil_append] at hsplit
    cases k with
    | zero => exact Nat.toDigits_ne_nil hsplit
    | succ k => exact hhead (by rw [hsplit]; rfl)
  refine ⟨fun d hd => ?_, hne, ?_, hlast⟩
  · apply isDigit_of_mem_toDigits c
    rw [hsplit]
    exact List.mem_append_left _ hd
  · rw [hsplit, List.head?_append_of_ne_nil _ hne] at hhead
    exact hhead

theorem normalized_snd {d : Decimal} (hd : 0 < d.coefficient) :
    d.normalized.2 = Int.log 10 ((d.coefficient : ℚ) * 10 ^ d.exponent) := by
  have hcount : ((Nat.toDigits 10 d.coefficient).length : ℤ) = Nat.log 10 d.coefficient + 1 := by
    exact_mod_cast digitCount_eq hd.ne'
  rw [log_mul_zpow (by exact_mod_cast hd), Int.log_natCast, normalized, hcount]
  ring

/-! ## Six digits -/

theorem length_six {c : Nat} (hlower : 100000 ≤ c) (hupper : c < 1000000) :
    (Nat.toDigits 10 c).length = 6 := by
  have hlog : Nat.log 10 c = 5 := by
    rw [Nat.log_eq_iff (.inr ⟨by decide, by omega⟩)]
    exact ⟨by omega, by omega⟩
  have := digitCount_eq (by omega : c ≠ 0)
  rwa [hlog] at this

/-- A decimal of six digits, or of seven after a carry, is one of six digits at the same place. -/
theorem exists_six {d : Decimal} (hlower : 100000 ≤ d.coefficient)
    (hupper : d.coefficient ≤ 1000000) :
    ∃ c, 100000 ≤ c ∧ c < 1000000 ∧ (Nat.toDigits 10 d.coefficient).take 6 = Nat.toDigits 10 c ∧
      d.normalized.1 = stripZeros (Nat.toDigits 10 c) ∧
      (c : ℚ) * 10 ^ (d.normalized.2 - 5) = d.coefficient * 10 ^ d.exponent := by
  rcases hupper.lt_or_eq with hlt | hcarry
  · have hlength := length_six hlower hlt
    have hfirst : d.normalized.2 - 5 = d.exponent := by
      simp only [normalized, hlength]
      omega
    refine ⟨d.coefficient, hlower, hlt, ?_, rfl, by rw [hfirst]⟩
    exact List.take_of_length_le hlength.le
  · have hfirst : d.normalized.2 - 5 = d.exponent + 1 := by
      have hlength : (Nat.toDigits 10 1000000).length = 7 := by decide
      simp only [normalized, hcarry, hlength]
      omega
    refine ⟨100000, le_rfl, by decide, ?_, ?_, ?_⟩
    · rw [hcarry]
      decide
    · change stripZeros (Nat.toDigits 10 d.coefficient) = _
      rw [hcarry]
      decide
    · rw [hfirst, hcarry, zpow_add_one₀ (by norm_num)]
      push_cast
      ring

section Rounded

variable {num den : Nat} (hnum : 0 < num) (hden : 0 < den)
include hnum hden

theorem quotient_pos : (0 : ℚ) < num / den :=
  div_pos (Nat.cast_pos.mpr hnum) (Nat.cast_pos.mpr hden)

theorem significant_six :
    100000 ≤ (significant 6 num den).coefficient ∧
      (significant 6 num den).coefficient ≤ 1000000 := by
  have hpos := quotient_pos hnum hden
  obtain ⟨hlower, hupper⟩ := roundHalfEven_digits (by decide : 0 < 6) hpos
  rw [← significant_coefficient (by decide) hnum hden] at hlower hupper
  exact ⟨by exact_mod_cast hlower, by exact_mod_cast hupper⟩

theorem normalized_significant :
    (significant 6 num den).normalized.2 = Int.log 10 (roundSignificant 6 ((num : ℚ) / den)) := by
  have hpos := (significant_six hnum hden).1
  rw [normalized_snd (by omega), significant_eq (by decide) hnum hden]

theorem normalized_significant_near :
    Int.log 10 ((num : ℚ) / den) ≤ (significant 6 num den).normalized.2 ∧
      (significant 6 num den).normalized.2 ≤ Int.log 10 ((num : ℚ) / den) + 1 := by
  have hpos := quotient_pos hnum hden
  obtain ⟨hlower, hupper⟩ := significant_six hnum hden
  have hexponent := significant_exponent (by decide : 0 < 6) hnum hden
  have hcount : (Nat.toDigits 10 (significant 6 num den).coefficient).length =
      Nat.log 10 (significant 6 num den).coefficient + 1 := digitCount_eq (by omega)
  have hleast : 5 ≤ Nat.log 10 (significant 6 num den).coefficient :=
    Nat.le_log_of_pow_le (by decide) hlower
  have hmost : Nat.log 10 (significant 6 num den).coefficient < 7 :=
    Nat.log_lt_of_lt_pow (by omega) (by omega)
  rw [abs_of_pos hpos] at hexponent
  simp only [normalized, hcount]
  omega

/-- The second rounding gives the digits of the first. -/
theorem toPlaces_six {c : Nat}
    (hc : (c : ℚ) * 10 ^ ((significant 6 num den).normalized.2 - 5) =
      (significant 6 num den).coefficient * 10 ^ (significant 6 num den).exponent)
    (hfirst : (significant 6 num den).normalized.2 ≤ 5) :
    (toPlaces (5 - (significant 6 num den).normalized.2).toNat num den).coefficient = c := by
  have hagain := roundTo_log_roundSignificant (by decide : 0 < 6) (quotient_pos hnum hden)
  rw [← normalized_significant hnum hden, ← significant_eq (by decide) hnum hden, ← hc] at hagain
  generalize (significant 6 num den).normalized.2 = first at hfirst hagain ⊢
  have hplaces : ((5 - first).toNat : ℤ) = 5 - first := by omega
  have hcount : ((6 : ℕ) : ℤ) - 1 - first = 5 - first := by omega
  have hpow : (10 : ℚ) ^ (first - 5) = (10 ^ (5 - first))⁻¹ := by
    rw [← zpow_neg, neg_sub]
  rw [hcount, roundTo, hpow, ← div_eq_mul_inv, div_left_inj' (by positivity)] at hagain
  have hround := toPlaces_coefficient hden (5 - first).toNat num
  rw [hplaces] at hround
  rw [← hround] at hagain
  exact_mod_cast hagain

theorem toPlaces_eq (hfirst : (significant 6 num den).normalized.2 ≤ 5) :
    ((toPlaces (5 - (significant 6 num den).normalized.2).toNat num den).coefficient : ℚ) *
        10 ^ (toPlaces (5 - (significant 6 num den).normalized.2).toNat num den).exponent =
      (significant 6 num den).coefficient * 10 ^ (significant 6 num den).exponent := by
  obtain ⟨c, -, -, -, -, hc⟩ :=
    exists_six (significant_six hnum hden).1 (significant_six hnum hden).2
  have hexponent : (toPlaces (5 - (significant 6 num den).normalized.2).toNat num den).exponent =
      (significant 6 num den).normalized.2 - 5 := by
    simp only [toPlaces]
    omega
  rw [toPlaces_six hnum hden hc hfirst, hexponent, hc]

end Rounded

/-! ## Texts -/

/-- Printed numbers have no exponent from `0.0001` up to six digits before the point. -/
def printStyle : Style := ⟨-4, 5, false⟩

theorem scientific_eq (negative : Bool) (num den : Nat) {digits : List Char}
    (hdigits : (Nat.toDigits 10 (significant 6 num den).coefficient).take 6 = digits) :
    scientific negative 5 num den =
      significand ⟨negative, digits.take 1, digits.drop 1, none⟩ ++
        'e' :: (Numeral.ofInt (significant 6 num den).normalized.2).chars 0 := by
  rw [← hdigits, List.take_take, List.drop_take]
  exact congrArg (· ++ _) (chars_eq_significand rfl 0)

theorem splitOnce_scientific (negative : Bool) (num den : Nat) {c : Nat}
    (hc : (Nat.toDigits 10 (significant 6 num den).coefficient).take 6 = Nat.toDigits 10 c) :
    splitOnce 'e' (scientific negative 5 num den) =
      some (significand ⟨negative, (Nat.toDigits 10 c).take 1, (Nat.toDigits 10 c).drop 1, none⟩,
        (Numeral.ofInt (significant 6 num den).normalized.2).chars 0) := by
  have hdigits := isDigit_of_mem_toDigits c
  rw [scientific_eq negative num den hc]
  exact splitOnce_append (not_mem_significand
    (fun d hd => hdigits d (List.mem_of_mem_take hd))
    fun d hd => hdigits d (List.mem_of_mem_drop hd)) _

section Layouts

variable {c : Nat} (hlower : 100000 ≤ c) (hupper : c < 1000000) (negative : Bool) {first : Int}
include hlower hupper

theorem stripFraction_scientific :
    stripFraction (significand
        ⟨negative, (Nat.toDigits 10 c).take 1, (Nat.toDigits 10 c).drop 1, none⟩) ++
      suffix 2 (some first) =
      chars 2 ⟨negative, (stripZeros (Nat.toDigits 10 c)).take 1,
        (stripZeros (Nat.toDigits 10 c)).drop 1, some first⟩ := by
  have hdigits := isDigit_of_mem_toDigits c
  have hlength := length_six hlower hupper
  have hne := List.length_pos_iff.mpr (trimmed_stripZeros (by omega : 0 < c)).ne_nil
  have hzeros : 1 - (stripZeros (Nat.toDigits 10 c)).length = 0 := Nat.sub_eq_zero_of_le hne
  have htake := take_stripZeros (Nat.toDigits 10 c) 1 (by omega)
  rw [hzeros, List.replicate_zero, List.append_nil] at htake
  rw [stripFraction_significand (fun d hd => hdigits d (List.mem_of_mem_take hd))
    fun d hd => hdigits d (List.mem_of_mem_drop hd), chars_eq, stripZeros_drop, htake]
  rfl

theorem stripFraction_fixed {num den : Nat} (hleast : -4 ≤ first) (hmost : first ≤ 5)
    (hc : (toPlaces (5 - first).toNat num den).coefficient = c) :
    stripFraction (fixed negative (5 - first).toNat num den) =
      (printStyle.lay negative (stripZeros (Nat.toDigits 10 c)) first).chars 2 := by
  have hlength := length_six hlower hupper
  have hpadded := padLeft_toDigits ((5 - first).toNat + 1) c
  have htrimmed := trimmed_stripZeros (by omega : 0 < c)
  have hlay : printStyle.lay negative (stripZeros (Nat.toDigits 10 c)) first =
      if first < 0 then
        ⟨negative, ['0'], List.replicate (-first - 1).toNat '0' ++ stripZeros (Nat.toDigits 10 c),
          none⟩
      else
        ⟨negative, (stripZeros (Nat.toDigits 10 c)).take (first.toNat + 1) ++
            List.replicate (first.toNat + 1 - (stripZeros (Nat.toDigits 10 c)).length) '0',
          (stripZeros (Nat.toDigits 10 c)).drop (first.toNat + 1), none⟩ := by
    simp only [Style.lay, printStyle, Bool.and_false, Bool.false_eq_true, if_false]
    rw [if_neg (by omega)]
  simp only [fixed, hc]
  rw [chars_eq_significand rfl,
    stripFraction_significand (fun d hd => hpadded.1 d (List.mem_of_mem_take hd))
      fun d hd => hpadded.1 d (List.mem_of_mem_drop hd), hlay]
  split
  · -- the zeros that were put before the digits are those behind the point, and one before it
    rename_i hneg
    obtain ⟨k, hk⟩ : ∃ k : Nat, first = -(k + 1 : ℤ) := ⟨(-first - 1).toNat, by omega⟩
    have hpad : padLeft ((5 - first).toNat + 1) (Nat.toDigits 10 c) =
        '0' :: (List.replicate k '0' ++ Nat.toDigits 10 c) := by
      have hcount : (5 - first).toNat + 1 - 6 = k + 1 := by omega
      rw [padLeft, hlength, hcount, List.replicate_succ, List.cons_append]
    have hone : (padLeft ((5 - first).toNat + 1) (Nat.toDigits 10 c)).length -
        (5 - first).toNat = 1 := by
      rw [hpad]
      simp only [List.length_cons, List.length_append, List.length_replicate, hlength]
      omega
    have hzeros : (-first - 1).toNat = k := by omega
    rw [hone, hpad, hzeros, chars_eq_significand rfl, List.take_succ_cons, List.take_zero,
      List.drop_succ_cons, List.drop_zero, stripZeros_append _ htrimmed.ne_nil]
  · rename_i hneg
    have hpad : padLeft ((5 - first).toNat + 1) (Nat.toDigits 10 c) = Nat.toDigits 10 c := by
      have hcount : (5 - first).toNat + 1 - 6 = 0 := by omega
      rw [padLeft, hlength, hcount, List.replicate_zero, List.nil_append]
    have hcount : 6 - (5 - first).toNat = first.toNat + 1 := by omega
    rw [hpad, hlength, hcount, take_stripZeros _ _ (by omega), stripZeros_drop,
      chars_eq_significand rfl]

end Layouts

/-- What is printed is a layout of the digits of the first rounding. -/
theorem general_eq {num den : Nat} (hnum : 0 < num) (hden : 0 < den) (negative : Bool)
    (hleast : -0x80000000 ≤ (significant 6 num den).normalized.2)
    (hmost : (significant 6 num den).normalized.2 < 0x80000000) :
    general negative num den =
      (printStyle.lay negative (significant 6 num den).normalized.1
        (significant 6 num den).normalized.2).chars 2 := by
  obtain ⟨c, hlower, hupper, htake, hstripped, hc⟩ :=
    exists_six (significant_six hnum hden).1 (significant_six hnum hden).2
  have hsplit := splitOnce_scientific negative num den htake
  have hread := readInt?_ofInt hleast hmost
  unfold general
  simp only [hsplit, hread, Option.getD_some]
  rw [hstripped]
  split
  · rename_i hfar
    have hlay : printStyle.lay negative (stripZeros (Nat.toDigits 10 c))
        (significant 6 num den).normalized.2 =
        ⟨negative, (stripZeros (Nat.toDigits 10 c)).take 1,
          (stripZeros (Nat.toDigits 10 c)).drop 1,
          some (significant 6 num den).normalized.2⟩ := by
      rw [Style.lay, if_pos]
      simp only [printStyle]
      omega
    rw [hlay, ← stripFraction_scientific hlower hupper]
    rfl
  · rename_i hnear
    exact stripFraction_fixed hlower hupper negative (by omega) (by omega)
      (toPlaces_six hnum hden hc (by omega))

end Decimal

end Armature
