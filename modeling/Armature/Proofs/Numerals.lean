import Armature.Json.Reader
import Mathlib.Algebra.Ring.Nat
import Mathlib.Data.List.Basic
import Mathlib.Data.List.Induction

/-!
# Reading numerals

A numeral that is written out is read back as it was, so the text has one meaning. Its whole part
has no leading zeros, so it is determined by its value.
-/

namespace Armature

namespace Numeral

/-! ## Digits -/

theorem isDigit_of_mem_toDigits (n : Nat) : ∀ c ∈ Nat.toDigits 10 n, c.isDigit = true := by
  intro c hc
  exact Nat.isDigit_of_mem_toDigits (by decide) (by decide) hc

theorem head_toDigits (n : Nat) (h : 0 < n) : (Nat.toDigits 10 n).head? ≠ some '0' := by
  induction n using Nat.strongRecOn with
  | ind n ih =>
    by_cases hn : n < 10
    · simp [Nat.toDigits_of_lt_base hn]
      omega
    · rw [Nat.toDigits_of_base_le (by omega) (by omega), List.head?_append_of_ne_nil _ (by simp)]
      exact ih (n / 10) (by omega) (by omega)

theorem ofDigits_eq (ds : List Char) : ofDigits ds = Nat.ofDigitChars 10 ds 0 := by
  rw [Nat.ofDigitChars_eq_foldl]
  rfl

theorem ofDigits_append (ds es : List Char) :
    ofDigits (ds ++ es) = ofDigits ds * 10 ^ es.length + ofDigits es := by
  rw [ofDigits_eq, ofDigits_eq, ofDigits_eq, Nat.ofDigitChars_append,
    Nat.ofDigitChars_eq_ofDigitChars_zero, Nat.mul_comm]

theorem ofDigits_toDigits (n : Nat) : ofDigits (Nat.toDigits 10 n) = n := by
  rw [ofDigits_eq, Nat.ofDigitChars_ten_toDigits]

theorem ofDigits_zeros (k : Nat) : ofDigits (List.replicate k '0') = 0 := by
  rw [ofDigits_eq, Nat.ofDigitChars_replicate_zero, Nat.mul_zero]

theorem digitValue_lt {c : Char} (h : c.isDigit = true) : digitValue c < 10 := by
  have hbounds : 48 ≤ c.toNat ∧ c.toNat ≤ 57 := Char.isDigit_iff_toNat.mp h
  have hvalue : digitValue c = c.toNat - 48 := rfl
  omega

theorem digitChar_digitValue {c : Char} (h : c.isDigit = true) : (digitValue c).digitChar = c := by
  have hbounds : 48 ≤ c.toNat ∧ c.toNat ≤ 57 := Char.isDigit_iff_toNat.mp h
  have hvalue : digitValue c = c.toNat - 48 := rfl
  rw [← Char.toNat_inj, Nat.toNat_digitChar_of_lt_ten (digitValue_lt h)]
  omega

theorem ofDigits_lt {ds : List Char} (h : ∀ c ∈ ds, c.isDigit = true) :
    ofDigits ds < 10 ^ ds.length := by
  induction ds using List.reverseRecOn with
  | nil => decide
  | append_singleton ds c ih =>
    have hinit := ih fun d hd => h d (List.mem_append_left _ hd)
    have hlast : ofDigits [c] < 10 := by
      have := digitValue_lt (h c (by simp))
      simpa [ofDigits] using this
    rw [ofDigits_append, List.length_append, List.length_singleton, Nat.pow_succ]
    omega

theorem toDigits_ofDigits {ds : List Char} (h : ∀ c ∈ ds, c.isDigit = true) (hne : ds ≠ [])
    (hhead : ds.head? ≠ some '0') : Nat.toDigits 10 (ofDigits ds) = ds := by
  induction ds using List.reverseRecOn with
  | nil => exact absurd rfl hne
  | append_singleton ds c ih =>
    have hc := h c (by simp)
    have hlast : ofDigits [c] = digitValue c := by simp [ofDigits]
    have hone : Nat.toDigits 10 (digitValue c) = [c] := by
      rw [Nat.toDigits_of_lt_base (digitValue_lt hc), digitChar_digitValue hc]
    cases ds with
    | nil => rw [List.nil_append, hlast, hone]
    | cons d ds =>
      have hinit := ih (fun d hd => h d (List.mem_append_left _ hd)) nofun hhead
      have hpos : 0 < ofDigits (d :: ds) := by
        by_contra hzero
        rw [Nat.eq_zero_of_not_pos hzero, Nat.toDigits_zero] at hinit
        simp [← hinit] at hhead
      rw [ofDigits_append, hlast, List.length_singleton, Nat.pow_one, Nat.mul_comm,
        ← Nat.toDigits_append_toDigits (by decide) hpos (digitValue_lt hc), hinit, hone]

theorem padLeft_toDigits (width n : Nat) :
    (∀ c ∈ padLeft width (Nat.toDigits 10 n), c.isDigit = true) ∧
      ofDigits (padLeft width (Nat.toDigits 10 n)) = n := by
  constructor
  · intro c hc
    rcases List.mem_append.mp hc with hc | hc
    · rw [List.eq_of_mem_replicate hc]
      rfl
    · exact isDigit_of_mem_toDigits _ c hc
  · rw [padLeft, ofDigits_append, ofDigits_zeros, ofDigits_toDigits]
    omega

theorem le_length_padLeft (width : Nat) (ds : List Char) : width ≤ (padLeft width ds).length := by
  rw [padLeft, List.length_append, List.length_replicate]
  omega

/-! ## Parts of the text -/

/-- A numeral of digits, whose whole part has no zero too many. -/
structure Legible (n : Numeral) : Prop where
  whole : ∀ c ∈ n.whole, c.isDigit = true
  leading : n.whole = ['0'] ∨ n.whole ≠ [] ∧ n.whole.head? ≠ some '0'
  fraction : ∀ c ∈ n.fraction, c.isDigit = true

namespace Legible

variable {n : Numeral} (h : n.Legible)
include h

theorem whole_ne_nil : n.whole ≠ [] := by
  rcases h.leading with hzero | ⟨hne, -⟩
  · simp [hzero]
  · exact hne

theorem toDigits_whole : Nat.toDigits 10 (ofDigits n.whole) = n.whole := by
  rcases h.leading with hzero | ⟨hne, hhead⟩
  · rw [hzero]
    decide
  · exact toDigits_ofDigits h.whole hne hhead

end Legible

theorem legible_ofInt (i : Int) : (ofInt i).Legible := by
  refine ⟨isDigit_of_mem_toDigits i.natAbs, ?_, by simp [ofInt]⟩
  rcases Nat.eq_zero_or_pos i.natAbs with hzero | hpos
  · exact .inl (by simp [ofInt, hzero])
  · exact .inr ⟨Nat.toDigits_ne_nil, head_toDigits i.natAbs hpos⟩

/-- The digits after the point, with the point. -/
def places (n : Numeral) : List Char := if n.fraction.isEmpty then [] else '.' :: n.fraction

/-- What stands before the exponent. -/
def significand (n : Numeral) : List Char :=
  (if n.negative then ['-'] else []) ++ n.whole ++ n.places

/-- How the exponent is written. -/
def suffix (width : Nat) : Option Int → List Char
  | none => []
  | some e => 'e' :: (if e < 0 then '-' else '+') :: padLeft width (Nat.toDigits 10 e.natAbs)

theorem chars_eq (n : Numeral) (width : Nat) :
    n.chars width = n.significand ++ suffix width n.exponent := by
  unfold chars significand places suffix
  rfl

theorem chars_eq_significand {n : Numeral} (h : n.exponent = none) (width : Nat) :
    n.chars width = n.significand := by
  rw [chars_eq, h, suffix, List.append_nil]

theorem not_mem_of_digits {ds : List Char} (h : ∀ c ∈ ds, c.isDigit = true) {c : Char}
    (hc : c.isDigit = false) : c ∉ ds := by
  intro hmem
  rw [h c hmem] at hc
  cases hc

theorem not_mem_significand {n : Numeral} (hwhole : ∀ c ∈ n.whole, c.isDigit = true)
    (hfraction : ∀ c ∈ n.fraction, c.isDigit = true) : 'e' ∉ n.significand := by
  have hsign : 'e' ∉ (if n.negative then ['-'] else []) := by
    cases n.negative <;> decide
  have hplaces : 'e' ∉ n.places := by
    unfold places
    split
    · simp
    · simp [not_mem_of_digits hfraction]
  simp only [significand, List.mem_append, not_or]
  exact ⟨⟨hsign, not_mem_of_digits hwhole (by decide)⟩, hplaces⟩

theorem Legible.significand_spec {n : Numeral} (h : n.Legible)
    (hlast : n.fraction.getLast? ≠ some '0') :
    'e' ∉ n.significand ∧ ('.' ∈ n.significand →
      n.significand.getLast? ≠ some '0' ∧ n.significand.getLast? ≠ some '.') := by
  refine ⟨not_mem_significand h.whole h.fraction, ?_⟩
  intro hpoint
  have hplaces : '.' ∈ n.places := by
    simp only [significand, List.mem_append] at hpoint
    rcases hpoint with (hpoint | hpoint) | hpoint
    · exact absurd hpoint (by cases n.negative <;> decide)
    · exact absurd hpoint (not_mem_of_digits h.whole (by decide))
    · exact hpoint
  cases hds : n.fraction with
  | nil => simp [places, hds] at hplaces
  | cons d ds =>
    have hend : n.significand.getLast? = n.fraction.getLast? := by
      simp [significand, places, hds, List.getLast?_cons]
    rw [hend]
    refine ⟨hlast, fun hdot => not_mem_of_digits h.fraction (by decide : '.'.isDigit = false) ?_⟩
    exact List.mem_of_getLast? hdot

end Numeral

/-! ## Reading -/

namespace Json

open Numeral

/-- Text that does not go on with a number. -/
def Ends (rest : List Char) : Prop :=
  ∀ c ∈ rest.head?, c.isDigit = false ∧ c ≠ '.' ∧ c ≠ 'e' ∧ c ≠ 'E'

theorem digits_append {ds rest : List Char} (h : ∀ c ∈ ds, c.isDigit = true) (hne : ds ≠ [])
    (hrest : ∀ c ∈ rest.head?, c.isDigit = false) : digits (ds ++ rest) = some (ds, rest) := by
  have htake : rest.takeWhile Char.isDigit = [] := by
    cases rest with
    | nil => rfl
    | cons c rest => simp [hrest c rfl]
  have hdrop : rest.dropWhile Char.isDigit = rest := by
    cases rest with
    | nil => rfl
    | cons c rest => simp [hrest c rfl]
  unfold digits
  rw [List.takeWhile_append_of_pos h, List.dropWhile_append_of_pos h, htake, hdrop,
    List.append_nil]
  cases ds with
  | nil => exact absurd rfl hne
  | cons d ds => rfl

section Exponents

variable {rest : List Char} (hrest : Ends rest)
include hrest

theorem exponentValue_append (e : Int) (width : Nat) :
    exponentValue ((if e < 0 then '-' else '+') ::
      padLeft width (Nat.toDigits 10 e.natAbs) ++ rest) = some (e, rest) := by
  obtain ⟨hdigits, hvalue⟩ := padLeft_toDigits width e.natAbs
  have hne : padLeft width (Nat.toDigits 10 e.natAbs) ≠ [] := by simp [padLeft]
  have hread := digits_append hdigits hne fun c hc => (hrest c hc).1
  by_cases he : e < 0
  · simp only [he, if_true, List.cons_append, exponentValue, hread, hvalue, Option.map_some]
    congr 2
    omega
  · simp only [he, if_false, List.cons_append, exponentValue, hread, hvalue, Option.map_some]
    congr 2
    omega

theorem exponent_suffix (e : Option Int) (width : Nat) :
    exponent (suffix width e ++ rest) = some (e, rest) := by
  cases e with
  | none =>
    cases rest with
    | nil => rfl
    | cons c rest => simp [suffix, exponent, hrest c rfl]
  | some e =>
    rw [suffix, List.cons_append, exponent, if_pos (.inl rfl), exponentValue_append hrest]
    rfl

end Exponents

section Reading

variable {n : Numeral} (h : n.Legible) {rest : List Char}
include h

theorem fraction_places (hrest : ∀ c ∈ rest.head?, c.isDigit = false ∧ c ≠ '.') :
    fraction (n.places ++ rest) = some (n.fraction, rest) := by
  have hdigits := h.fraction
  unfold places
  cases hplaces : n.fraction with
  | cons c ds =>
    rw [hplaces] at hdigits
    exact digits_append hdigits nofun fun c hc => (hrest c hc).1
  | nil =>
    simp only [List.isEmpty_nil, if_true, List.nil_append]
    unfold fraction
    split
    · exact absurd rfl (hrest '.' rfl).2
    · rfl

theorem whole_append (hrest : ∀ c ∈ rest.head?, c.isDigit = false) :
    whole (n.whole ++ rest) = some (n.whole, rest) := by
  have hdigits := digits_append h.whole h.whole_ne_nil hrest
  rcases h.leading with hzero | ⟨hne, hhead⟩
  · rw [hzero]
    rfl
  · cases hcs : n.whole with
    | nil => exact absurd hcs hne
    | cons d ds =>
      rw [hcs] at hhead hdigits
      have hd : d ≠ '0' := by simpa using hhead
      rw [← hdigits]
      unfold whole
      split
      · rename_i heq
        exact absurd (List.cons.inj heq).1 hd
      · rfl

theorem unsigned_chars (negative : Bool) (width : Nat) (hrest : Ends rest) :
    unsigned negative (n.whole ++ (n.places ++ (suffix width n.exponent ++ rest))) =
      some (⟨negative, n.whole, n.fraction, n.exponent⟩, rest) := by
  have hsuffix : ∀ c ∈ (suffix width n.exponent ++ rest).head?, c.isDigit = false ∧ c ≠ '.' := by
    cases n.exponent with
    | none => exact fun c hc => ⟨(hrest c hc).1, (hrest c hc).2.1⟩
    | some e => simp [suffix]
  have hplaces : ∀ c ∈ (n.places ++ (suffix width n.exponent ++ rest)).head?,
      c.isDigit = false := by
    unfold places
    split
    · exact fun c hc => (hsuffix c hc).1
    · simp
  simp [unsigned, whole_append h hplaces, fraction_places h hsuffix, exponent_suffix hrest]

theorem numeral_chars (width : Nat) (hrest : Ends rest) :
    numeral (n.chars width ++ rest) = some (n, rest) := by
  have hsame : n = ⟨n.negative, n.whole, n.fraction, n.exponent⟩ := rfl
  rw [chars_eq, significand, List.append_assoc, List.append_assoc, List.append_assoc]
  cases hnegative : n.negative with
  | true =>
    rw [hsame, hnegative]
    exact unsigned_chars h true width hrest
  | false =>
    rw [hsame, hnegative, ← unsigned_chars h false width hrest]
    cases hcs : n.whole with
    | nil => exact absurd hcs h.whole_ne_nil
    | cons d ds =>
      have hd := h.whole d (by simp [hcs])
      simp only [Bool.false_eq_true, if_false, List.nil_append, List.cons_append]
      unfold numeral
      split
      · rename_i heq
        rw [(List.cons.inj heq).1] at hd
        exact absurd hd (by decide)
      · rfl

end Reading

end Json

end Armature
