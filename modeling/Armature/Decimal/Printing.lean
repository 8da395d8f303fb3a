import Armature.Decimal

/-!
# Printing doubles

A double is printed with six significant digits. It is first written with an exponent, which says
where its first digit is after rounding. If that is near the point, the double is written again
without an exponent, with as many places as six digits leave, and so it is rounded a second time.
-/

namespace Armature

namespace Decimal

/-- `num / den` rounded to `count` places after the point, a tie going to the even digit. -/
def toPlaces (count num den : Nat) : Decimal :=
  ⟨Double.divHalfEven (num * Nat.pow 10 count) den, -count⟩

/-- The number with `places` digits after the point and an exponent. Rounding may carry into one
digit more, and then the last one is a zero and is left out. -/
def scientific (negative : Bool) (places num den : Nat) : List Char :=
  let rounded := significant (places + 1) num den
  let digits := Nat.toDigits 10 rounded.coefficient
  let first := rounded.exponent + digits.length - 1
  (Numeral.mk negative (digits.take 1) ((digits.drop 1).take places) none).chars 0
    ++ 'e' :: (Numeral.ofInt first).chars 0

/-- The number with `places` digits after the point and no exponent. -/
def fixed (negative : Bool) (places num den : Nat) : List Char :=
  let digits :=
    Numeral.padLeft (places + 1) (Nat.toDigits 10 (toPlaces places num den).coefficient)
  let count := digits.length - places
  (Numeral.mk negative (digits.take count) (digits.drop count) none).chars 0

/-! ## Taking texts apart -/

/-- What is before the first such character, and what is behind it. -/
def splitOnce (c : Char) : List Char → Option (List Char × List Char)
  | [] => none
  | d :: rest =>
    if d = c then some ([], rest)
    else (splitOnce c rest).map fun (before, after) => (d :: before, after)

/-- Whether there is a minus sign, and what follows the sign. -/
def splitSign : List Char → Bool × List Char
  | '-' :: rest => (true, rest)
  | '+' :: rest => (false, rest)
  | text => (false, text)

/-- A whole number of 32 bits. It may have a sign. -/
def readInt? (text : List Char) : Option Int :=
  let (negative, digits) := splitSign text
  let value := Double.signed negative (Numeral.ofDigits digits)
  if digits ≠ [] ∧ digits.all Char.isDigit ∧ -0x80000000 ≤ value ∧ value < 0x80000000 then
    some value
  else
    none

/-- Zeros at the end of the places are dropped, and a point that nothing follows then. -/
def stripFraction (text : List Char) : List Char :=
  if text.contains '.' then stripEnd '.' (stripEnd '0' text) else text

/-- The number with six significant digits. It has an exponent if the first digit stands for less
than `0.0001` or for a million or more. -/
def general (negative : Bool) (num den : Nat) : List Char :=
  let written := scientific negative 5 num den
  let (significand, first) : List Char × Int :=
    match splitOnce 'e' written with
    | some (before, after) => (before, (readInt? after).getD 0)
    | none => (written, 0)
  if first < -4 ∨ 6 ≤ first then
    stripFraction significand ++ 'e' :: (if first < 0 then '-' else '+')
      :: Numeral.padLeft 2 (Nat.toDigits 10 first.natAbs)
  else
    stripFraction (fixed negative (5 - first).toNat num den)

end Decimal

namespace Double

/-- The text of a printed number. -/
def text (x : Double) : String :=
  match x.view with
  | .nan => "nan"
  | .infinite negative => if negative then "-inf" else "inf"
  | .finite negative mantissa exponent =>
    if mantissa = 0 then
      if negative then "-0" else "0"
    else
      let (num, den) := ratio mantissa exponent
      String.ofList (Decimal.general negative num den)

end Double

end Armature
