import Armature.Decimal

/-!
# Reading decimals

A numeral is read in a few roundings. Its first digits make up a whole number of 64 bits, which is
rounded to a double. That double is multiplied or divided by a power of ten, and the result rounded
again. So it can differ from the double that is nearest to the numeral.
-/

namespace Armature

namespace Decimal

/-- Coefficients are below this. -/
def wordLimit : Nat := 1 <<< 64

/-- Appends digits to a number as long as it stays below the limit. Gives the number and the digits
that are left. -/
def takeDigits (n : Nat) : List Char → Nat × List Char
  | [] => (n, [])
  | c :: rest =>
    let next := 10 * n + Numeral.digitValue c
    if next < wordLimit then takeDigits next rest else (n, c :: rest)

/-- The digits of a numeral that fit in a word. Digits that are left out before the point scale the
number; after the point they are dropped. When some are left out before it, those after it may still
fit. -/
def ofNumeral (n : Numeral) : Decimal :=
  let (whole, wholeLeft) := takeDigits 0 n.whole
  let (coefficient, fractionLeft) := takeDigits whole n.fraction
  let places := n.fraction.length - fractionLeft.length
  ⟨coefficient, n.exponent.getD 0 + wholeLeft.length - places⟩

/-- The largest power of ten that is at most the largest double. -/
def topPower : Nat := 308

/-- The double nearest to `10 ^ e`. -/
def powerOfTen (e : Nat) : Double := .ofRatio false (Nat.pow 10 e) 1

/-- Divides by `10 ^ e`, by the largest power at a time. -/
def scaleDown (x : Double) (e : Nat) : Double :=
  if e ≤ topPower then x.div (powerOfTen e)
  else if x.isZero then x
  else scaleDown (x.div (powerOfTen topPower)) (e - topPower)
termination_by e
decreasing_by simp only [topPower]; omega

/-- Multiplies by `10 ^ e`, unless the result is out of range. -/
def scaleUp? (x : Double) (e : Nat) : Option Double :=
  if e ≤ topPower then
    let y := x.mul (powerOfTen e)
    if y = .infinity false then none else some y
  else if x.isZero then some x
  else none

/-- The coefficient as a double, scaled. -/
def read? (d : Decimal) : Option Double :=
  let x := Double.ofRatio false d.coefficient 1
  if 0 ≤ d.exponent then scaleUp? x d.exponent.toNat
  else some (scaleDown x (-d.exponent).toNat)

end Decimal

/-- The double that a numeral is read as, unless it is out of range. -/
def Numeral.toDouble? (n : Numeral) : Option Double :=
  (Decimal.ofNumeral n).read?.map fun x => if n.negative then x.neg else x

end Armature
