import Armature.Double
import Armature.Numeral

/-!
# Doubles in decimal

Writing a double first chooses the digits, either the fewest that tell it from all other doubles or
a fixed number of significant ones, and then a notation for them.
-/

namespace Armature

/-- The number `coefficient * 10 ^ exponent`. -/
structure Decimal where
  coefficient : Nat
  exponent : Int
deriving DecidableEq

namespace Decimal

def digitCount (n : Nat) : Nat := (Nat.toDigits 10 n).length

/-- The exponent of the largest power of ten that is at most `num / den`. -/
def decimalExponent (num den : Nat) : Int :=
  let e : Int := (digitCount num : Int) - digitCount den
  let (n, d) := Double.overPow 10 num den e
  if n < d then e - 1 else e

/-- The double nearest to a decimal. -/
def nearest (d : Decimal) : Double :=
  let (num, den) := Double.overPow 10 d.coefficient 1 (-d.exponent)
  .ofRatio false num den

/-! ## Choosing the digits -/

/-- `num / den` rounded to `count` significant digits, a tie going to the even digit. -/
def significant (count num den : Nat) : Decimal :=
  let e := decimalExponent num den - (count - 1 : Nat)
  let (n, d) := Double.overPow 10 num den e
  ⟨Double.divHalfEven n d, e⟩

/-- A decimal of `count` digits whose nearest double is `x`, if there is one: of the two neighbours
of `num / den` the nearer, a tie going to the even digit. -/
def identify? (x : Double) (num den count : Nat) : Option Decimal :=
  let e := decimalExponent num den - (count - 1 : Nat)
  let (n, d) := Double.overPow 10 num den e
  let closer := Double.divHalfEven n d
  let other := if closer = n / d then closer + 1 else n / d
  [closer, other].map (Decimal.mk · e) |>.find? (·.nearest = x)

/-- The fewest digits that tell `x = num / den` from all other doubles. Seventeen always do. -/
def shortest (x : Double) (num den : Nat) : Decimal :=
  ((List.range 17).findSome? fun i => identify? x num den (i + 1)).getD (significant 17 num den)

/-! ## Styles -/

/-- How a number is laid out. Numbers whose first digit has an exponent from `least` to `most` are
written without an exponent. -/
structure Style where
  least : Int
  most : Int
  /-- Whether a whole number without an exponent ends in `.0`. -/
  pointZero : Bool

/-- Drops such characters at the end. -/
def stripEnd (c : Char) (text : List Char) : List Char := (text.reverse.dropWhile (· = c)).reverse

def stripZeros (digits : List Char) : List Char := stripEnd '0' digits

/-- The digits of a decimal without trailing zeros, and the exponent of the first one. -/
def normalized (d : Decimal) : List Char × Int :=
  let digits := Nat.toDigits 10 d.coefficient
  (stripZeros digits, d.exponent + digits.length - 1)

def Style.lay (style : Style) (negative : Bool) (digits : List Char) (first : Int) :
    Numeral :=
  if first < style.least ∨ style.most < first then
    ⟨negative, digits.take 1, digits.drop 1, some first⟩
  else if first < 0 then
    ⟨negative, ['0'], List.replicate (-first - 1).toNat '0' ++ digits, none⟩
  else
    let count := first.toNat + 1
    let fraction := digits.drop count
    ⟨negative, digits.take count ++ List.replicate (count - digits.length) '0',
      if fraction.isEmpty && style.pointZero then ['0'] else fraction, none⟩

end Decimal

namespace Double

/-- Numerator and denominator of a finite double's magnitude. -/
def ratio (mantissa : Nat) (exponent : Int) : Nat × Nat := overPow 2 mantissa 1 (-exponent)

/-- JSON numbers have no exponent from `0.00001` up to sixteen digits before the point, and show
that they are floats by a point or an exponent. -/
def jsonStyle : Decimal.Style := ⟨-5, 15, true⟩

/-- The fewest digits that tell the number from all others. Only finite numbers have a numeral. -/
def toNumeral? (x : Double) : Option Numeral :=
  match x.view with
  | .finite negative mantissa exponent =>
    if mantissa = 0 then
      some ⟨negative, ['0'], ['0'], none⟩
    else
      let (num, den) := ratio mantissa exponent
      let (digits, first) := (Decimal.shortest (ofScaled false mantissa exponent) num den).normalized
      some (jsonStyle.lay negative digits first)
  | _ => none

end Double

end Armature
