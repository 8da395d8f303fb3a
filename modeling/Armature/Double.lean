/-!
# Double-precision numbers

A double is its 64 bits. Every operation computes the exact result and rounds it once, to the
nearest double, a tie going to the even one. All not-a-number patterns behave alike.
-/

namespace Armature

structure Double where
  bits : UInt64
deriving DecidableEq

namespace Double

/-- What a bit pattern stands for. A finite number is `mantissa * 2 ^ exponent`, with its sign. -/
inductive View where
  | nan
  | infinite (negative : Bool)
  | finite (negative : Bool) (mantissa : Nat) (exponent : Int)
deriving DecidableEq

def signBit : Nat := 1 <<< 63

/-- The unit of the exponent field. It is also the leading bit of a mantissa, which is not stored. -/
def unit : Nat := 1 <<< 52

/-- The exponent field of what is no finite number. -/
def topExponent : Nat := 2047

/-- The double whose bits below the sign are `magnitude`. -/
def ofMagnitude (negative : Bool) (magnitude : Nat) : Double :=
  ⟨UInt64.ofNat (magnitude + if negative then signBit else 0)⟩

def nan : Double := ofMagnitude false (topExponent * unit + unit / 2)

def infinity (negative : Bool) : Double := ofMagnitude negative (topExponent * unit)

def zero (negative : Bool) : Double := ofMagnitude negative 0

def isNegative (x : Double) : Bool := signBit ≤ x.bits.toNat

def view (x : Double) : View :=
  let biased : Nat := x.bits.toNat / unit % 2048
  let fraction : Nat := x.bits.toNat % unit
  if biased = topExponent then
    if fraction = 0 then .infinite x.isNegative else .nan
  else if biased = 0 then
    .finite x.isNegative fraction (-1074)
  else
    .finite x.isNegative (unit + fraction) ((biased : Int) - 1075)

/-! ## Rounding -/

/-- The whole number nearest to `n / d`; of two equally near ones, the even one. -/
def divHalfEven (n d : Nat) : Nat :=
  if 2 * (n % d) < d ∨ (2 * (n % d) = d ∧ n / d % 2 = 0) then n / d else n / d + 1

/-- Numerator and denominator of `num / (den * base ^ e)`. -/
def overPow (base num den : Nat) (e : Int) : Nat × Nat :=
  if 0 ≤ e then (num, den * Nat.pow base e.toNat) else (num * Nat.pow base (-e).toNat, den)

/-- The exponent of the largest power of two that is at most `num / den`. -/
def binaryExponent (num den : Nat) : Int :=
  let e : Int := (num.log2 : Int) - den.log2
  let (n, d) := overPow 2 num den e
  if n < d then e - 1 else e

/-- The double nearest to `num / den`, or an infinity when that lies beyond the largest double. -/
def ofRatio (negative : Bool) (num den : Nat) : Double :=
  if num = 0 then
    zero negative
  else
    let e := max (binaryExponent num den - 52) (-1074)
    let (n, d) := overPow 2 num den e
    let magnitude := (e + 1074).toNat * unit + divHalfEven n d
    if magnitude < topExponent * unit then ofMagnitude negative magnitude else infinity negative

/-- The double nearest to `n * 2 ^ e`. -/
def ofScaled (negative : Bool) (n : Nat) (e : Int) : Double :=
  let (num, den) := overPow 2 n 1 (-e)
  ofRatio negative num den

def ofInt (i : Int) : Double := ofRatio (i < 0) i.natAbs 1

/-! ## Arithmetic -/

def neg (x : Double) : Double := ⟨x.bits ^^^ 0x8000000000000000⟩

def signed (negative : Bool) (n : Nat) : Int := if negative then -(n : Int) else n

/-- The sum of two finite numbers. A zero sum is negative only if both parts are. -/
def addFinite (s₁ : Bool) (m₁ : Nat) (e₁ : Int) (s₂ : Bool) (m₂ : Nat) (e₂ : Int) : Double :=
  let e := min e₁ e₂
  let n := signed s₁ (m₁ <<< (e₁ - e).toNat) + signed s₂ (m₂ <<< (e₂ - e).toNat)
  if n = 0 then zero (s₁ && s₂) else ofScaled (n < 0) n.natAbs e

def add (x y : Double) : Double :=
  match x.view, y.view with
  | .nan, _ | _, .nan => nan
  | .infinite s, .infinite t => if s = t then infinity s else nan
  | .infinite s, .finite .. | .finite .., .infinite s => infinity s
  | .finite s₁ m₁ e₁, .finite s₂ m₂ e₂ => addFinite s₁ m₁ e₁ s₂ m₂ e₂

def sub (x y : Double) : Double := add x y.neg

def mul (x y : Double) : Double :=
  match x.view, y.view with
  | .nan, _ | _, .nan => nan
  | .infinite s, .infinite t => infinity (s != t)
  | .infinite s, .finite t m _ | .finite t m _, .infinite s =>
    if m = 0 then nan else infinity (s != t)
  | .finite s₁ m₁ e₁, .finite s₂ m₂ e₂ => ofScaled (s₁ != s₂) (m₁ * m₂) (e₁ + e₂)

def div (x y : Double) : Double :=
  match x.view, y.view with
  | .nan, _ | _, .nan => nan
  | .infinite _, .infinite _ => nan
  | .infinite s, .finite t _ _ => infinity (s != t)
  | .finite s _ _, .infinite t => zero (s != t)
  | .finite s₁ m₁ e₁, .finite s₂ m₂ e₂ =>
    if m₂ = 0 then
      if m₁ = 0 then nan else infinity (s₁ != s₂)
    else
      let (num, den) := overPow 2 m₁ m₂ (e₂ - e₁)
      ofRatio (s₁ != s₂) num den

/-- The value of `x * y + z`, rounded once. -/
def mulAdd (x y z : Double) : Double :=
  match x.view, y.view with
  | .finite s₁ m₁ e₁, .finite s₂ m₂ e₂ =>
    match z.view with
    | .finite s₃ m₃ e₃ => addFinite (s₁ != s₂) (m₁ * m₂) (e₁ + e₂) s₃ m₃ e₃
    | .infinite s₃ => infinity s₃
    | .nan => nan
  | _, _ => add (mul x y) z

/-- Drops the fraction. The sign stays, also that of a zero. -/
def trunc (x : Double) : Double :=
  match x.view with
  | .finite s m e => if 0 ≤ e then x else ofRatio s (m >>> (-e).toNat) 1
  | _ => x

/-- The remainder `x - trunc (x / y) * y`, the product and difference rounded once. -/
def mod (x y : Double) : Double := mulAdd (trunc (div x y)).neg y x

/-! ## Comparison -/

/-- `none` when one of the two is not a number. The two zeros are equal. -/
def compare? (x y : Double) : Option Ordering :=
  match x.view, y.view with
  | .nan, _ | _, .nan => none
  | .infinite s, .infinite t => some (compare t.toNat s.toNat)
  | .infinite s, .finite .. => some (if s then .lt else .gt)
  | .finite .., .infinite s => some (if s then .gt else .lt)
  | .finite s₁ m₁ e₁, .finite s₂ m₂ e₂ =>
    let e := min e₁ e₂
    some (compare (signed s₁ (m₁ <<< (e₁ - e).toNat)) (signed s₂ (m₂ <<< (e₂ - e).toNat)))

def isZero (x : Double) : Bool := x.compare? (zero false) == some .eq

end Double

end Armature
