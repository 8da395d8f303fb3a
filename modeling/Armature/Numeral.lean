/-!
# Numbers as they are written

A numeral keeps the digits of a number apart: sign, whole part, fraction and exponent. It denotes
its digits, read as one whole number, times a power of ten.
-/

namespace Armature

structure Numeral where
  negative : Bool
  whole : List Char
  /-- The digits after the point. There is no point when there are none. -/
  fraction : List Char
  exponent : Option Int
deriving DecidableEq

namespace Numeral

def ofInt (i : Int) : Numeral := ⟨i < 0, Nat.toDigits 10 i.natAbs, [], none⟩

def isInteger (n : Numeral) : Bool := n.fraction.isEmpty && n.exponent.isNone

def digitValue (c : Char) : Nat := c.toNat - '0'.toNat

def ofDigits (digits : List Char) : Nat := digits.foldl (fun n c => 10 * n + digitValue c) 0

def coefficient (n : Numeral) : Nat := ofDigits (n.whole ++ n.fraction)

def padLeft (width : Nat) (digits : List Char) : List Char :=
  List.replicate (width - digits.length) '0' ++ digits

/-- Exponents are signed and have at least `width` digits. -/
def chars (width : Nat) (n : Numeral) : List Char :=
  (if n.negative then ['-'] else []) ++ n.whole
    ++ (if n.fraction.isEmpty then [] else '.' :: n.fraction)
    ++ match n.exponent with
      | none => []
      | some e => 'e' :: (if e < 0 then '-' else '+') :: padLeft width (Nat.toDigits 10 e.natAbs)

def text (width : Nat) (n : Numeral) : String := String.ofList (n.chars width)

end Numeral

end Armature
