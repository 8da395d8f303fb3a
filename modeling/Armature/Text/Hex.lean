/-!
# Hexadecimal numbers in messages
-/

namespace Armature

/-- Hexadecimal digits with at least `width` of them, after `0x`. -/
def hexText (width n : Nat) : String :=
  let digits := Nat.toDigits 16 n
  "0x" ++ String.ofList (List.replicate (width - digits.length) '0' ++ digits)

end Armature
