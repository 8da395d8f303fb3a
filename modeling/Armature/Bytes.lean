/-!
# Bytes and words

Numbers are stored with their low byte first. A `Buffer` is a run of bytes that can be read and
patched one 32-bit word at a time.
-/

namespace Armature

abbrev Bytes := List UInt8

abbrev Word := BitVec 32

namespace Bytes

/-- The `width` low bytes of a number, low byte first. -/
def le : Nat → Nat → Bytes
  | 0, _ => []
  | width + 1, n => UInt8.ofNat n :: le width (n / 256)

/-- The number that the bytes spell, low byte first. -/
def toNat : Bytes → Nat
  | [] => 0
  | b :: rest => b.toNat + 256 * toNat rest

def le16 (n : Nat) : Bytes := le 2 n
def le32 (n : Nat) : Bytes := le 4 n
def le64 (n : Nat) : Bytes := le 8 n

def zeros (n : Nat) : Bytes := List.replicate n 0

/-- Zeros are appended until the length is `size`. -/
def padTo (size : Nat) (bytes : Bytes) : Bytes := bytes ++ zeros (size - bytes.length)

def ofText (text : String) : Bytes := text.toUTF8.toList

@[simp] theorem length_le (width n : Nat) : (le width n).length = width := by
  induction width generalizing n with
  | zero => rfl
  | succ width ih => simp [le, ih]

@[simp] theorem length_zeros (n : Nat) : (zeros n).length = n := by simp [zeros]

end Bytes

namespace Word

def bytes (w : Word) : Bytes := Bytes.le32 w.toNat

def ofBytes (b : Bytes) : Word := BitVec.ofNat 32 b.toNat

end Word

abbrev Buffer := Array UInt8

namespace Buffer

/-- The word stored at byte offset `pos`, if all four bytes are there. -/
def word? (buf : Buffer) (pos : Nat) : Option Word :=
  if h : pos + 4 ≤ buf.size then
    some (Word.ofBytes [buf[pos], buf[pos + 1], buf[pos + 2], buf[pos + 3]])
  else
    none

/-- Overwrites the bytes from `pos` on. Those that would fall outside are dropped. -/
def overwrite (buf : Buffer) (pos : Nat) : Bytes → Buffer
  | [] => buf
  | b :: rest => overwrite (buf.setIfInBounds pos b) (pos + 1) rest

/-- Overwrites the word at byte offset `pos`, if all four bytes are there. -/
def setWord? (buf : Buffer) (pos : Nat) (w : Word) : Option Buffer :=
  if pos + 4 ≤ buf.size then some (buf.overwrite pos w.bytes) else none

def pushWord (buf : Buffer) (w : Word) : Buffer := buf ++ w.bytes

end Buffer

end Armature
