import Armature.Bytes
import Mathlib.Algebra.Ring.Int.Defs
import Mathlib.Algebra.Ring.Nat

/-!
# Code as a list of words

A buffer that was filled one word at a time is known by its list of words. Reading and overwriting a
word of it are then operations on the list. In any other buffer a word is known by its four bytes.
-/

namespace Armature

/-! ## Words and their bytes -/

theorem toNat_le_bytes (width n : Nat) : (Bytes.le width n).toNat = n % 256 ^ width := by
  induction width generalizing n with
  | zero => simp [Bytes.le, Bytes.toNat, Nat.mod_one]
  | succ width ih =>
    have hmod : n % 256 + 256 * (n / 256 % 256 ^ width) = n % (256 * 256 ^ width) := by
      rw [Nat.mod_mul]
    simp only [Bytes.le, Bytes.toNat, ih, UInt8.toNat_ofNat', Nat.pow_succ,
      Nat.mul_comm (256 ^ width)]
    exact hmod

theorem le_length_toNat (b : Bytes) : Bytes.le b.length b.toNat = b := by
  induction b with
  | nil => rfl
  | cons x rest ih =>
    have hx := x.toNat_lt
    have hdiv : (x.toNat + 256 * Bytes.toNat rest) / 256 = Bytes.toNat rest := by omega
    have hlow : UInt8.ofNat (x.toNat + 256 * Bytes.toNat rest) = x := by
      apply UInt8.toNat.inj
      rw [UInt8.toNat_ofNat']
      omega
    rw [List.length_cons, Bytes.toNat, Bytes.le, hdiv, hlow, ih]

theorem toNat_lt_pow (b : Bytes) : b.toNat < 256 ^ b.length := by
  induction b with
  | nil => decide
  | cons x rest ih =>
    have hx := x.toNat_lt
    rw [Bytes.toNat, List.length_cons, Nat.pow_succ]
    omega

theorem toNat_le32 (n : Nat) : (Bytes.le32 n).toNat = n % 2 ^ 32 := toNat_le_bytes 4 n

theorem toNat_le64 (n : Nat) : (Bytes.le64 n).toNat = n % 2 ^ 64 := toNat_le_bytes 8 n

namespace Word

@[simp] theorem length_bytes (w : Word) : w.bytes.length = 4 := by
  simp [bytes, Bytes.le32]

theorem ofBytes_bytes (w : Word) : ofBytes w.bytes = w := by
  apply BitVec.eq_of_toNat_eq
  rw [ofBytes, bytes, toNat_le32, BitVec.toNat_ofNat, Nat.mod_mod, Nat.mod_eq_of_lt w.isLt]

theorem bytes_ofBytes (b : Bytes) (h : b.length = 4) : (ofBytes b).bytes = b := by
  have hlt : b.toNat < 2 ^ 32 := by
    simpa [h] using toNat_lt_pow b
  rw [bytes, ofBytes, BitVec.toNat_ofNat, Nat.mod_eq_of_lt hlt, Bytes.le32, ← h, le_length_toNat]

theorem bytes_eq (w : Word) : ∃ b₀ b₁ b₂ b₃, w.bytes = [b₀, b₁, b₂, b₃] := by
  match h : w.bytes, w.length_bytes with
  | [b₀, b₁, b₂, b₃], _ => exact ⟨b₀, b₁, b₂, b₃, rfl⟩

end Word

/-! ## Buffers of words -/

namespace Buffer

def ofWords (ws : List Word) : Buffer := (ws.flatMap Word.bytes).toArray

@[simp] theorem ofWords_nil : ofWords [] = #[] := rfl

@[simp] theorem size_ofWords (ws : List Word) : (ofWords ws).size = 4 * ws.length := by
  induction ws with
  | nil => rfl
  | cons w rest ih =>
    simp only [ofWords, List.size_toArray, List.flatMap_cons, List.length_append,
      Word.length_bytes, List.length_cons] at ih ⊢
    omega

theorem pushWord_ofWords (ws : List Word) (w : Word) :
    (ofWords ws).pushWord w = ofWords (ws ++ [w]) := by
  apply Array.toList_inj.mp
  simp [ofWords, pushWord]

theorem exists_split (ws : List Word) (k : Nat) (hk : k < ws.length) :
    ∃ xs w ys, ws = xs ++ w :: ys ∧ xs.length = k := by
  refine ⟨ws.take k, ws[k], ws.drop (k + 1), ?_, by simp; omega⟩
  rw [← List.drop_eq_getElem_cons hk, List.take_append_drop]

theorem length_flatMap_bytes (ws : List Word) : (ws.flatMap Word.bytes).length = 4 * ws.length := by
  simpa [ofWords] using size_ofWords ws

theorem word?_split (xs ys : List Word) (w : Word) :
    (ofWords (xs ++ w :: ys)).word? (4 * xs.length) = some w := by
  have hpre := length_flatMap_bytes xs
  have hsize : 4 * xs.length + 4 ≤ (ofWords (xs ++ w :: ys)).size := by simp; omega
  obtain ⟨b₀, b₁, b₂, b₃, hb⟩ := w.bytes_eq
  have hget (i : Nat) (hi : i < 4) (h : 4 * xs.length + i < (ofWords (xs ++ w :: ys)).size) :
      (ofWords (xs ++ w :: ys))[4 * xs.length + i] = [b₀, b₁, b₂, b₃][i] := by
    simp only [ofWords, List.getElem_toArray, List.flatMap_append, List.flatMap_cons, hb]
    rw [List.getElem_append_right (by omega), List.getElem_append_left (by
      rw [hpre]
      simp only [List.length_cons, List.length_nil]
      omega)]
    congr 1
    omega
  have h0 := hget 0 (by omega) (by omega)
  have h1 := hget 1 (by omega) (by omega)
  have h2 := hget 2 (by omega) (by omega)
  have h3 := hget 3 (by omega) (by omega)
  simp only [Nat.add_zero, List.getElem_cons_zero, List.getElem_cons_succ] at h0 h1 h2 h3
  rw [word?, dif_pos hsize, h0, h1, h2, h3, ← hb, Word.ofBytes_bytes]

theorem word?_ofWords (ws : List Word) (k : Nat) : (ofWords ws).word? (4 * k) = ws[k]? := by
  by_cases hk : k < ws.length
  · obtain ⟨xs, w, ys, rfl, rfl⟩ := exists_split ws k hk
    rw [word?_split]
    simp
  · have hsize : ¬ 4 * k + 4 ≤ (ofWords ws).size := by simp; omega
    rw [word?, dif_neg hsize, List.getElem?_eq_none (by omega)]

theorem toList_overwrite (buf : Buffer) (pos : Nat) (xs old ys : List UInt8) (new : Bytes)
    (hbuf : buf.toList = xs ++ old ++ ys) (hpos : xs.length = pos) (hlen : old.length = new.length) :
    (buf.overwrite pos new).toList = xs ++ new ++ ys := by
  induction new generalizing buf pos xs old with
  | nil =>
    have : old = [] := List.eq_nil_of_length_eq_zero hlen
    simpa [overwrite, this] using hbuf
  | cons b rest ih =>
    match old, hlen with
    | o :: old, hlen =>
      have hset : (buf.setIfInBounds pos b).toList = xs ++ [b] ++ old ++ ys := by
        rw [Array.toList_setIfInBounds, hbuf]
        simp [hpos]
      rw [overwrite, ih _ (pos + 1) (xs ++ [b]) old hset (by simp [hpos]) (by simpa using hlen)]
      simp

theorem overwrite_ofWords (ws : List Word) (k : Nat) (w : Word) (hk : k < ws.length) :
    (ofWords ws).overwrite (4 * k) w.bytes = ofWords (ws.set k w) := by
  obtain ⟨xs, old, ys, rfl, rfl⟩ := exists_split ws k hk
  have hold : (ofWords (xs ++ old :: ys)).toList =
      xs.flatMap Word.bytes ++ old.bytes ++ ys.flatMap Word.bytes := by
    simp [ofWords]
  apply Array.toList_inj.mp
  rw [toList_overwrite _ _ _ _ _ _ hold (length_flatMap_bytes xs) (by simp)]
  simp [ofWords]

/-! ## Words of any buffer -/

theorem size_overwrite (buf : Buffer) (pos : Nat) (new : Bytes) :
    (buf.overwrite pos new).size = buf.size := by
  induction new generalizing buf pos with
  | nil => rfl
  | cons b rest ih => rw [overwrite, ih, Array.size_setIfInBounds]

theorem getElem?_overwrite_of_lt (buf : Buffer) (pos : Nat) (new : Bytes) (i : Nat) (hi : i < pos) :
    (buf.overwrite pos new)[i]? = buf[i]? := by
  induction new generalizing buf pos with
  | nil => rfl
  | cons b rest ih =>
    rw [overwrite, ih _ _ (by omega), Array.getElem?_setIfInBounds_ne (by omega)]

theorem getElem?_overwrite_of_ge (buf : Buffer) (pos : Nat) (new : Bytes) (i : Nat)
    (hi : pos + new.length ≤ i) : (buf.overwrite pos new)[i]? = buf[i]? := by
  induction new generalizing buf pos with
  | nil => rfl
  | cons b rest ih =>
    rw [List.length_cons] at hi
    rw [overwrite, ih _ _ (by omega), Array.getElem?_setIfInBounds_ne (by omega)]

theorem getElem?_overwrite_inside (buf : Buffer) (pos : Nat) (new : Bytes) (j : Nat)
    (hsize : pos + new.length ≤ buf.size) (hj : j < new.length) :
    (buf.overwrite pos new)[pos + j]? = new[j]? := by
  induction new generalizing buf pos j with
  | nil => exact absurd hj (Nat.not_lt_zero j)
  | cons b rest ih =>
    rw [List.length_cons] at hsize hj
    rw [overwrite]
    cases j with
    | zero =>
      rw [getElem?_overwrite_of_lt _ _ _ _ (by omega), Nat.add_zero, List.getElem?_cons_zero,
        Array.getElem?_setIfInBounds_self_of_lt (by omega)]
    | succ j =>
      rw [Nat.add_comm j 1, ← Nat.add_assoc, Nat.add_comm 1 j, List.getElem?_cons_succ]
      refine ih _ _ j ?_ (by omega)
      rw [Array.size_setIfInBounds]
      omega

theorem word?_eq_none_iff (buf : Buffer) (pos : Nat) :
    buf.word? pos = none ↔ ¬ pos + 4 ≤ buf.size := by
  unfold word?
  split <;> simp_all

theorem word?_eq_some_iff (buf : Buffer) (pos : Nat) (w : Word) :
    buf.word? pos = some w ↔ ∀ j < 4, buf[pos + j]? = w.bytes[j]? := by
  constructor
  · intro h j hj
    unfold word? at h
    split at h
    · cases h
      rw [Word.bytes_ofBytes _ rfl]
      have hcases : j = 0 ∨ j = 1 ∨ j = 2 ∨ j = 3 := by omega
      rcases hcases with rfl | rfl | rfl | rfl <;> simp
    · cases h
  · intro h
    obtain ⟨b₀, b₁, b₂, b₃, hb⟩ := w.bytes_eq
    have hget (j : Nat) (b : UInt8) (hj : j < 4) (hbyte : w.bytes[j]? = some b) :
        ∃ hlt : pos + j < buf.size, buf[pos + j] = b :=
      Array.getElem?_eq_some_iff.mp ((h j hj).trans hbyte)
    obtain ⟨_, h0⟩ := hget 0 b₀ (by omega) (by rw [hb]; rfl)
    obtain ⟨_, h1⟩ := hget 1 b₁ (by omega) (by rw [hb]; rfl)
    obtain ⟨_, h2⟩ := hget 2 b₂ (by omega) (by rw [hb]; rfl)
    obtain ⟨hlt, h3⟩ := hget 3 b₃ (by omega) (by rw [hb]; rfl)
    rw [word?, dif_pos (by omega)]
    simp only [Nat.add_zero] at h0
    rw [h0, h1, h2, h3, ← hb, Word.ofBytes_bytes]

theorem word?_overwrite_self (buf : Buffer) (pos : Nat) (w : Word) (h : pos + 4 ≤ buf.size) :
    (buf.overwrite pos w.bytes).word? pos = some w := by
  rw [word?_eq_some_iff]
  intro j hj
  rw [getElem?_overwrite_inside _ _ _ _ (by simpa using h) (by simpa using hj)]

theorem word?_congr {buf buf' : Buffer} {pos : Nat}
    (h : ∀ i, pos ≤ i → i < pos + 4 → buf'[i]? = buf[i]?) : buf'.word? pos = buf.word? pos := by
  apply Option.ext
  intro w
  rw [word?_eq_some_iff, word?_eq_some_iff]
  refine forall_congr' fun j => imp_congr_right fun hj => ?_
  rw [h (pos + j) (by omega) (by omega)]

end Buffer

end Armature
