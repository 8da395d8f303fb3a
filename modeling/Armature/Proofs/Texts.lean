import Armature.Text.Escape

/-!
# Text as bytes

A text is the bytes of its characters, one after the other. Escapes come to the same bytes whether
they are expanded in the text or on the way to bytes, and only an ASCII character has a byte below
128.
-/

namespace Armature

namespace Bytes

theorem toList_loop (bytes : ByteArray) (i : Nat) (r : List UInt8) :
    ByteArray.toList.loop bytes i r = r.reverse ++ bytes.data.toList.drop i := by
  fun_induction ByteArray.toList.loop bytes i r with
  | case1 i r hlt ih =>
    have hlt' : i < bytes.data.size := hlt
    have hget : bytes.get! i = bytes.data.toList[i] := getElem!_pos bytes.data i hlt'
    rw [ih, List.reverse_cons, List.append_assoc, List.singleton_append, hget,
      List.getElem_cons_drop]
  | case2 i r hge =>
    rw [List.drop_eq_nil_of_le (by simpa using hge), List.append_nil]

theorem ofText_eq_data (text : String) : ofText text = text.toByteArray.data.toList := by
  simp [ofText, ByteArray.toList, toList_loop]

theorem ofText_ofList (chars : List Char) :
    ofText (String.ofList chars) = chars.flatMap String.utf8EncodeChar := by
  rw [ofText_eq_data, String.toByteArray_ofList, List.utf8Encode, List.toList_data_toByteArray]

theorem ofText_eq (text : String) : ofText text = text.toList.flatMap String.utf8EncodeChar := by
  rw [← ofText_ofList, String.ofList_toList]

theorem ofText_empty : ofText "" = [] := ofText_eq ""

theorem ofText_append (a b : String) : ofText (a ++ b) = ofText a ++ ofText b := by
  simp [ofText_eq]

theorem ofText_inj {a b : String} : ofText a = ofText b ↔ a = b := by
  rw [ofText_eq_data, ofText_eq_data, Array.toList_inj, ← String.toByteArray_inj]
  exact ⟨ByteArray.ext, fun h => h ▸ rfl⟩

/-! ## Bytes of a character -/

theorem encode_ascii {c : Char} (h : c.toNat < 128) :
    String.utf8EncodeChar c = [UInt8.ofNat c.toNat] := by
  have hval : c.val.toNat ≤ 127 := Nat.le_of_lt_succ h
  unfold String.utf8EncodeChar
  simp only [hval, if_true]
  rfl

theorem ascii_of_mem_encode {c : Char} {b : UInt8} (hb : b ∈ String.utf8EncodeChar c)
    (hlt : b.toNat < 128) : c.toNat = b.toNat := by
  have hc : c.toNat = c.val.toNat := rfl
  unfold String.utf8EncodeChar at hb
  rw [hc]
  generalize c.val.toNat = v at hb
  simp only at hb
  split at hb
  · rename_i hv
    rw [List.mem_singleton.mp hb, UInt8.toNat_ofNat']
    omega
  -- every byte of a longer form is at least 128
  · exfalso
    split at hb
    · simp only [List.mem_cons, List.not_mem_nil, or_false] at hb
      rcases hb with rfl | rfl <;> (rw [UInt8.toNat_ofNat'] at hlt; omega)
    · split at hb
      · simp only [List.mem_cons, List.not_mem_nil, or_false] at hb
        rcases hb with rfl | rfl | rfl <;> (rw [UInt8.toNat_ofNat'] at hlt; omega)
      · simp only [List.mem_cons, List.not_mem_nil, or_false] at hb
        rcases hb with rfl | rfl | rfl | rfl <;> (rw [UInt8.toNat_ofNat'] at hlt; omega)

end Bytes

/-! ## Escapes -/

namespace Escape

theorem meaning?_ascii {c m : Char} (h : meaning? c = some m) : m.toNat < 128 := by
  unfold meaning? at h
  split at h
  all_goals cases h
  all_goals decide

theorem utf8_eq (source : List Char) :
    utf8 source = (chars source).flatMap String.utf8EncodeChar := by
  have hbackslash : String.utf8EncodeChar '\\' = [0x5C] := by decide +kernel
  fun_induction chars source with
  | case1 => rfl
  | case2 => simp [utf8, hbackslash]
  | case3 c rest m hm ih =>
    rw [utf8, List.flatMap_cons, Bytes.encode_ascii (meaning?_ascii hm)]
    simp [hm, ih]
  | case4 c rest hm ih =>
    rw [utf8, List.flatMap_cons, List.flatMap_cons, hbackslash]
    simp [hm, ih]
  | case5 c rest hlast hpair ih => simp [utf8, ih]

/-- Expanding escapes and taking the bytes of a text can be done in either order. -/
theorem bytes_eq (source : String) : bytes source = Bytes.ofText (text source) := by
  rw [bytes, text, Bytes.ofText_ofList, utf8_eq]

/-- There is no backslash, and so nothing to expand. -/
def Plain (source : String) : Prop := '\\' ∉ source.toList

instance (source : String) : Decidable (Plain source) := inferInstanceAs (Decidable (_ ∉ _))

theorem chars_of_notMem (source : List Char) (h : '\\' ∉ source) : chars source = source := by
  fun_induction chars source with
  | case1 => rfl
  | case2 | case3 | case4 => simp at h
  | case5 c rest hlast hpair ih => rw [ih fun hmem => h (List.mem_cons_of_mem _ hmem)]

theorem Plain.append {a b : String} (ha : Plain a) (hb : Plain b) : Plain (a ++ b) := by
  unfold Plain at *
  rw [String.toList_append, List.mem_append]
  exact fun h => h.elim ha hb

theorem Plain.text_eq {source : String} (h : Plain source) : text source = source := by
  rw [text, chars_of_notMem source.toList h, String.ofList_toList]

end Escape

/-! ## Formats -/

theorem percentDoubled_append (a b : String) :
    percentDoubled (a ++ b) = percentDoubled a ++ percentDoubled b := by
  simp [percentDoubled, String.ofList_append]

/-- No character of the text is zero, which would end it in memory. -/
def NulFree (text : String) : Prop := Char.ofNat 0 ∉ text.toList

instance (text : String) : Decidable (NulFree text) := inferInstanceAs (Decidable (_ ∉ _))

theorem NulFree.append {a b : String} (ha : NulFree a) (hb : NulFree b) : NulFree (a ++ b) := by
  unfold NulFree at *
  rw [String.toList_append, List.mem_append]
  exact fun h => h.elim ha hb

theorem NulFree.percentDoubled {text : String} (h : NulFree text) :
    NulFree (percentDoubled text) := by
  unfold NulFree Armature.percentDoubled at *
  rw [String.toList_ofList, List.mem_flatMap]
  rintro ⟨c, hc, hmem⟩
  split at hmem
  · exact absurd hmem (by decide)
  · rw [List.mem_singleton] at hmem
    subst hmem
    exact h hc

theorem NulFree.takeWhile {text : String} (h : NulFree text) :
    (Bytes.ofText text).takeWhile (· ≠ 0) = Bytes.ofText text := by
  have hbytes : ∀ b ∈ Bytes.ofText text, decide (b ≠ 0) = true := by
    rw [Bytes.ofText_eq]
    intro b hb
    obtain ⟨c, hc, hb⟩ := List.mem_flatMap.mp hb
    apply decide_eq_true
    rintro rfl
    have hzero : c = Char.ofNat 0 := Char.toNat_inj.mp (Bytes.ascii_of_mem_encode hb (by decide))
    exact h (hzero ▸ hc)
  have htake : List.takeWhile (· ≠ 0) (Bytes.ofText text ++ []) = Bytes.ofText text ++ [] :=
    List.takeWhile_append_of_pos hbytes
  simpa using htake

end Armature
