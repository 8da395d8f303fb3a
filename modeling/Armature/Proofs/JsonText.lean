import Mathlib.Data.List.DropRight
import Armature.Json.Writer
import Armature.Proofs.Numerals

/-!
# Reading back JSON

The written form of a value is read as that value, if its numbers are integers and its strings
have a text. The reader stops right behind it.
-/

namespace Armature

/-! ## Numbers -/

theorem Numeral.coefficient_ofInt (i : Int) : (ofInt i).coefficient = i.natAbs := by
  rw [coefficient, ofInt, List.append_nil, ofDigits_toDigits]

namespace Json

theorem numeral_ofInt (i : Int) (rest : List Char) (h : Ends rest) :
    numeral ((Numeral.ofInt i).chars 1 ++ rest) = some (.ofInt i, rest) :=
  numeral_chars (Numeral.legible_ofInt i) 1 h

/-! ## Strings -/

theorem hexDigit?_hexDigit : ∀ n < 16, hexDigit? (hexDigit n) = some n := by
  decide

theorem stringTail_unit (read : List Char) (sound : Bool) (a b c d : Char) (u : Nat)
    (rest : List Char) (h : unit? a b c d = some u) (hu : u < 0xD800) :
    stringTail read sound ('\\' :: 'u' :: a :: b :: c :: d :: rest) =
      stringTail (Char.ofNat u :: read) sound rest := by
  have hhigh : isHighSurrogate u = false := by simp [isHighSurrogate]; omega
  have hlow : isLowSurrogate u = false := by simp [isLowSurrogate]; omega
  conv_lhs => unfold stringTail
  split <;> grind

theorem stringTail_simple (read : List Char) (sound : Bool) (c e : Char) (rest : List Char)
    (h : simpleEscape? c = some e) (hc : c ≠ 'u') :
    stringTail read sound ('\\' :: c :: rest) = stringTail (e :: read) sound rest := by
  conv_lhs => unfold stringTail
  split <;> grind

theorem stringTail_character (read : List Char) (sound : Bool) (c : Char) (rest : List Char)
    (hquote : c ≠ '"') (hescape : c ≠ '\\') (hcontrol : ¬c < ' ') :
    stringTail read sound (c :: rest) = stringTail (c :: read) sound rest := by
  conv_lhs => unfold stringTail
  split <;> grind

theorem unit?_control (n : Nat) (h : n < 32) :
    unit? '0' '0' (hexDigit (n / 16)) (hexDigit (n % 16)) = some n := by
  have hzero : hexDigit? '0' = some 0 := by decide
  simp only [unit?, hzero, hexDigit?_hexDigit (n / 16) (by omega),
    hexDigit?_hexDigit (n % 16) (by omega)]
  simp
  omega

theorem stringTail_escaped (read : List Char) (sound : Bool) (c : Char) (rest : List Char) :
    stringTail read sound (escaped c ++ rest) = stringTail (c :: read) sound rest := by
  unfold escaped
  split
  · exact stringTail_simple read sound '"' '"' rest rfl (by decide)
  · exact stringTail_simple read sound '\\' '\\' rest rfl (by decide)
  · exact stringTail_simple read sound 'n' '\n' rest rfl (by decide)
  · exact stringTail_simple read sound 'r' '\r' rest rfl (by decide)
  · exact stringTail_simple read sound 't' '\t' rest rfl (by decide)
  · rename_i hquote hescape _ _ _
    split_ifs with hbackspace hfeed hcontrol
    · have h := stringTail_simple read sound 'b' (Char.ofNat 8) rest rfl (by decide)
      rwa [← hbackspace, Char.ofNat_toNat] at h
    · have h := stringTail_simple read sound 'f' (Char.ofNat 12) rest rfl (by decide)
      rwa [← hfeed, Char.ofNat_toNat] at h
    · have hlt : c.toNat < 32 := hcontrol
      have h := stringTail_unit read sound '0' '0' _ _ c.toNat rest
        (unit?_control c.toNat hlt) (by omega)
      rwa [Char.ofNat_toNat] at h
    · exact stringTail_character read sound c rest hquote hescape hcontrol

theorem stringTail_flatMap (read cs rest : List Char) (sound : Bool) :
    stringTail read sound (cs.flatMap escaped ++ rest) =
      stringTail (cs.reverse ++ read) sound rest := by
  induction cs generalizing read with
  | nil => rfl
  | cons c cs ih =>
    rw [List.flatMap_cons, List.append_assoc, stringTail_escaped, ih]
    simp

theorem stringTail_quoted (text : String) (rest : List Char) :
    stringTail [] true (text.toList.flatMap escaped ++ '"' :: rest) = some (some text, rest) := by
  rw [stringTail_flatMap]
  simp [stringTail]

/-! ## Blanks -/

@[simp] theorem skipBlank_skipBlank (cs : List Char) : skipBlank (skipBlank cs) = skipBlank cs :=
  List.dropWhile_idempotent _ _

@[simp] theorem skipBlank_newline (depth : Nat) (cs : List Char) :
    skipBlank (newline depth ++ cs) = skipBlank cs := by
  unfold skipBlank newline
  apply List.dropWhile_append_of_pos
  intro c hc
  rcases List.mem_cons.1 hc with rfl | hc
  · rfl
  · rw [List.eq_of_mem_replicate hc]
    rfl

theorem skipBlank_cons (c : Char) (cs : List Char) (h : isBlank c = false) :
    skipBlank (c :: cs) = c :: cs := by
  simp [skipBlank, h]

theorem value_skipBlank (fuel : Nat) (cs : List Char) :
    value fuel (skipBlank cs) = value fuel cs := by
  cases fuel with
  | zero => rfl
  | succ fuel => simp [value]

theorem value_blank (fuel : Nat) (cs : List Char) : value fuel (' ' :: cs) = value fuel cs := by
  rw [← value_skipBlank fuel cs, ← value_skipBlank]
  rfl

theorem elements_skipBlank (fuel : Nat) (cs : List Char) :
    elements fuel (skipBlank cs) = elements fuel cs := by
  cases fuel with
  | zero => rfl
  | succ fuel => simp [elements, value_skipBlank]

theorem members_skipBlank (fuel : Nat) (cs : List Char) :
    members fuel (skipBlank cs) = members fuel cs := by
  cases fuel with
  | zero => rfl
  | succ fuel => simp [members]

@[simp] theorem elements_newline (fuel depth : Nat) (cs : List Char) :
    elements fuel (newline depth ++ cs) = elements fuel cs := by
  rw [← elements_skipBlank, skipBlank_newline, elements_skipBlank]

@[simp] theorem members_newline (fuel depth : Nat) (cs : List Char) :
    members fuel (newline depth ++ cs) = members fuel cs := by
  rw [← members_skipBlank, skipBlank_newline, members_skipBlank]

/-! ## Readers -/

variable {fuel : Nat} {cs rest tail : List Char} {v : Json}

/-- A numeral starts with a sign or a digit, as no other value does. -/
theorem value_number {n : Numeral} (h : numeral cs = some (n, rest)) :
    value (fuel + 1) cs = some (.number n, rest) := by
  have hfirst : ∃ c tail, cs = c :: tail ∧ (c = '-' ∨ c.isDigit = true) := by
    cases cs with
    | nil => simp [numeral, unsigned, whole, digits] at h
    | cons c tail =>
      refine ⟨c, tail, rfl, ?_⟩
      by_contra hc
      rw [not_or] at hc
      have hzero : c ≠ '0' := by
        rintro rfl
        exact hc.2 rfl
      simp [numeral, unsigned, whole, digits, hc, hzero] at h
  obtain ⟨c, tail, rfl, hc⟩ := hfirst
  have hblank : isBlank c = false := by
    by_contra hb
    simp only [isBlank, Bool.not_eq_false, Bool.or_eq_true, decide_eq_true_eq] at hb
    rcases hb with ((rfl | rfl) | rfl) | rfl <;> simp at hc
  unfold value
  rw [skipBlank_cons c tail hblank]
  split <;> simp_all

theorem elements_last (h : value fuel cs = some (v, rest)) (hrest : skipBlank rest = ']' :: tail) :
    elements (fuel + 1) cs = some ([v], tail) := by
  simp [elements, h, hrest]

theorem elements_more {vs : List Json} {after : List Char} (h : value fuel cs = some (v, rest))
    (hrest : skipBlank rest = ',' :: tail) (hmore : elements fuel tail = some (vs, after)) :
    elements (fuel + 1) cs = some (v :: vs, after) := by
  simp [elements, h, hrest, hmore]

/-- No value starts with a closing bracket. -/
theorem value_array {items : List Json} (h : elements fuel cs = some (items, rest)) :
    value (fuel + 1) ('[' :: cs) = some (.array items, rest) := by
  have hopen : ∀ tail, skipBlank cs ≠ ']' :: tail := by
    intro tail htail
    rw [← elements_skipBlank, htail] at h
    cases fuel with
    | zero => simp [elements] at h
    | succ fuel =>
      cases fuel with
      | zero => simp [elements, value] at h
      | succ fuel =>
        simp [elements, value, skipBlank_cons, isBlank, numeral, unsigned, whole, digits] at h
  unfold value
  rw [skipBlank_cons '[' cs rfl]
  simp only [elements_skipBlank, h, Option.map_some]

theorem members_last {text : String} (h : value fuel cs = some (v, rest))
    (hrest : skipBlank rest = '}' :: tail) :
    members (fuel + 1) (quoted text ++ ':' :: cs) = some ([(some text, v)], tail) := by
  simp [members, quoted, skipBlank_cons, isBlank, stringTail_quoted, h, hrest]

theorem members_more {text : String} {ms : List (JsonText × Json)} {after : List Char}
    (h : value fuel cs = some (v, rest)) (hrest : skipBlank rest = ',' :: tail)
    (hmore : members fuel tail = some (ms, after)) :
    members (fuel + 1) (quoted text ++ ':' :: cs) = some ((some text, v) :: ms, after) := by
  simp [members, quoted, skipBlank_cons, isBlank, stringTail_quoted, h, hrest, hmore]

theorem value_object {ms : List (JsonText × Json)} (h : members fuel cs = some (ms, rest)) :
    value (fuel + 1) ('{' :: cs) = some (.object ms, rest) := by
  have hopen : ∀ tail, skipBlank cs ≠ '}' :: tail := by
    intro tail htail
    rw [← members_skipBlank, htail] at h
    cases fuel with
    | zero => simp [members] at h
    | succ fuel => simp [members, skipBlank_cons, isBlank] at h
  unfold value
  rw [skipBlank_cons '{' cs rfl]
  simp only [members_skipBlank, h, Option.map_some]

/-! ## Values -/

/-- All strings have a text, and all numbers are integers in their usual form. -/
inductive Plain : Json → Prop where
  | null : Plain null
  | bool (b : Bool) : Plain (bool b)
  | int (i : Int) : Plain (number (.ofInt i))
  | text (s : String) : Plain (ofText s)
  | array (items : List Json) (h : ∀ v ∈ items, Plain v) : Plain (array items)
  | object (ms : List (String × Json)) (h : ∀ m ∈ ms, Plain m.2) : Plain (ofMembers ms)

/-- The written form is read as the value, whatever follows it. -/
def ReadsBack (json : Json) : Prop :=
  ∀ fuel depth rest, Ends rest → (pretty depth json).length ≤ fuel →
    value fuel (pretty depth json ++ rest) = some (json, rest)

theorem ends_newline (depth : Nat) (rest : List Char) : Ends (newline depth ++ rest) := by
  simp [Ends, newline]

theorem ends_comma (rest : List Char) : Ends (',' :: rest) := by
  simp [Ends]

theorem elements_pretty (v : Json) (vs : List Json) (h : ∀ w ∈ v :: vs, ReadsBack w)
    (fuel depth outer : Nat) (rest : List Char)
    (hfuel : (pretty depth v).length + (prettyItems depth vs).length < fuel) :
    elements fuel
        (pretty depth v ++ (prettyItems depth vs ++ (newline outer ++ ']' :: rest))) =
      some (v :: vs, rest) := by
  induction vs generalizing v fuel with
  | nil =>
    obtain ⟨fuel, rfl⟩ : ∃ n, fuel = n + 1 := ⟨fuel - 1, by omega⟩
    have hv := h v (by simp) fuel depth _ (ends_newline outer (']' :: rest)) (by omega)
    exact elements_last hv (by simp [skipBlank_cons, isBlank])
  | cons w ws ih =>
    obtain ⟨fuel, rfl⟩ : ∃ n, fuel = n + 1 := ⟨fuel - 1, by omega⟩
    simp only [prettyItems, List.length_cons, List.length_append, List.cons_append,
      List.append_assoc] at hfuel ⊢
    have hmore := ih w (fun u hu => h u (List.mem_cons_of_mem v hu)) fuel (by omega)
    rw [← elements_newline fuel depth] at hmore
    exact elements_more (h v (by simp) fuel depth _ (ends_comma _) (by omega))
      (skipBlank_cons ',' _ rfl) hmore

theorem members_pretty (m : String × Json) (ms : List (String × Json))
    (h : ∀ n ∈ m :: ms, ReadsBack n.2) (fuel depth outer : Nat) (rest : List Char)
    (hfuel : (pretty depth m.2).length +
      (prettyMembers depth (ms.map fun n => (some n.1, n.2))).length < fuel) :
    members fuel (quoted m.1 ++ ':' :: ' ' :: (pretty depth m.2 ++
        (prettyMembers depth (ms.map fun n => (some n.1, n.2)) ++
          (newline outer ++ '}' :: rest)))) =
      some ((m :: ms).map fun n => (some n.1, n.2), rest) := by
  induction ms generalizing m fuel with
  | nil =>
    obtain ⟨fuel, rfl⟩ : ∃ n, fuel = n + 1 := ⟨fuel - 1, by omega⟩
    have hv := h m (by simp) fuel depth _ (ends_newline outer ('}' :: rest)) (by omega)
    rw [← value_blank] at hv
    exact members_last hv (by simp [skipBlank_cons, isBlank])
  | cons n ns ih =>
    obtain ⟨fuel, rfl⟩ : ∃ n, fuel = n + 1 := ⟨fuel - 1, by omega⟩
    simp only [List.map_cons, prettyMembers, quotedText, List.length_cons, List.length_append,
      List.cons_append, List.append_assoc] at hfuel ⊢
    have hmore := ih n (fun u hu => h u (List.mem_cons_of_mem m hu)) fuel (by omega)
    rw [← members_newline fuel depth] at hmore
    refine members_more ?_ (skipBlank_cons ',' _ rfl) hmore
    rw [value_blank]
    exact h m (by simp) fuel depth _ (ends_comma _) (by omega)

theorem Plain.readsBack {json : Json} (h : json.Plain) : json.ReadsBack := by
  induction h with
  | null =>
    intro fuel depth rest _ hfuel
    obtain ⟨fuel, rfl⟩ : ∃ n, fuel = n + 1 := ⟨fuel - 1, by simp [pretty] at hfuel; omega⟩
    simp [pretty, value, skipBlank_cons, isBlank, literal?]
  | bool b =>
    intro fuel depth rest _ hfuel
    obtain ⟨fuel, rfl⟩ : ∃ n, fuel = n + 1 :=
      ⟨fuel - 1, by cases b <;> simp [pretty] at hfuel <;> omega⟩
    cases b <;> simp [pretty, value, skipBlank_cons, isBlank, literal?]
  | int i =>
    intro fuel depth rest hrest hfuel
    obtain ⟨fuel, rfl⟩ : ∃ n, fuel = n + 1 := by
      have hdigits := @Nat.length_toDigits_pos 10 i.natAbs
      simp only [pretty, Numeral.chars, Numeral.ofInt, List.length_append] at hfuel
      exact ⟨fuel - 1, by omega⟩
    exact value_number (numeral_ofInt i rest hrest)
  | text s =>
    intro fuel depth rest _ hfuel
    obtain ⟨fuel, rfl⟩ : ∃ n, fuel = n + 1 :=
      ⟨fuel - 1, by simp [ofText, pretty, quotedText, quoted] at hfuel; omega⟩
    simp [ofText, pretty, quotedText, quoted, value, skipBlank_cons, isBlank, stringTail_quoted]
  | array items h ih =>
    intro fuel depth rest _ hfuel
    cases items with
    | nil =>
      obtain ⟨fuel, rfl⟩ : ∃ n, fuel = n + 1 := ⟨fuel - 1, by simp [pretty] at hfuel; omega⟩
      simp [pretty, value, skipBlank_cons, isBlank]
    | cons v vs =>
      simp only [pretty, newline, List.length_cons, List.length_append] at hfuel
      obtain ⟨fuel, rfl⟩ : ∃ n, fuel = n + 1 := ⟨fuel - 1, by omega⟩
      have hitems := elements_pretty v vs ih fuel (depth + 1) depth rest (by omega)
      rw [← elements_newline fuel (depth + 1)] at hitems
      simpa [pretty] using value_array hitems
  | object ms h ih =>
    intro fuel depth rest _ hfuel
    cases ms with
    | nil =>
      obtain ⟨fuel, rfl⟩ : ∃ n, fuel = n + 1 :=
        ⟨fuel - 1, by simp [ofMembers, pretty] at hfuel; omega⟩
      simp [ofMembers, pretty, value, skipBlank_cons, isBlank]
    | cons m ms =>
      simp only [ofMembers, List.map_cons, pretty, newline, List.length_cons,
        List.length_append] at hfuel
      obtain ⟨fuel, rfl⟩ : ∃ n, fuel = n + 1 := ⟨fuel - 1, by omega⟩
      have hmembers := members_pretty m ms ih fuel (depth + 1) depth rest (by omega)
      rw [← members_newline fuel (depth + 1)] at hmembers
      simpa [ofMembers, pretty, quotedText] using value_object hmembers

theorem Plain.read?_text {json : Json} (h : json.Plain) : read? json.text = some json := by
  have hvalue := h.readsBack (2 * (pretty 0 json).length + 2) 0 [] (by simp [Ends]) (by omega)
  rw [List.append_nil] at hvalue
  unfold read? Json.text
  simp [hvalue, skipBlank]

end Json

end Armature
