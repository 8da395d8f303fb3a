import Armature.Proofs.Execution

/-!
# Loaded images

The lines that an image was assembled from are in the code of every process that runs it, and the
addresses that they form are those of their constants.
-/

namespace Armature

namespace Asm

open A64 (Instr)

/-! ## Words and sites -/

theorem Line.size_of_datum (l : Line) (d : Datum) (h : l.datum? = some d) : 0 < l.size := by
  cases l with
  | address | double | callImport => simp [size, body]
  | _ => cases h

namespace Code

theorem getElem?_located {α : Type} (f : Nat → Line → List α) (hf : ∀ q l, (f q l).length = l.size)
    (k : Nat) (c : Code) (q : Nat) (l : Line) (n : Nat) (hmem : (q, l) ∈ located k c)
    (hn : n < l.size) : ((located k c).flatMap fun (q, l) => f q l)[q - k + n]? = (f q l)[n]? := by
  induction c generalizing k with
  | nil => cases hmem
  | cons first rest ih =>
    rw [located_cons, List.mem_cons, Prod.mk.injEq] at hmem
    rw [located_cons, List.flatMap_cons]
    rcases hmem with ⟨rfl, rfl⟩ | hmem
    · rw [Nat.sub_self, Nat.zero_add, List.getElem?_append_left (by rw [hf]; exact hn)]
    · have hq := (mem_located _ _ _ _ hmem).1
      rw [List.getElem?_append_right (by rw [hf]; omega), hf, ← ih _ hmem]
      congr 1
      omega

theorem getElem?_instrs_of_mem (place : Label → Nat) (k : Nat) (c : Code) (q : Nat) (l : Line)
    (n : Nat) (i : Instr) (hmem : (q, l) ∈ located k c) (hi : (l.resolved place q)[n]? = some i) :
    (instrs place k c)[q - k + n]? = some i := by
  have hn : n < l.size := by
    rw [← Line.length_resolved place q l]
    exact (List.getElem?_eq_some_iff.mp hi).1
  rw [← hi]
  exact getElem?_located (fun q l => l.resolved place q) (Line.length_resolved place) k c q l n hmem
    hn

theorem pairwise_sites (k : Nat) (c : Code) : (sites k c).Pairwise (· < ·) := by
  induction c generalizing k with
  | nil => exact .nil
  | cons l rest ih =>
    have hrest : ∀ site ∈ sites (k + l.size) rest, 4 * (k + l.size) ≤ site := by
      intro site hsite
      obtain ⟨⟨q, l'⟩, hmem, hsome⟩ := List.mem_filterMap.mp hsite
      obtain ⟨d, -, rfl⟩ := Option.map_eq_some_iff.mp hsome
      have := (mem_located _ _ _ _ hmem).1
      omega
    cases hd : l.datum? with
    | none =>
      have : sites k (l :: rest) = sites (k + l.size) rest := by simp [sites, hd]
      rw [this]
      exact ih _
    | some d =>
      have hsize := l.size_of_datum d hd
      have : sites k (l :: rest) = 4 * k :: sites (k + l.size) rest := by simp [sites, hd]
      rw [this, List.pairwise_cons]
      refine ⟨?_, ih _⟩
      intro site hsite
      have := hrest site hsite
      omega

end Code

theorem find?_site (references : List Reference)
    (h : (references.map (·.site)).Pairwise (· < ·)) (r : Reference) (hr : r ∈ references) :
    references.find? (·.site = r.site) = some r := by
  induction references with
  | nil => cases hr
  | cons first rest ih =>
    rw [List.map_cons, List.pairwise_cons] at h
    rcases List.mem_cons.mp hr with rfl | hr
    · simp
    · have hlt := h.1 r.site (List.mem_map_of_mem hr)
      rw [List.find?_cons_of_neg (by simpa using by omega)]
      exact ih h.2 hr

theorem Image.Built.find?_reference {image : Image} {place : Label → Nat} {c : Code}
    (h : image.Built place c) {r : Reference} (hr : r ∈ image.references.toList) :
    image.references.toList.find? (·.site = r.site) = some r := by
  refine find?_site _ ?_ r hr
  rw [h.sites]
  exact Code.pairwise_sites 0 c

/-! ## Constants in their places -/

theorem offsetsFrom_spec (start : Nat) (strings : List Bytes) (n : Nat) (bytes : Bytes)
    (h : strings[n]? = some bytes) :
    ∃ o rest, (offsetsFrom start strings)[n]? = some (start + o) ∧
      (strings.flatMap (· ++ [0])).drop o = bytes ++ 0 :: rest := by
  induction strings generalizing start n with
  | nil => simp at h
  | cons first others ih =>
    cases n with
    | zero =>
      cases h
      exact ⟨0, others.flatMap (· ++ [0]), rfl, by simp⟩
    | succ n =>
      obtain ⟨o, rest, ho, hdrop⟩ := ih (start + first.length + 1) n (by simpa using h)
      refine ⟨first.length + 1 + o, rest, ?_, ?_⟩
      · rw [offsetsFrom, List.getElem?_cons_succ, ho]
        congr 1
        omega
      · rw [List.flatMap_cons, ← hdrop, ← List.drop_drop]
        congr 1
        exact List.drop_left' (by simp)

theorem pairwise_offsetsFrom (start : Nat) (strings : List Bytes) :
    (offsetsFrom start strings).Pairwise (· < ·) ∧
      ∀ o ∈ offsetsFrom start strings, start ≤ o := by
  induction strings generalizing start with
  | nil => exact ⟨.nil, nofun⟩
  | cons first rest ih =>
    obtain ⟨hpairwise, hle⟩ := ih (start + first.length + 1)
    simp only [offsetsFrom, List.pairwise_cons, List.mem_cons, forall_eq_or_imp]
    refine ⟨⟨fun o ho => ?_, hpairwise⟩, Nat.le_refl _, fun o ho => ?_⟩
    · have := hle o ho
      omega
    · have := hle o ho
      omega

theorem offsetsFrom_inj {start : Nat} {strings strings' : List Bytes}
    (hoffsets : offsetsFrom start strings = offsetsFrom start strings')
    (hbytes : strings.flatMap (· ++ [0]) = strings'.flatMap (· ++ [0])) : strings = strings' := by
  induction strings generalizing start strings' with
  | nil =>
    cases strings' with
    | nil => rfl
    | cons => cases hoffsets
  | cons first rest ih =>
    cases strings' with
    | nil => cases hoffsets
    | cons first' rest' =>
      simp only [offsetsFrom, List.cons.injEq, true_and] at hoffsets
      simp only [List.flatMap_cons] at hbytes
      -- where the next string starts gives the length of this one, unless it is the last
      have hlength : (first ++ [0]).length = (first' ++ [0]).length := by
        cases rest with
        | nil =>
          cases rest' with
          | nil => simpa using congrArg List.length hbytes
          | cons => cases hoffsets
        | cons =>
          cases rest' with
          | nil => cases hoffsets
          | cons =>
            simp only [offsetsFrom, List.cons.injEq] at hoffsets
            simp only [List.length_append, List.length_singleton]
            omega
      obtain ⟨hfirst, hrest⟩ := List.append_inj hbytes hlength
      obtain rfl : first = first' := List.append_cancel_right hfirst
      rw [ih hoffsets hrest]

theorem length_flatMap_le64 (doubles : List UInt64) :
    (doubles.flatMap fun bits => Bytes.le64 bits.toNat).length = 8 * doubles.length := by
  induction doubles with
  | nil => rfl
  | cons first rest ih =>
    rw [List.flatMap_cons, List.length_append, ih, Bytes.le64, Bytes.length_le, List.length_cons]
    omega

theorem take_drop_le64 (doubles : List UInt64) (n : Nat) (bits : UInt64)
    (h : doubles[n]? = some bits) :
    ((doubles.flatMap fun bits => Bytes.le64 bits.toNat).drop (8 * n)).take 8 =
      Bytes.le64 bits.toNat := by
  induction doubles generalizing n with
  | nil => simp at h
  | cons first rest ih =>
    cases n with
    | zero =>
      cases h
      exact List.take_left' (by simp [Bytes.le64])
    | succ n =>
      rw [List.flatMap_cons, ← ih n (by simpa using h), Nat.mul_succ, Nat.add_comm,
        ← List.drop_drop, List.drop_left' (by simp [Bytes.le64])]

theorem Pool.freeze_eq (pool : Pool) :
    pool.freeze.strings = pool.strings.toList.flatMap (· ++ [0]) ∧
      pool.freeze.stringOffsets.toList = offsetsFrom 0 pool.strings.toList :=
  ⟨pool.agree.blob, pool.agree.offsets⟩

theorem Pool.freeze_offset? (pool : Pool) (n : Nat) :
    pool.freeze.offset? (.string n) = (offsetsFrom 0 pool.strings.toList)[n]? := by
  rw [← pool.freeze_eq.2, Array.getElem?_toList]
  rfl

theorem Pool.freeze_string (pool : Pool) (n : Nat) (bytes : Bytes)
    (h : pool.strings[n]? = some bytes) :
    ∃ o rest, pool.freeze.offset? (.string n) = some o ∧
      pool.freeze.strings.drop o = bytes ++ 0 :: rest := by
  obtain ⟨o, rest, ho, hdrop⟩ := offsetsFrom_spec 0 pool.strings.toList n bytes (by simpa using h)
  rw [Nat.zero_add] at ho
  exact ⟨o, rest, by rw [pool.freeze_offset?, ho], by rw [pool.freeze_eq.1, hdrop]⟩

theorem Pool.freeze_strings_inj {pool pool' : Pool} (h : pool.freeze = pool'.freeze) :
    pool.strings = pool'.strings := by
  obtain ⟨hstrings, hoffsets⟩ := pool.freeze_eq
  obtain ⟨hstrings', hoffsets'⟩ := pool'.freeze_eq
  rw [h] at hstrings hoffsets
  exact Array.toList_inj.mp
    (offsetsFrom_inj (hoffsets.symm.trans hoffsets') (hstrings.symm.trans hstrings'))

theorem Pool.freeze_offset_inj (pool : Pool) {n n' o : Nat}
    (h : pool.freeze.offset? (.string n) = some o)
    (h' : pool.freeze.offset? (.string n') = some o) : n = n' := by
  have hnodup : (offsetsFrom 0 pool.strings.toList).Nodup :=
    (pairwise_offsetsFrom 0 pool.strings.toList).1.imp Nat.ne_of_lt
  rw [pool.freeze_offset?] at h h'
  have hn := (List.getElem?_eq_some_iff.mp h).1
  exact (List.getElem?_inj hn hnodup).mp (h.trans h'.symm)

theorem Pool.nodup_strings (pool : Pool) : pool.strings.toList.Nodup := pool.agree.distinct

theorem Pool.freeze_double (pool : Pool) (n : Nat) (bits : UInt64)
    (h : pool.doubles[n]? = some bits) :
    pool.freeze.offset? (.double n) = some (8 * n) ∧ 8 * n + 8 ≤ pool.freeze.doubles.length ∧
      (pool.freeze.doubles.drop (8 * n)).take 8 = Bytes.le64 bits.toNat := by
  have hbits : pool.doubles.toList[n]? = some bits := by simpa using h
  have hn : n < pool.doubles.toList.length := (List.getElem?_eq_some_iff.mp hbits).1
  have hlen : pool.freeze.doubles.length = 8 * pool.doubles.toList.length := length_flatMap_le64 _
  refine ⟨?_, by omega, take_drop_le64 _ _ _ hbits⟩
  rw [Constants.offset?, if_pos (by omega)]

end Asm

theorem takeWhile_append_of_neg {α : Type} (p : α → Bool) (xs ys : List α) (y : α)
    (hy : p y = false) : (xs ++ y :: ys).takeWhile p = xs.takeWhile p := by
  induction xs with
  | nil => simp [hy]
  | cons x xs ih => simp [List.takeWhile_cons, ih]

namespace Process

open A64 (Instr)
open Asm (Code Constants Datum Image Import Label Line Pool Target)

variable {image : Image} (env : Process image)

theorem toNat_address (a : Nat) (h : a < 2 ^ 64) : (BitVec.ofNat 64 a).toNat = a := by
  rw [BitVec.toNat_ofNat, Nat.mod_eq_of_lt h]

theorem toNat_pc (k : Nat) (hk : 4 * k < image.code.size) :
    (env.pc k).toNat = env.code + 4 * k := by
  have := env.code_le
  exact toNat_address _ (by omega)

theorem not_onStack (a start n : Nat) (h : Apart start n env.stackLow (env.stackHigh - env.stackLow))
    (hl : start ≤ a) (hu : a + 8 ≤ start + n) : env.onStack a = false := by
  simp only [onStack, decide_eq_false_iff_not]
  unfold Apart at h
  omega

theorem load?_pointer (m : A64.Machine) (f : Import) :
    env.load? m (BitVec.ofNat 64 (env.pointers + 8 * f.index)) = some (env.imported f) := by
  have hle := env.pointers_le
  have hindex : f.index ≤ 1 := by cases f <;> decide
  have hstack := env.not_onStack (env.pointers + 8 * f.index) env.pointers 16 env.pointers_apart
    (by omega) (by omega)
  have haligned := env.pointers_aligned
  have hmod : ¬ (env.pointers + 8 * f.index) % 8 ≠ 0 := by omega
  rw [load?, toNat_address _ (by omega)]
  simp only [hstack, Bool.false_eq_true, if_false, if_neg hmod]
  cases f with
  | printf => exact if_pos rfl
  | exit =>
    rw [if_neg (by simp [Import.index]), if_pos rfl]
    rfl

theorem load?_double (m : A64.Machine) (pool : Pool) (hpool : image.constants = pool.freeze)
    (n : Nat) (bits : UInt64) (h : pool.doubles[n]? = some bits) :
    env.load? m (BitVec.ofNat 64 (env.doubles + 8 * n)) = some bits.toBitVec := by
  obtain ⟨-, hn, hbytes⟩ := pool.freeze_double n bits h
  rw [← hpool] at hn hbytes
  have hle := env.doubles_le
  have hapart := env.constants_apart
  have haligned := env.doubles_aligned
  have hstack := env.not_onStack (env.doubles + 8 * n) env.doubles _ env.doubles_apart (by omega)
    (by omega)
  have hmod : ¬ (env.doubles + 8 * n) % 8 ≠ 0 := by omega
  have hrange : env.doubles ≤ env.doubles + 8 * n ∧
      env.doubles + 8 * n + 8 ≤ env.doubles + image.constants.doubles.length := by omega
  unfold Apart at hapart
  rw [load?, toNat_address _ (by omega)]
  simp only [hstack, Bool.false_eq_true, if_false, if_neg hmod]
  rw [if_neg (by simp only [Import.index]; omega), if_neg (by simp only [Import.index]; omega),
    if_pos hrange, Nat.add_sub_cancel_left, hbytes, toNat_le64,
    Nat.mod_eq_of_lt bits.toNat_lt]
  exact congrArg some (BitVec.ofNat_toNat 64 bits.toBitVec)

theorem string_place (pool : Pool) (hpool : image.constants = pool.freeze) (n : Nat)
    (bytes : Bytes) (h : pool.strings[n]? = some bytes) :
    ∃ o a rest, pool.freeze.offset? (.string n) = some o ∧
      env.address? (.constant (.string n)) = some a ∧ a.toNat = env.strings + o ∧
      o < image.constants.strings.length ∧ image.constants.strings.drop o = bytes ++ 0 :: rest := by
  obtain ⟨o, rest, ho, hstrings⟩ := pool.freeze_string n bytes h
  have hlt : o < pool.freeze.strings.length := by
    have := congrArg List.length hstrings
    simp only [List.length_drop, List.length_append, List.length_cons] at this
    omega
  have hle := env.strings_le
  rw [hpool] at hle
  refine ⟨o, BitVec.ofNat 64 (env.strings + o), rest, ho, ?_, toNat_address _ (by omega), ?_, ?_⟩
  · simp only [address?, hpool, ho, Option.map_some]
  · rw [hpool]
    exact hlt
  · rw [hpool]
    exact hstrings

theorem StringAt.string? {env : Process image} {a : BitVec 64} {bytes : Bytes}
    (h : env.StringAt a bytes) : env.string? a = some (bytes.takeWhile (· ≠ 0)) := by
  obtain ⟨pool, n, hpool, -, hstring, ha⟩ := h
  obtain ⟨o, a', rest, -, ha', hnat, hlt, hstrings⟩ := env.string_place pool hpool n bytes hstring
  obtain rfl : a' = a := Option.some.inj (ha'.symm.trans ha)
  rw [Process.string?, hnat, if_pos (by omega), Nat.add_sub_cancel_left, hstrings,
    takeWhile_append_of_neg _ _ _ _ (by decide)]

/-- Addresses of strings can be compared in place of the strings. -/
theorem StringAt.eq_iff {env : Process image} {a b : BitVec 64} {bytes bytes' : Bytes}
    (h : env.StringAt a bytes) (h' : env.StringAt b bytes') : a = b ↔ bytes = bytes' := by
  obtain ⟨pool, n, hpool, hnodup, hstring, ha⟩ := h
  obtain ⟨pool', n', hpool', -, hstring', hb⟩ := h'
  rw [← Pool.freeze_strings_inj (hpool.symm.trans hpool')] at hstring'
  constructor
  · rintro rfl
    obtain ⟨o, a₁, -, ho, ha₁, hnat, -⟩ := env.string_place pool hpool n bytes hstring
    obtain ⟨o', a₂, -, ho', ha₂, hnat', -⟩ := env.string_place pool hpool n' bytes' hstring'
    obtain rfl : a₁ = a := Option.some.inj (ha₁.symm.trans ha)
    obtain rfl : a₂ = a₁ := Option.some.inj (ha₂.symm.trans hb)
    obtain rfl : o = o' := by omega
    obtain rfl := pool.freeze_offset_inj ho ho'
    simpa [hstring] using hstring'
  · rintro rfl
    rw [← Array.getElem?_toList] at hstring hstring'
    have hn := (List.getElem?_eq_some_iff.mp hstring).1
    obtain rfl : n = n' := (List.getElem?_inj hn hnodup).mp (hstring.trans hstring'.symm)
    exact Option.some.inj (ha.symm.trans hb)

theorem points_of_holds (pool : Pool) (hpool : image.constants = pool.freeze)
    (hnodup : pool.strings.toList.Nodup) (target : Target) (d : Datum) (h : pool.Holds target d) :
    ∃ a, env.address? target = some a ∧ env.Points a d := by
  unfold Pool.Holds at h
  split at h
  · rename_i n bytes
    obtain ⟨-, a, -, -, ha, -⟩ := env.string_place pool hpool n bytes h
    exact ⟨a, ha, pool, n, hpool, hnodup, h, ha⟩
  · rename_i n bits
    obtain ⟨hoffset, -, -⟩ := pool.freeze_double n bits h
    rw [← hpool] at hoffset
    exact ⟨_, by simp only [address?, hoffset, Option.map_some],
      fun m => env.load?_double m pool hpool n bits h⟩
  · subst h
    exact ⟨_, rfl, fun m => env.load?_pointer m _⟩
  · exact h.elim

theorem target?_pc (c : Code) (place : Label → Nat) (hbuilt : image.Built place c) (k : Nat)
    (l : Line) (d : Datum) (hk : (k, l) ∈ Code.located 0 c) (hsize : 4 * k < image.code.size)
    (hd : l.datum? = some d) : ∃ a, env.target? (env.pc k) = some a ∧ env.Points a d := by
  obtain ⟨r, hr, hsite, hholds⟩ := hbuilt.referred k l d hk hd
  obtain ⟨a, ha, hpoints⟩ := env.points_of_holds c.pool hbuilt.constants c.pool.nodup_strings r.target d
    hholds
  have hfind : image.references.find? (fun r => (env.pc k).toNat = env.code + r.site) = some r := by
    rw [← Array.find?_toList, ← hbuilt.find?_reference (by simpa using hr), env.toNat_pc k hsize,
      hsite]
    congr 1
    funext r'
    rw [decide_eq_decide]
    omega
  exact ⟨a, by rw [target?, hfind]; exact ha, hpoints⟩

theorem fetch_pc (k : Nat) (w : Word) (i : Instr) (hw : image.code.word? (4 * k) = some w)
    (hi : A64.decode w = some i) (hk : 4 * k < image.code.size) :
    env.fetch (env.pc k) = some i := by
  rw [fetch, env.toNat_pc k hk, if_pos (by omega), Nat.add_sub_cancel_left, hw]
  exact hi

theorem pc_ne_imports (k : Nat) (hk : 4 * k < image.code.size) :
    env.pc k ≠ env.printf ∧ env.pc k ≠ env.exit := by
  have hpc := env.toNat_pc k hk
  have hprintf := env.printf_apart
  have hexit := env.exit_apart
  unfold Apart at hprintf hexit
  constructor
  · intro heq
    rw [heq] at hpc
    omega
  · intro heq
    rw [heq] at hpc
    omega

theorem installed_of_built (c : Code) (place : Label → Nat) (hbuilt : image.Built place c) :
    env.Installed place 0 c := by
  intro k l hmem
  have hsize := hbuilt.size_code
  have hbound := (Code.mem_located 0 c k l hmem).2
  constructor
  · intro n hn
    exact env.pc_ne_imports (k + n) (by omega)
  · intro n i hi hfits
    have hn : n < l.size := by
      rw [← Line.length_resolved place k l]
      exact (List.getElem?_eq_some_iff.mp hi).1
    have hword := Code.getElem?_instrs_of_mem place 0 c k l n i hmem hi
    refine env.fetch_pc (k + n) i.encode _ ?_ (A64.decode_encode i hfits) (by omega)
    rw [hbuilt.code, Buffer.word?_ofWords, List.getElem?_map]
    rw [Nat.sub_zero] at hword
    rw [hword]
    rfl
  · exact hbuilt.reaches k l hmem
  · rintro label rfl
    exact hbuilt.placed k label hmem
  · intro d hd
    have hpos := l.size_of_datum d hd
    exact env.target?_pc c place hbuilt k l d hmem (by omega) hd

theorem exists_process (image : Image) (hcode : image.code.size ≤ 2 ^ 32)
    (hstrings : image.constants.strings.length ≤ 2 ^ 32)
    (hdoubles : image.constants.doubles.length ≤ 2 ^ 32) :
    ∃ env : Process image, env.stackLow = 2 ^ 36 ∧ env.stackHigh = 2 ^ 40 := by
  refine ⟨
    { code := 2 ^ 32
      strings := 2 ^ 33
      doubles := 2 ^ 34
      pointers := 2 ^ 35
      stackLow := 2 ^ 36
      stackHigh := 2 ^ 40
      printf := BitVec.ofNat 64 (2 ^ 41)
      exit := BitVec.ofNat 64 (2 ^ 41 + 4)
      code_le := by omega
      strings_le := by omega
      doubles_le := by omega
      pointers_le := by decide
      stack_le := by decide
      doubles_aligned := by decide
      pointers_aligned := by decide
      strings_apart := by unfold Apart; omega
      doubles_apart := by unfold Apart; omega
      pointers_apart := by unfold Apart; omega
      constants_apart := by unfold Apart; omega
      printf_apart := by unfold Apart; rw [toNat_address _ (by decide)]; omega
      exit_apart := by unfold Apart; rw [toNat_address _ (by decide)]; omega
      imports_ne := by decide }, rfl, rfl⟩

end Process

end Armature
