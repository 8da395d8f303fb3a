import Armature.Bytes

/-!
# Constants

Strings and doubles that code refers to are kept once each. Strings lie one behind the other, each
with a zero byte after it; doubles lie in eight bytes each.

A pool keeps its strings in three forms: all bytes in one piece, the offset of each string, and an
index that finds the number of a string. A pool carries the proof that they tell the same.
-/

namespace Armature.Asm

/-- A constant by its number among those of its kind. -/
inductive Constant where
  | string (number : Nat)
  | double (number : Nat)
deriving DecidableEq

def Constant.name : Constant → String
  | string n => "Str(StrConst(" ++ toString n ++ "))"
  | double n => "Double(DoubleConst(" ++ toString n ++ "))"

/-- Where each string starts when the first starts at `start`. -/
def offsetsFrom (start : Nat) : List Bytes → List Nat
  | [] => []
  | b :: rest => start :: offsetsFrom (start + b.length + 1) rest

theorem length_offsetsFrom (start : Nat) (strings : List Bytes) :
    (offsetsFrom start strings).length = strings.length := by
  induction strings generalizing start with
  | nil => rfl
  | cons b rest ih => simp [offsetsFrom, ih]

theorem offsetsFrom_append (start : Nat) (strings : List Bytes) (bytes : Bytes) :
    offsetsFrom start (strings ++ [bytes]) =
      offsetsFrom start strings ++ [start + (strings.flatMap (· ++ [0])).length] := by
  induction strings generalizing start with
  | nil => rfl
  | cons b rest ih =>
    simp only [List.cons_append, offsetsFrom, ih, List.flatMap_cons, List.length_append,
      List.length_singleton]
    congr 3
    omega

/-! ## Views of a pool -/

structure Views where
  /-- The strings as they are placed, each with its zero byte. -/
  blob : Bytes
  offsets : Array Nat
  /-- The number of each string, the latest first. -/
  index : List (Bytes × Nat)
  doubles : Array UInt64
  doubleIndex : List (UInt64 × Nat)

namespace Views

/-- The number of a string, which is added if it is new. -/
def internString (v : Views) (bytes : Bytes) : Nat × Views :=
  match v.index.lookup bytes with
  | some n => (n, v)
  | none =>
    let n := v.offsets.size
    (n, { v with
      blob := v.blob ++ bytes ++ [0]
      offsets := v.offsets.push v.blob.length
      index := (bytes, n) :: v.index })

/-- The number of a bit pattern, which is added if it is new. -/
def internDouble (v : Views) (bits : UInt64) : Nat × Views :=
  match v.doubleIndex.lookup bits with
  | some n => (n, v)
  | none =>
    let n := v.doubles.size
    (n, { v with
      doubles := v.doubles.push bits
      doubleIndex := (bits, n) :: v.doubleIndex })

/-- The strings that were added, in their order. -/
def texts (v : Views) : List Bytes := (v.index.map (·.1)).reverse

/-- All views show the same constants, and no constant twice. -/
structure Agree (v : Views) : Prop where
  index : v.index = v.texts.zipIdx.reverse
  distinct : v.texts.Nodup
  offsets : v.offsets.toList = offsetsFrom 0 v.texts
  blob : v.blob = v.texts.flatMap (· ++ [0])
  doubleIndex : v.doubleIndex = v.doubles.toList.zipIdx.reverse
  distinctDoubles : v.doubles.toList.Nodup

theorem lookup_zipIdx_cases {α : Type} [BEq α] [LawfulBEq α] (contents : List α) (a : α) :
    (∃ n, contents.zipIdx.reverse.lookup a = some n ∧ contents[n]? = some a) ∨
      contents.zipIdx.reverse.lookup a = none ∧ a ∉ contents := by
  cases hlookup : contents.zipIdx.reverse.lookup a with
  | some n =>
    obtain ⟨before, after, hsplit, -⟩ := List.lookup_eq_some_iff.mp hlookup
    have hmem : (a, n) ∈ contents.zipIdx.reverse := by simp [hsplit]
    exact .inl ⟨n, rfl, List.mem_zipIdx_iff_getElem?.mp (List.mem_reverse.mp hmem)⟩
  | none =>
    refine .inr ⟨rfl, fun hmem => ?_⟩
    obtain ⟨n, hn⟩ := List.getElem?_of_mem hmem
    have hpair : (a, n) ∈ contents.zipIdx.reverse :=
      List.mem_reverse.mpr (List.mem_zipIdx_iff_getElem?.mpr hn)
    simpa using List.lookup_eq_none_iff.mp hlookup _ hpair

variable {v : Views}

theorem Agree.size_offsets (h : v.Agree) : v.offsets.size = v.texts.length := by
  rw [← Array.length_toList, h.offsets, length_offsetsFrom]

theorem Agree.internString_cases (h : v.Agree) (bytes : Bytes) :
    (∃ n, v.internString bytes = (n, v) ∧ v.texts[n]? = some bytes) ∨
      bytes ∉ v.texts ∧ v.internString bytes = (v.texts.length,
        { v with
          blob := v.blob ++ bytes ++ [0]
          offsets := v.offsets.push v.blob.length
          index := (bytes, v.texts.length) :: v.index }) := by
  have hcases := lookup_zipIdx_cases v.texts bytes
  rw [← h.index] at hcases
  unfold internString
  rcases hcases with ⟨n, hlookup, hn⟩ | ⟨hlookup, hnew⟩
  · rw [hlookup]
    exact .inl ⟨n, rfl, hn⟩
  · rw [hlookup, h.size_offsets]
    exact .inr ⟨hnew, rfl⟩

theorem Agree.internDouble_cases (h : v.Agree) (bits : UInt64) :
    (∃ n, v.internDouble bits = (n, v) ∧ v.doubles[n]? = some bits) ∨
      bits ∉ v.doubles.toList ∧ v.internDouble bits = (v.doubles.size,
        { v with
          doubles := v.doubles.push bits
          doubleIndex := (bits, v.doubles.size) :: v.doubleIndex }) := by
  have hcases := lookup_zipIdx_cases v.doubles.toList bits
  rw [← h.doubleIndex] at hcases
  unfold internDouble
  rcases hcases with ⟨n, hlookup, hn⟩ | ⟨hlookup, hnew⟩
  · rw [hlookup]
    exact .inl ⟨n, rfl, by simpa using hn⟩
  · rw [hlookup]
    exact .inr ⟨hnew, rfl⟩

theorem Agree.internString (h : v.Agree) (bytes : Bytes) : (v.internString bytes).2.Agree := by
  rcases h.internString_cases bytes with ⟨n, hfound, -⟩ | ⟨hnew, hadded⟩
  · rw [hfound]
    exact h
  · have htexts : texts { v with
        blob := v.blob ++ bytes ++ [0]
        offsets := v.offsets.push v.blob.length
        index := (bytes, v.texts.length) :: v.index } = v.texts ++ [bytes] := by
      simp [texts]
    rw [hadded]
    refine ⟨?_, ?_, ?_, ?_, h.doubleIndex, h.distinctDoubles⟩
    · rw [htexts, List.zipIdx_append, List.reverse_append, ← h.index]
      simp
    · rw [htexts, List.nodup_append]
      refine ⟨h.distinct, by simp, ?_⟩
      intro b hb c hc
      rw [List.mem_singleton.mp hc]
      rintro rfl
      exact hnew hb
    · rw [htexts, offsetsFrom_append, ← h.offsets, ← h.blob]
      simp
    · rw [htexts, List.flatMap_append, ← h.blob]
      simp

theorem Agree.internDouble (h : v.Agree) (bits : UInt64) : (v.internDouble bits).2.Agree := by
  rcases h.internDouble_cases bits with ⟨n, hfound, -⟩ | ⟨hnew, hadded⟩
  · rw [hfound]
    exact h
  · rw [hadded]
    refine ⟨h.index, h.distinct, h.offsets, h.blob, ?_, ?_⟩
    · simp [h.doubleIndex, List.zipIdx_append]
    · simp only [Array.toList_push, List.nodup_append]
      refine ⟨h.distinctDoubles, by simp, ?_⟩
      intro b hb c hc
      rw [List.mem_singleton.mp hc]
      rintro rfl
      exact hnew hb

end Views

/-! ## Pools -/

structure Pool extends Views where
  agree : toViews.Agree

namespace Pool

def empty : Pool where
  blob := []
  offsets := #[]
  index := []
  doubles := #[]
  doubleIndex := []
  agree := ⟨rfl, .nil, rfl, rfl, rfl, .nil⟩

def internString (p : Pool) (bytes : Bytes) : Nat × Pool :=
  ((p.toViews.internString bytes).1, ⟨(p.toViews.internString bytes).2, p.agree.internString bytes⟩)

def internDouble (p : Pool) (bits : UInt64) : Nat × Pool :=
  ((p.toViews.internDouble bits).1, ⟨(p.toViews.internDouble bits).2, p.agree.internDouble bits⟩)

def strings (p : Pool) : Array Bytes := p.texts.toArray

end Pool

/-- The contents of a pool as they are placed in a file. -/
structure Constants where
  strings : Bytes
  stringOffsets : Array Nat
  doubles : Bytes

namespace Constants

/-- The offset of a constant among those of its kind. -/
def offset? (c : Constants) : Constant → Option Nat
  | .string n => c.stringOffsets[n]?
  | .double n => if 8 * n < c.doubles.length then some (8 * n) else none

end Constants

def Pool.freeze (p : Pool) : Constants where
  strings := p.blob
  stringOffsets := p.offsets
  doubles := p.doubles.toList.flatMap fun bits => Bytes.le64 bits.toNat

end Armature.Asm
