import Armature.Proofs.Assembled
import Armature.Proofs.Straight

/-!
# Labels of lowered statements

Lowering a statement creates labels and marks each of them once. Every branch goes to one of these
labels, but not to its own place, or to the end of the function.
-/

namespace Armature

open Asm (Code Label LabelTable Line)

/-! ## Label tables that grow -/

/-- Labels without places have been added. -/
structure Asm.LabelTable.Grown (t t' : LabelTable) : Prop where
  fixups : t'.fixups = t.fixups
  le : t.entries.size ≤ t'.entries.size
  old : ∀ i < t.entries.size, t'.entries[i]? = t.entries[i]?
  new : ∀ i entry, t.entries.size ≤ i → t'.entries[i]? = some entry → entry.offset = none

namespace Asm.LabelTable

theorem Grown.refl (t : LabelTable) : t.Grown t where
  fixups := rfl
  le := Nat.le_refl _
  old := fun _ _ => rfl
  new := by
    intro i entry hi h
    rw [Array.getElem?_eq_none hi] at h
    cases h

theorem Grown.trans {t u v : LabelTable} (h : t.Grown u) (h' : u.Grown v) : t.Grown v where
  fixups := by rw [h'.fixups, h.fixups]
  le := Nat.le_trans h.le h'.le
  old := by
    intro i hi
    rw [h'.old i (Nat.lt_of_lt_of_le hi h.le), h.old i hi]
  new := by
    intro i entry hi hentry
    by_cases hlt : i < u.entries.size
    · rw [h'.old i hlt] at hentry
      exact h.new i entry hi hentry
    · exact h'.new i entry (Nat.le_of_not_lt hlt) hentry

theorem grown_create (t : LabelTable) (purpose : Asm.Purpose) : t.Grown (t.create purpose).2 where
  fixups := rfl
  le := by simp [create]
  old := by
    intro i hi
    simp [create, Array.getElem?_push_lt hi]
  new := by
    intro i entry hi hentry
    simp only [create, Array.getElem?_push] at hentry
    split at hentry
    · cases hentry
      rfl
    · rw [Array.getElem?_eq_none hi] at hentry
      cases hentry

@[simp] theorem size_create (t : LabelTable) (purpose : Asm.Purpose) :
    (t.create purpose).2.entries.size = t.entries.size + 1 := by
  simp [create]

end Asm.LabelTable

/-! ## Branches inside a code -/

namespace Asm.Code

/-- Every branch of the code, calls apart, goes to another place in the code, or to one of the
labels outside. -/
def Closed (outside : List Label) (c : Code) : Prop :=
  ∀ k q l label, (q, l) ∈ located k c → l.jumpTarget? = some label →
    (∃ r, (r, .mark label) ∈ located k c ∧ r ≠ q) ∨ label ∈ outside

theorem Closed.append {outside : List Label} {c d : Code} (hc : c.Closed outside)
    (hd : d.Closed outside) : Closed outside (c ++ d) := by
  intro k q l label hmem hl
  rw [located_append, List.mem_append] at hmem
  simp only [located_append, List.mem_append]
  rcases hmem with hmem | hmem
  · rcases hc k q l label hmem hl with ⟨r, hr, hne⟩ | hout
    · exact .inl ⟨r, .inl hr, hne⟩
    · exact .inr hout
  · rcases hd _ q l label hmem hl with ⟨r, hr, hne⟩ | hout
    · exact .inl ⟨r, .inr hr, hne⟩
    · exact .inr hout

theorem Closed.mono {outside outside' : List Label} {c : Code} (hc : c.Closed outside)
    (h : ∀ label ∈ outside, label ∈ outside') : Closed outside' c := by
  intro k q l label hmem hl
  rcases hc k q l label hmem hl with hr | hout
  · exact .inl hr
  · exact .inr (h label hout)

theorem closed_of_linear (outside : List Label) (c : Code) (h : c.all Line.linear = true) :
    c.Closed outside := by
  intro k q l label hmem hl
  have hlinear := List.all_eq_true.mp h l (mem_of_mem_located k c q l hmem)
  cases l with
  | jump | jumpIf | jumpIfZero => cases hlinear
  | _ => cases hl

theorem closed_branch (l : Line) (label : Label) (outside : List Label)
    (hl : l.jumpTarget? = some label) : Closed (label :: outside) [l] := by
  intro k q l' label' hmem hl'
  simp only [located_cons, located_nil, List.mem_singleton, Prod.mk.injEq] at hmem
  rw [hmem.2, hl] at hl'
  cases hl'
  exact .inr List.mem_cons_self

/-- A label that is marked further on is no longer outside. -/
theorem Closed.forward {outside : List Label} {c d : Code} {label : Label}
    (hc : c.Closed (label :: outside)) (hd : d.Closed outside) (hmark : .mark label ∈ d) :
    Closed outside (c ++ d) := by
  intro k q l label' hmem hl
  rw [located_append, List.mem_append] at hmem
  simp only [located_append, List.mem_append]
  rcases hmem with hmem | hmem
  · rcases hc k q l label' hmem hl with ⟨r, hr, hne⟩ | hout
    · exact .inl ⟨r, .inl hr, hne⟩
    · rcases List.mem_cons.mp hout with rfl | hout
      · obtain ⟨r, hr⟩ := exists_mem_located (k + size c) d _ hmark
        have hq := mem_located k c q l hmem
        have hsize : l.size = 1 := l.size_of_target label' (by simp [Line.target?, hl])
        have hr' := mem_located _ d r _ hr
        exact .inl ⟨r, .inr hr, by omega⟩
      · exact .inr hout
  · rcases hd _ q l label' hmem hl with ⟨r, hr, hne⟩ | hout
    · exact .inl ⟨r, .inr hr, hne⟩
    · exact .inr hout

/-- A label that is marked before, with an instruction after it, is no longer outside. -/
theorem Closed.backward {outside : List Label} {c : Code} {label : Label} (i : A64.Instr)
    (hc : c.Closed (label :: outside)) : Closed outside (.mark label :: .instr i :: c) := by
  intro k q l label' hmem hl
  simp only [located_cons, List.mem_cons, Prod.mk.injEq] at hmem ⊢
  rcases hmem with ⟨-, rfl⟩ | ⟨-, rfl⟩ | hmem
  · cases hl
  · cases hl
  · have hq := mem_located _ c q l hmem
    rcases hc _ q l label' hmem hl with ⟨r, hr, hne⟩ | hout
    · exact .inl ⟨r, .inr (.inr hr), hne⟩
    · rcases List.mem_cons.mp hout with rfl | hout
      · refine .inl ⟨k, .inl ⟨rfl, rfl⟩, ?_⟩
        simp only [Line.size, Line.body, List.length_nil, List.length_singleton] at hq
        omega
      · exact .inr hout

/-- One for a number from `lo` up to `hi`, and zero for others. -/
def between (lo hi id : Nat) : Nat := if lo ≤ id ∧ id < hi then 1 else 0

theorem between_self (lo id : Nat) : between lo lo id = 0 := by
  unfold between
  rw [if_neg (by omega)]

theorem between_add (lo mid hi id : Nat) (h : lo ≤ mid) (h' : mid ≤ hi) :
    between lo mid id + between mid hi id = between lo hi id := by
  unfold between
  split <;> split <;> split <;> omega

theorem count_mark (n id : Nat) :
    (marks [.mark ⟨n⟩]).count ⟨id⟩ = between n (n + 1) id := by
  simp only [marks, Line.label?, List.filterMap_cons, List.filterMap_nil, between]
  by_cases h : n = id
  · subst h
    simp
  · rw [if_neg (by omega), List.count_eq_zero]
    simp [eq_comm, h]

theorem marks_of_linear (c : Code) (h : c.all Line.linear = true) : marks c = [] := by
  rw [marks, List.filterMap_eq_nil_iff]
  intro l hl
  have hlinear := List.all_eq_true.mp h l hl
  cases l with
  | mark => cases hlinear
  | _ => rfl

end Asm.Code

/-- The line has no branch that was written as an instruction, and execution does not start
there. -/
def Asm.Line.tame : Line → Bool
  | instr i => i.displacement?.isNone
  | entry => false
  | _ => true

theorem Asm.Code.tame_of_linear (c : Code) (h : c.all Line.linear = true) :
    c.all Line.tame = true := by
  rw [List.all_eq_true] at h ⊢
  intro l hl
  have := h l hl
  cases l with
  | instr => exact this
  | entry => cases this
  | _ => rfl

namespace Lower

/-! ## Statements -/

/-- The code that lowering adds between two scopes. -/
structure Emits (s : Scope) (names : List String) (c : Code) (s' : Scope) : Prop where
  functions : s'.functions = s.functions
  ending : (s'.inFunction, s'.done) = (s.inFunction, s.done)
  grown : s.labels.Grown s'.labels
  once : ∀ id, (Code.marks c).count ⟨id⟩ =
    Code.between s.labels.entries.size s'.labels.entries.size id
  closed : c.Closed s.returnTo.toList
  tame : c.all Line.tame = true
  calls : (Code.calls c).map some = names.map s.entryOf

theorem entryOf_congr {s s' : Scope} (h : s'.functions = s.functions) : s'.entryOf = s.entryOf := by
  funext name
  rw [Scope.entryOf, h, Scope.entryOf]

theorem Emits.returnTo {s s' : Scope} {names : List String} {c : Code} (h : Emits s names c s') :
    s'.returnTo = s.returnTo :=
  congrArg (fun ending : Bool × Label => if ending.1 then some ending.2 else none) h.ending

theorem Emits.append {s s₁ s₂ : Scope} {m n : List String} {c d : Code} (hc : Emits s m c s₁)
    (hd : Emits s₁ n d s₂) : Emits s (m ++ n) (c ++ d) s₂ where
  functions := by rw [hd.functions, hc.functions]
  ending := hd.ending.trans hc.ending
  grown := hc.grown.trans hd.grown
  once := by
    intro id
    rw [Code.marks_append, List.count_append, hc.once, hd.once,
      Code.between_add _ _ _ _ hc.grown.le hd.grown.le]
  closed := hc.closed.append (by rw [← hc.returnTo]; exact hd.closed)
  tame := by rw [List.all_append, hc.tame, hd.tame]; rfl
  calls := by rw [Code.calls_append, List.map_append, List.map_append, hc.calls, hd.calls,
    entryOf_congr hc.functions]

theorem Straight.emits {s s' : Scope} {names : List String} {c : Code} (h : Straight s names c)
    (hf : s'.functions = s.functions) (hr : (s'.inFunction, s'.done) = (s.inFunction, s.done))
    (hl : s'.labels = s.labels) : Emits s names c s' where
  functions := hf
  ending := hr
  grown := by rw [hl]; exact .refl _
  once := by
    intro id
    rw [Code.marks_of_linear c h.linear, hl, Code.between_self]
    rfl
  closed := Code.closed_of_linear _ c h.linear
  tame := Code.tame_of_linear c h.linear
  calls := h.calls

theorem emits_plain (s : Scope) (c : Code) (h : c.all Line.plain = true) : Emits s [] c s :=
  (straight_of_plain s c h).emits rfl rfl rfl

theorem Emits.plainAfter {s s' : Scope} {names : List String} {c d : Code}
    (hc : Emits s names c s') (hd : d.all Line.plain = true) : Emits s names (c ++ d) s' := by
  have := hc.append (emits_plain s' d hd)
  rwa [List.append_nil] at this

theorem Emits.plainBefore {s s' : Scope} {names : List String} {c d : Code}
    (hc : c.all Line.plain = true) (hd : Emits s names d s') : Emits s names (c ++ d) s' :=
  (emits_plain s c hc).append hd

theorem Emits.ofFrame {s s' : Scope} {names : List String} {c : Code} {frame : Frame}
    (h : Emits { s with frame } names c s') : Emits s names c s' :=
  ⟨h.functions, h.ending, h.grown, h.once, h.closed, h.tame, h.calls⟩

end Lower

end Armature
