import Armature.Proofs.Emitted

/-!
# The functions of a program

A name stands for its last definition, and the functions are numbered in the order in which their
names are first defined.
-/

namespace Armature

/-! ## Bindings -/

namespace Bindings

variable {α β : Type}

theorem get?_map (g : α → β) (b : Bindings α) (name : String) :
    get? (b.map fun e => (e.1, g e.2)) name = (b.get? name).map g := by
  induction b with
  | nil => rfl
  | cons e rest ih =>
    simp only [List.map_cons, get?, ih]
    split <;> rfl

theorem map_set (g : α → β) (b : Bindings α) (name : String) (a : α) :
    (b.set name a).map (fun e => (e.1, g e.2)) = set (b.map fun e => (e.1, g e.2)) name (g a) := by
  induction b with
  | nil => rfl
  | cons e rest ih =>
    simp only [List.map_cons, set]
    split
    · rfl
    · rw [List.map_cons, ih]

theorem mem_of_get? (b : Bindings α) (name : String) (a : α)
    (h : b.get? name = some a) : (name, a) ∈ b := by
  induction b with
  | nil => cases h
  | cons e rest ih =>
    simp only [get?] at h
    split at h
    · rename_i heq
      cases h
      rw [← heq]
      exact List.mem_cons_self
    · exact List.mem_cons_of_mem _ (ih h)

theorem get?_of_nodup {b : Bindings α} {name : String} {a : α} (hnodup : (b.map (·.1)).Nodup)
    (h : (name, a) ∈ b) : b.get? name = some a := by
  induction b with
  | nil => cases h
  | cons e rest ih =>
    rw [List.map_cons, List.nodup_cons] at hnodup
    rcases List.mem_cons.mp h with rfl | h
    · simp [get?]
    · have hne : e.1 ≠ name := by
        rintro rfl
        exact hnodup.1 (List.mem_map_of_mem (f := (·.1)) h)
      rw [get?, if_neg hne, ih hnodup.2 h]

theorem set_of_none (b : Bindings α) (name : String) (a : α) (h : b.get? name = none) :
    b.set name a = b ++ [(name, a)] := by
  induction b with
  | nil => rfl
  | cons e rest ih =>
    simp only [get?] at h
    split at h
    · cases h
    · rename_i hne
      rw [set, if_neg hne, ih h]
      rfl

theorem map_set_of_some (g : String × α → β) (b : Bindings α) (name : String) (a a' : α)
    (h : b.get? name = some a) (hg : g (name, a') = g (name, a)) :
    (b.set name a').map g = b.map g := by
  induction b with
  | nil => cases h
  | cons e rest ih =>
    simp only [get?] at h
    split at h
    · rename_i heq
      cases h
      rw [set, if_pos heq, List.map_cons, List.map_cons, heq, hg, ← heq]
    · rename_i hne
      rw [set, if_neg hne, List.map_cons, List.map_cons, ih h]

theorem mem_names (b : Bindings α) (name : String) :
    name ∈ b.map (·.1) ↔ ∃ a, b.get? name = some a := by
  induction b with
  | nil => simp
  | cons e rest ih =>
    rw [List.map_cons, List.mem_cons, ih, get?]
    split
    · rename_i heq
      simp [heq]
    · rename_i hne
      rw [or_iff_right (fun h => hne h.symm)]

theorem setAll_append (b : Bindings α) (xs ys : List (String × α)) :
    b.setAll (xs ++ ys) = (b.setAll xs).setAll ys := by
  simp [setAll]

theorem setAll_cons (b : Bindings α) (e : String × α) (xs : List (String × α)) :
    b.setAll (e :: xs) = (b.set e.1 e.2).setAll xs := rfl

theorem get?_setAll (b : Bindings α) (xs : List (String × α)) (name : String) :
    (b.setAll xs).get? name = (get? xs.reverse name).or (b.get? name) := by
  induction xs generalizing b with
  | nil => rfl
  | cons e rest ih =>
    have hreverse (ys : List (String × α)) :
        get? (ys ++ [e]) name = (get? ys name).or (if e.1 = name then some e.2 else none) := by
      induction ys with
      | nil => rfl
      | cons y ys ih =>
        simp only [List.cons_append, get?, ih]
        split <;> rfl
    rw [setAll_cons, ih, List.reverse_cons, hreverse, Option.or_assoc]
    congr 1
    by_cases h : e.1 = name
    · rw [if_pos h, h, get?_set_self]
      rfl
    · rw [if_neg h, get?_set_of_ne _ _ h]
      rfl

theorem mem_of_get?_setAll {b : Bindings α} {xs : List (String × α)} {name : String} {a : α}
    (h : (b.setAll xs).get? name = some a) : (name, a) ∈ xs ∨ b.get? name = some a := by
  rw [get?_setAll, Option.or_eq_some_iff] at h
  rcases h with h | ⟨-, h⟩
  · exact .inl (List.mem_reverse.mp (mem_of_get? _ _ _ h))
  · exact .inr h

theorem names_set (b : Bindings α) (name : String) (a : α) :
    (b.set name a).map (·.1) = if name ∈ b.map (·.1) then b.map (·.1) else b.map (·.1) ++ [name] := by
  cases h : b.get? name with
  | none =>
    have hnot : name ∉ b.map (·.1) := by
      rw [mem_names, h]
      simp
    rw [if_neg hnot, set_of_none b name a h, List.map_append]
    rfl
  | some old =>
    have hmem : name ∈ b.map (·.1) := (mem_names b name).mpr ⟨old, h⟩
    rw [if_pos hmem, map_set_of_some (·.1) b name old a h rfl]

theorem names_setAll_from (b : Bindings α) (xs : List (String × α))
    (hb : (b.map (·.1)).eraseDups = b.map (·.1)) :
    (setAll b xs).map (·.1) = (b.map (·.1) ++ xs.map (·.1)).eraseDups := by
  induction xs generalizing b with
  | nil => simpa [setAll] using hb.symm
  | cons e rest ih =>
    have hnames := names_set b e.1 e.2
    rw [setAll_cons]
    split at hnames
    · rename_i hmem
      rw [ih _ (by rw [hnames, hb]), hnames, List.eraseDups_append, List.eraseDups_append,
        List.map_cons]
      congr 2
      simp only [List.removeAll, List.filter_cons]
      simp [List.mem_map.mp hmem]
    · rename_i hnot
      have hnodup : (b.map (·.1) ++ [e.1]).eraseDups = b.map (·.1) ++ [e.1] := by
        rw [List.eraseDups_append, hb]
        simp only [List.removeAll, List.filter_cons, List.filter_nil]
        simp [List.eraseDups_cons, hnot]
      rw [ih _ (by rw [hnames, hnodup]), hnames, List.append_assoc, List.map_cons]
      rfl

theorem nodup_setAll (b : Bindings α) (xs : List (String × α)) (h : (b.map (·.1)).Nodup) :
    ((b.setAll xs).map (·.1)).Nodup := by
  induction xs generalizing b with
  | nil => exact h
  | cons e rest ih =>
    rw [setAll_cons]
    apply ih
    rw [names_set]
    split
    · exact h
    · rename_i hnot
      rw [List.nodup_append]
      refine ⟨h, by simp, ?_⟩
      rintro name hname _ hmem rfl
      rw [List.mem_singleton] at hmem
      exact hnot (hmem ▸ hname)

theorem names_setAll (xs : List (String × α)) :
    (setAll [] xs).map (·.1) = (xs.map (·.1)).eraseDups := by
  rw [names_setAll_from [] xs rfl]
  rfl

end Bindings

/-! ## Definitions -/

/-- The function that a statement defines. -/
def Stmt.definition? : Stmt → Option (String × Function)
  | func name params body => some (name, ⟨params, body⟩)
  | _ => none

namespace Program

def definitions (p : Program) : List (String × Function) := p.statements.filterMap Stmt.definition?

/-- The names of functions, in the order in which they are first defined. -/
def functionNames (p : Program) : List String := (p.definitions.map (·.1)).eraseDups

/-- The last definition of a name. -/
def function? (p : Program) (name : String) : Option Function :=
  Bindings.get? p.definitions.reverse name

/-- The statements outside functions. -/
def mainStatements (p : Program) : List Stmt := p.statements.filter fun s => !Lower.isFunction s

theorem functionNames_nodup (p : Program) : p.functionNames.Nodup := by
  unfold functionNames
  rw [← Bindings.names_setAll]
  exact Bindings.nodup_setAll [] p.definitions (by simp)

end Program

namespace Lower.Declared

open Asm (Label LabelTable Line)

/-- What is known of the declarations of a program when its functions are `definitions`. -/
structure Describes (d : Declared) (definitions : List (String × Function)) : Prop where
  functions : d.functions.map (fun e => (e.1, e.2.2)) = Bindings.setAll [] definitions
  entries : d.functions.map (·.2.1) = (List.range d.functions.length).map Label.mk
  size : d.labels.entries.size = d.functions.length
  grown : LabelTable.empty.Grown d.labels
  code : ∀ l ∈ d.code, ∃ bytes, l = .reserve bytes

theorem describes_none : none.Describes [] where
  functions := rfl
  entries := rfl
  size := rfl
  grown := .refl _
  code := by
    intro l hl
    cases hl

theorem Describes.function {d : Declared} {definitions : List (String × Function)}
    (h : d.Describes definitions) (name : String) (f : Function) :
    (d.function name f).Describes (definitions ++ [(name, f)]) := by
  have hfunctions (label : Label) :
      (d.functions.set name (label, f)).map (fun e => (e.1, e.2.2)) =
        Bindings.setAll [] (definitions ++ [(name, f)]) := by
    rw [Bindings.map_set, h.functions, Bindings.setAll_append]
    rfl
  unfold Declared.function
  split
  · rename_i label g hg
    have hlength := congrArg List.length
      (Bindings.map_set_of_some (·.2.1) d.functions name (label, g) (label, f) hg rfl)
    simp only [List.length_map] at hlength
    refine ⟨hfunctions label, ?_, ?_, h.grown, h.code⟩
    · rw [Bindings.map_set_of_some (·.2.1) d.functions name (label, g) (label, f) hg rfl, h.entries,
        hlength]
    · rw [hlength, h.size]
  · rename_i hg
    have hset : d.functions.set name (⟨d.labels.entries.size⟩, f) =
        d.functions ++ [(name, ⟨d.labels.entries.size⟩, f)] :=
      Bindings.set_of_none _ _ _ hg
    refine ⟨hfunctions _, ?_, ?_, h.grown.trans (d.labels.grown_create _), h.code⟩
    · simp only [LabelTable.create, hset]
      rw [List.map_append, h.entries, List.length_append, List.length_singleton, List.range_succ,
        List.map_append, h.size]
      rfl
    · simp only [LabelTable.create, hset]
      simp [h.size]

theorem Describes.stmt {d d' : Declared} {definitions : List (String × Function)}
    (h : d.Describes definitions) (st : Stmt) (hst : d.stmt st = .ok d') :
    d'.Describes (definitions ++ st.definition?.toList) := by
  cases st with
  | func name params body =>
    simp only [Declared.stmt] at hst
    split at hst
    · cases hst
    · cases hst
      exact h.function name ⟨params, body⟩
  | enum name cases =>
    cases hst
    simp only [Stmt.definition?, Option.toList_none, List.append_nil]
    refine ⟨h.functions, h.entries, h.size, h.grown, ?_⟩
    intro l hl
    rcases List.mem_append.mp hl with hl | hl
    · exact h.code l hl
    · obtain ⟨case, -, rfl⟩ := List.mem_map.mp hl
      exact ⟨_, rfl⟩
  | _ =>
    cases hst
    simpa [Stmt.definition?] using h

theorem Describes.foldlM {d d' : Declared} {definitions : List (String × Function)}
    (h : d.Describes definitions) (statements : List Stmt)
    (hs : statements.foldlM Declared.stmt d = .ok d') :
    d'.Describes (definitions ++ statements.filterMap Stmt.definition?) := by
  induction statements generalizing d definitions with
  | nil =>
    cases hs
    simpa using h
  | cons st rest ih =>
    rw [List.foldlM_cons, bind_eq_ok] at hs
    obtain ⟨d₁, hd₁, hs⟩ := hs
    have := ih (h.stmt st hd₁) hs
    rw [List.append_assoc] at this
    cases hdef : st.definition? <;> simpa [hdef] using this

theorem ofStatements_describes (p : Program) (d : Declared)
    (h : ofStatements p.statements = .ok d) : d.Describes p.definitions :=
  describes_none.foldlM p.statements h

variable {d : Declared} {p : Program}

theorem Describes.names (h : d.Describes p.definitions) :
    d.functions.map (·.1) = p.functionNames := by
  have := congrArg (List.map (·.1)) h.functions
  rw [Bindings.names_setAll, List.map_map] at this
  exact this

theorem Describes.get? (h : d.Describes p.definitions) (name : String) :
    (d.functions.get? name).map (·.2) = p.function? name := by
  have := congrArg (Bindings.get? · name) h.functions
  rw [Bindings.get?_map, Bindings.get?_setAll, Bindings.get?_nil, Option.or_none] at this
  exact this

end Lower.Declared

end Armature
