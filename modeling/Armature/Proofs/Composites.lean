import Armature.Proofs.Expressions
import Armature.Proofs.Framing
import Armature.Proofs.PrintLoops
import Armature.Proofs.Tracking

/-!
# Printing composites

Arrays, tuples and dicts are printed part by part. What is printed is the text of the value that
the slots of the variable hold, and no slot of a variable changes.
-/

namespace Armature

open A64 (Machine)
open Asm (Code Image Label Line)

/-! ## Scratch slots -/

namespace Lowering

/-- The step gives no slot away twice, and scratch slots that are there stay. -/
def Grows {α : Type} (x : Lowering α) : Prop :=
  ∀ s a s', x s = .ok (a, s') → s.frame.Sound →
    s'.frame.Sound ∧ s.frame.scratch <+: s'.frame.scratch

theorem scribbling_grows : Scribbling fun _ x => x.Grows := by
  refine .ofStill ?_ ?_ ?_
  · intro α x hx s a s' h hs
    rw [hx s a s' h]
    exact ⟨hs, List.prefix_rfl⟩
  · intro α β x f hx hf s b s' h hs
    obtain ⟨a, s₁, h₁, h₂⟩ := (bind_ok _ _ _ _).mp h
    obtain ⟨hs₁, hprefix₁⟩ := hx s a s₁ h₁ hs
    obtain ⟨hs', hprefix⟩ := hf a ⟨s, s₁, h₁⟩ s₁ b s' h₂ hs₁
    exact ⟨hs', hprefix₁.trans hprefix⟩
  · intro count s slots s' h hs
    obtain ⟨frame, hslots, rfl⟩ := (take_ok _ _ _ _).mp h
    obtain ⟨hframe, hprefix, -⟩ := hs.scratchSlots_ok hslots
    exact ⟨hframe, hprefix⟩

end Lowering

/-- The scratch slots are in the frame, all different, and not among the cells. -/
structure Spare (scratch cells : List Slot) : Prop where
  lt : ∀ slot ∈ scratch, slot.index.toNat < 256
  free : ∀ slot ∈ scratch, slot ∉ cells
  nodup : scratch.Nodup

theorem Frame.Sound.spare {f : Frame} (hf : f.Sound) {name : String} {symbol : Symbol}
    (hs : f.lookup name = some symbol) : Spare f.scratch (symbol.shape.cells symbol.slot) := by
  obtain ⟨hidden, hapart⟩ := hf
  have hused : f.used ≤ 256 := hapart.used_le
  refine ⟨?_, ?_, (List.nodup_append.mp hapart.handed_nodup).2.1⟩
  · intro slot hslot
    have := hapart.handed_lt slot (List.mem_append_right _ hslot)
    omega
  · intro slot hslot hcell
    exact hapart.handed_free slot (List.mem_append_right _ hslot) name symbol hs
      (hapart.cells name symbol hs slot hcell)

namespace Spare

variable {scratch cells : List Slot}

theorem drop (h : Spare scratch cells) (n : Nat) : Spare (scratch.drop n) cells where
  lt slot hslot := h.lt slot (List.mem_of_mem_drop hslot)
  free slot hslot := h.free slot (List.mem_of_mem_drop hslot)
  nodup := (List.drop_sublist n scratch).nodup h.nodup

theorem counting {counter stop : Slot} (h : Spare (counter :: stop :: scratch) cells) :
    Process.Counting counter stop scratch := by
  obtain ⟨hlt, -, hnodup⟩ := h
  simp only [List.nodup_cons, List.mem_cons, not_or] at hnodup
  exact ⟨hlt counter (by simp), hlt stop (by simp), hnodup.1.1, hnodup.1.2, hnodup.2.1⟩

end Spare

/-- A print loop counts in two of the four scratch slots. -/
theorem Lowering.scratch_pair {s s' : Scope} {slots scratch : List Slot} {n : Nat}
    (h : take (·.scratchSlots 4) s = .ok (slots, s')) (hs : s.frame.Sound)
    (hscratch : s'.frame.scratch <+: scratch) (hn : n < 3) :
    ∃ rest, scratch.drop n =
      Lower.scratchSlot slots n :: Lower.scratchSlot slots (n + 1) :: rest := by
  obtain ⟨frame, hslots, rfl⟩ := (take_ok _ _ _ _).mp h
  obtain ⟨-, -, hlength, rfl⟩ := hs.scratchSlots_ok hslots
  obtain ⟨more, rfl⟩ := hscratch
  match frame.scratch, hlength, n, hn with
  | a :: b :: c :: d :: rest, _, 0, _ => exact ⟨_, rfl⟩
  | a :: b :: c :: d :: rest, _, 1, _ => exact ⟨_, rfl⟩
  | a :: b :: c :: d :: rest, _, 2, _ => exact ⟨_, rfl⟩

/-- Where the slots start that the loop over an array counts in. -/
def firstScratch (row : Option Slot) : Nat := if row.isSome then 2 else 0

/-- Prints one field of a dict, which has the number `i` in it. -/
def Lower.printField (f : Field) (i : Nat) : Lowering Code :=
  let before := opening "\x7b" i ++ "\"" ++ Escape.text f.key ++ "\": "
  match f.shape with
  | .scalar kind => pure (load kind f.slot :: printPart kind before "")
  | .array count element => printArray ⟨f.slot, count, element⟩ none before ""

theorem Lower.printFields_cons {f : Field} {i : Nat} {fields : List (Field × Nat)} {s s' : Scope}
    {c : Code} (h : printFields ((f, i) :: fields) s = .ok (c, s')) :
    ∃ code s₁ rest, printField f i s = .ok (code, s₁) ∧
      printFields fields s₁ = .ok (rest, s') ∧ c = code ++ rest := by
  unfold printField
  cases hshape : f.shape with
  | scalar | array =>
    simp only [printFields, hshape, Lowering.bind_ok, Lowering.pure_ok] at h
    obtain ⟨code, s₁, hcode, rest, _, hrest, rfl, rfl⟩ := h
    exact ⟨code, s₁, rest, by simpa only [Lowering.pure_ok] using hcode, hrest, rfl⟩

theorem Lowering.grows_printField {f : Field} {i : Nat} : (Lower.printField f i).Grows := by
  unfold Lower.printField
  cases f.shape with
  | scalar kind => exact scribbling_grows.pure _
  | array count element => exact scribbling_grows.printArray _ _ _ _

/-! ## Values that can be printed -/

namespace Value

/-- A leaf, or an array of leaves. -/
def Flat : Value → Prop
  | array items => ∀ v ∈ items, v.Leaf
  | v => v.Leaf

/-- A composite of leaves: an array that may have rows, a tuple, or a dict that may have arrays in
it. The length of an array is a number that a program can count to. -/
def Printable : Value → Prop
  | array items => items.length < 2 ^ 63 ∧ ∀ v ∈ items, v.Flat
  | tuple items => ∀ v ∈ items, v.Leaf
  | dict entries => ∀ entry ∈ entries, NulFree entry.1 ∧ entry.2.Flat
  | _ => False

theorem renderItems_eq (items : List Value) : renderItems items = items.map repr := by
  induction items with
  | nil => rfl
  | cons v rest ih => rw [renderItems, ih]; rfl

theorem repr_array (items : List Value) :
    (array items).repr = "[" ++ commaSeparated (items.map repr) ++ "]" := by
  rw [repr, render, renderItems_eq]

end Value

namespace Process

variable {image : Image} {env : Process image} {place : Label → Nat} {k base i : Nat}
  {m : Machine} {words : Slot → BitVec 64} {writes scratch cells : List Slot} {c : Code}
  {s s' : Scope} {v : Value} {before after : String}

/-! ## Arrays -/

/-- The number of the element in which printing starts. With a row, its number is in a slot. -/
def Starts (words : Slot → BitVec 64) (count first : Nat) : Option Slot → Prop
  | none => first = 0
  | some slot => slot.index.toNat < 256 ∧ ∃ r, words slot = BitVec.ofNat 64 r ∧ first = r * count

theorem Starts.congr {words' : Slot → BitVec 64} {count first : Nat} {row : Option Slot}
    (h : Starts words count first row) (hwords : ∀ slot ∈ row, words' slot = words slot) :
    Starts words' count first row := by
  cases row with
  | none => exact h
  | some slot =>
    simpa only [Starts, hwords slot rfl] using h

theorem Installed.addRowStart {row : Slot} {columns r d : Nat}
    (h : env.Installed place k (Lower.addRowStart row columns)) (hm : env.InFrame base m)
    (hrow : row.index.toNat < 256) (hx0 : m.get .x0 = BitVec.ofNat 64 i)
    (hr : m.slots base row = BitVec.ofNat 64 r) :
    env.Yields d k (k + Code.size (Lower.addRowStart row columns)) m
      (BitVec.ofNat 64 (r * columns + i)) m.output := by
  have hfree (n : BitVec 5) (hn : n.toNat < 19) := Machine.not_survives_of_lt d n hn
  simp only [Lower.addRowStart, List.cons_append, installed_cons, installed_append] at h
  obtain ⟨hload, hconstant, hmul, hadd, -⟩ := h
  refine (hload.loadX hm row hrow (by decide)).trans ?_
  rintro _ rfl
  refine (hconstant.constant .x2 _ (by decide)).trans ?_
  rintro _ rfl
  refine (hmul.instr trivial rfl).trans ?_
  rintro _ rfl
  refine ((hadd.instr trivial rfl).mono ?_).cast ?_
  · rintro _ rfl
    have hrow' : m.stack (base + row.distance) = BitVec.ofNat 64 r := hr
    simp (disch := decide) only [hrow', Machine.set_of_ne, Machine.get_put_self,
      Machine.get_put_of_ne, hx0]
    refine ⟨?_, ?_, rfl⟩
    · rw [BitVec.add_comm, ← BitVec.ofNat_mul, ← BitVec.ofNat_add]
    · exact (((Machine.quiet_put d m .x1 _ (hfree _ (by decide))).trans
        (Machine.quiet_put d _ .x2 _ (hfree _ (by decide)))).trans
        (Machine.quiet_put d _ .x1 _ (hfree _ (by decide)))).trans
        (Machine.quiet_put d _ .x0 _ (hfree _ (by decide)))
  · simp [Lower.addRowStart, Lower.loadX, Line.size, Line.body]
    omega

/-- The code that adds the number of the first element. -/
def rowStart (count : Nat) : Option Slot → Code
  | some row => Lower.addRowStart row count
  | none => []

theorem Installed.elementNumber {row : Option Slot} {counter : Slot} {count first d : Nat}
    (h : env.Installed place k (Lower.loadX .x0 counter :: rowStart count row))
    (hm : env.InFrame base m) (hcounter : counter.index.toNat < 256)
    (hi : m.slots base counter = BitVec.ofNat 64 i)
    (hfirst : Starts (m.slots base) count first row) :
    env.Yields d k (k + Code.size (Lower.loadX .x0 counter :: rowStart count row)) m
      (BitVec.ofNat 64 (first + i)) m.output := by
  rw [installed_cons] at h
  have hload := h.1.loadX hm counter hcounter (by decide)
  have hi : m.stack (base + counter.distance) = BitVec.ofNat 64 i := hi
  rw [hi] at hload
  cases row with
  | none =>
    obtain rfl : first = 0 := hfirst
    rw [Nat.zero_add]
    exact .of_put hload
  | some slot =>
    obtain ⟨hslot, r, hr, rfl⟩ := hfirst
    have hquiet := Machine.quiet_put d m .x0 (BitVec.ofNat 64 i)
      (Machine.not_survives_of_lt d _ (by decide))
    refine (Yields.after (Q := (· = m.put .x0 (BitVec.ofNat 64 i))) (hload.mono ?_) ?_)
    · rintro _ rfl
      exact ⟨rfl, hquiet, rfl⟩
    · rintro _ rfl
      rw [Code.size_cons, ← Nat.add_assoc]
      exact h.2.addRowStart (hm.quiet hquiet) hslot (m.get_put_self .x0 _ (by decide)) hr

theorem printsRound_element {view : Lower.ArrayView} {row : Option Slot} {counter stop : Slot}
    {skip : Label} {first : Nat} (hslots : Counting counter stop writes)
    (hfirst : Starts words view.count first row)
    (hrow : ∀ slot ∈ row, slot ∉ counter :: stop :: writes)
    (hlt : ∀ cell ∈ view.base.run (first + view.count), cell.index.toNat < 256)
    (hi : i < view.count) (hcell : view.base.nth (first + i) ∉ counter :: stop :: writes)
    (hholds : env.Encodes view.element (words (view.base.nth (first + i))) v) (hv : v.Leaf) :
    env.PrintsRound place base words writes counter stop
      (Lower.separator counter skip ++ Lower.loadX .x0 counter :: rowStart view.count row
        ++ Lower.loadAt view.element view.base ++ Lower.printPart view.element "" "") i v.repr := by
  intro words' hwords' hagree
  have hlast := (Slot.index_nth hlt (Nat.add_lt_add_left hi first)).2
  have hkind : view.element ≠ .float := hholds.ne_float hv
  have hempty : v.repr = "" ++ v.repr ++ "" := by
    rw [String.empty_append, String.append_empty]
  rw [List.append_assoc (Lower.separator counter skip),
    List.append_assoc (Lower.separator counter skip), hempty]
  refine (prints_separator hslots.counter_lt hslots.counter_free (by omega) hwords').append
    (prints_part ?_ hholds hv (by decide) (by decide))
  intro k m hk hm hwords
  have hsame (slot : Slot) (hslot : slot ∉ counter :: stop :: writes) :
      m.slots base slot = words slot := by
    rw [hwords slot fun hmem => hslot (by simp [hmem]), hagree slot hslot]
  rw [installed_append] at hk
  have hnumber := hk.1.elementNumber (d := 9) hm hslots.counter_lt
    ((hwords counter hslots.counter_free).trans hwords')
    (hfirst.congr fun slot hslot => hsame slot (hrow slot hslot))
  have hload := hnumber.loadAt hk.2 hkind hm rfl hlt (Nat.add_lt_add_left hi first)
  rw [hsame _ hcell, Nat.add_assoc, ← Code.size_append] at hload
  exact hload

theorem array_prints {view : Lower.ArrayView} {row : Option Slot} {first : Nat}
    (hspare : Spare scratch cells) (h : Lower.printArray view row before after s = .ok (c, s'))
    (hs : s.frame.Sound) (hscratch : s'.frame.scratch <+: scratch)
    (hfirst : Starts words view.count first row)
    (hrow : ∀ slot ∈ row, slot ∉ scratch.drop (firstScratch row))
    (hcells : ∀ cell ∈ (view.base.nth first).run view.count, cell ∈ cells)
    (hlt : ∀ cell ∈ view.base.run (first + view.count), cell.index.toNat < 256)
    (hholds : env.HoldsRow words (view.base.nth first) view.count view.element v) (hv : v.Flat)
    (hbefore : NulFree before) (hafter : NulFree after) :
    env.Prints place base words (scratch.drop (firstScratch row)) c
      (before ++ v.repr ++ after) := by
  cases v with
  | array items =>
    obtain ⟨hlength, hitems⟩ := hholds
    unfold Lower.printArray at h
    split at h
    · rename_i hzero
      rw [Lowering.pure_ok] at h
      obtain ⟨rfl, -⟩ := h
      have hnil : items = [] := List.eq_nil_of_length_eq_zero (hlength.trans hzero)
      subst hnil
      exact prints_text ((hbefore.append (by decide)).append hafter)
    · simp only [Lowering.bind_ok, Lowering.pure_ok] at h
      obtain ⟨slots, s₁, htake, loop, s₂, hloop, rfl, rfl⟩ := h
      obtain ⟨body, top, exit, -, -, hbody, rfl⟩ := Lower.countedLoop_ok _ _ _ _ _ _ hloop
      simp only [Lowering.bind_ok, Lowering.pure_ok] at hbody
      obtain ⟨_, _, hseparator, rfl, rfl⟩ := hbody
      obtain ⟨skip, labels, rfl, rfl⟩ := Lower.printSeparator_ok hseparator
      have hspare' := hspare.drop (firstScratch row)
      obtain ⟨rest, hdrop⟩ := Lowering.scratch_pair (n := firstScratch row) htake hs hscratch
        (by unfold firstScratch; split <;> decide)
      rw [hdrop] at hspare' hrow ⊢
      have htext : before ++ (Value.array items).repr ++ after =
          (before ++ "[") ++ Value.commaSeparated (items.map Value.repr) ++ ("]" ++ after) := by
        simp only [Value.repr_array, String.append_assoc]
      rw [htext, List.append_assoc (Lower.printText _)]
      refine ((prints_text (hbefore.append (by decide))).append ?_).append
        (prints_text (.append (by decide) hafter))
      have hcount : (items.map Value.repr).length = view.count := by rw [List.length_map, hlength]
      -- an array that is not empty has all its elements in the frame
      have hall : view.count < 2 ^ 63 := by
        have hlast : first + (view.count - 1) < first + view.count := by omega
        have := (Slot.index_nth hlt hlast).2
        omega
      refine prints_loop hspare'.counting hcount hall fun i text hi => ?_
      rw [List.getElem?_map, Option.map_eq_some_iff] at hi
      obtain ⟨item, hitem, rfl⟩ := hi
      have hi : i < view.count := hlength ▸ (List.getElem?_eq_some_iff.mp hitem).1
      have hcell := hcells _ (Slot.nth_mem_run hi)
      have hheld := hitems i item hitem
      rw [Slot.nth_nth] at hcell hheld
      exact printsRound_element hspare'.counting hfirst hrow hlt hi
        (fun hmem => hspare'.free _ hmem hcell) hheld (hv item (List.mem_of_getElem? hitem))
  | _ => exact hholds.elim

/-- The loop over the rows of an array has another loop as its body, which counts in other slots. -/
theorem rows_print {layout : ArrayLayout} {columns : Nat} {rows : List Value}
    (hspare : Spare scratch (layout.base.run (layout.count * columns)))
    (h : Lower.printRows layout columns s = .ok (c, s')) (hs : s.frame.Sound)
    (hscratch : s'.frame.scratch <+: scratch)
    (hlt : ∀ cell ∈ layout.base.run (layout.count * columns), cell.index.toNat < 256)
    (hlength : rows.length = layout.count) (hcount : layout.count < 2 ^ 63)
    (hrows : ∀ (r : Nat) row, rows[r]? = some row →
      env.HoldsRow words (layout.base.nth (r * columns)) columns layout.element row)
    (hflat : ∀ row ∈ rows, row.Flat) :
    env.Prints place base words scratch c ((Value.array rows).repr ++ "\n") := by
  unfold Lower.printRows at h
  split at h
  · rename_i hzero
    rw [Lowering.pure_ok] at h
    obtain ⟨rfl, -⟩ := h
    have hnil : rows = [] := List.eq_nil_of_length_eq_zero (hlength.trans hzero)
    subst hnil
    exact prints_text (by decide)
  · simp only [Lowering.bind_ok, Lowering.pure_ok] at h
    obtain ⟨slots, s₁, htake, loop, s₂, hloop, rfl, rfl⟩ := h
    obtain ⟨body, top, exit, -, -, hbody, rfl⟩ := Lower.countedLoop_ok _ _ _ _ _ _ hloop
    simp only [Lowering.bind_ok, Lowering.pure_ok] at hbody
    obtain ⟨_, _, hseparator, inner, _, hinner, rfl, rfl⟩ := hbody
    obtain ⟨skip, labels, rfl, rfl⟩ := Lower.printSeparator_ok hseparator
    have hs₁ : s₁.frame.Sound := (Lowering.scribbling_grows.scratch 4 _ _ _ htake hs).1
    have hgrown := (Lowering.scribbling_grows.printArray _ _ _ _ _ _ _ hinner hs₁).2
    obtain ⟨rest, hdrop⟩ := Lowering.scratch_pair (n := 0) htake hs (hgrown.trans hscratch)
      (by decide)
    rw [List.drop_zero] at hdrop
    subst hdrop
    have htext : (Value.array rows).repr ++ "\n" =
        "[" ++ Value.commaSeparated (rows.map Value.repr) ++ "]\n" := by
      rw [Value.repr_array, String.append_assoc]
      rfl
    rw [htext, List.append_assoc (Lower.printText _)]
    refine ((prints_text (by decide)).append ?_).append (prints_text (by decide))
    have hcount' : (rows.map Value.repr).length = layout.count := by rw [List.length_map, hlength]
    refine prints_loop hspare.counting hcount' hcount fun r text hr => ?_
    rw [List.getElem?_map, Option.map_eq_some_iff] at hr
    obtain ⟨row, hrow, rfl⟩ := hr
    intro words' hwords' hagree
    have hlast : r < layout.count := hlength ▸ (List.getElem?_eq_some_iff.mp hrow).1
    have hsub : r * columns + columns ≤ layout.count * columns := by
      rw [← Nat.succ_mul]
      exact Nat.mul_le_mul_right _ hlast
    refine (prints_separator hspare.counting.counter_lt hspare.counting.counter_free (by omega)
      hwords').append ?_
    have hcells (cell : Slot) (hcell : cell ∈ (layout.base.nth (r * columns)).run columns) :
        cell ∈ layout.base.run (layout.count * columns) :=
      layout.base.nth_run_subset hsub hcell
    have hlt' (cell : Slot) (hcell : cell ∈ layout.base.run (r * columns + columns)) :
        cell.index.toNat < 256 :=
      hlt cell (layout.base.run_subset hsub hcell)
    have hheld : env.HoldsRow words' (layout.base.nth (r * columns)) columns layout.element row :=
      (hrows r row hrow).congr fun cell hcell =>
        hagree cell fun hmem => hspare.free cell hmem (hcells cell hcell)
    have hstarts : Starts words' columns (r * columns) (some (Lower.scratchSlot slots 0)) :=
      ⟨hspare.counting.counter_lt, r, hwords', rfl⟩
    -- the inner loop counts in the slots that come after those of the outer one
    have hrowFree (slot : Slot) (hslot : slot ∈ some (Lower.scratchSlot slots 0)) :
        slot ∉ rest := by
      obtain rfl := Option.some.inj hslot
      exact hspare.counting.counter_free
    have harray : env.Prints place base words'
        (List.drop (firstScratch (some (Lower.scratchSlot slots 0)))
          (Lower.scratchSlot slots 0 :: Lower.scratchSlot slots (0 + 1) :: rest))
        inner ("" ++ row.repr ++ "") :=
      array_prints hspare hinner hs₁ hscratch hstarts hrowFree hcells hlt' hheld
        (hflat row (List.mem_of_getElem? hrow)) (by decide) (by decide)
    rwa [String.empty_append, String.append_empty] at harray

theorem flat_prints {view : Lower.ArrayView} (hspare : Spare scratch cells)
    (h : Lower.printArray view none before after s = .ok (c, s')) (hs : s.frame.Sound)
    (hscratch : s'.frame.scratch <+: scratch)
    (hcells : ∀ cell ∈ view.base.run view.count, cell ∈ cells)
    (hlt : ∀ cell ∈ cells, cell.index.toNat < 256)
    (hholds : env.HoldsRow words view.base view.count view.element v) (hv : v.Flat)
    (hbefore : NulFree before) (hafter : NulFree after) :
    env.Prints place base words scratch c (before ++ v.repr ++ after) := by
  rw [← Slot.nth_zero view.base] at hcells hholds
  have hlt' : ∀ cell ∈ view.base.run (0 + view.count), cell.index.toNat < 256 := by
    rw [Nat.zero_add, ← Slot.nth_zero view.base]
    exact fun cell hcell => hlt cell (hcells cell hcell)
  exact array_prints hspare h hs hscratch rfl (by simp) hcells hlt' hholds hv hbefore hafter

/-! ## Tuples and dicts -/

theorem elements_print {elements : List (Slot × Scalar)} {items : List Value} {total : Nat}
    (hlt : ∀ cell ∈ elements.map (·.1), cell.index.toNat < 256)
    (hfree : ∀ cell ∈ elements.map (·.1), cell ∉ writes)
    (hholds : env.HoldsTuple words elements items) (hv : ∀ v ∈ items, v.Leaf)
    (hne : elements ≠ []) (htotal : i + elements.length = total) :
    env.Prints place base words writes
      ((elements.zipIdx i).flatMap fun ((slot, kind), i) =>
        Lower.load kind slot :: Lower.printPart kind (Lower.opening "(" i)
          (if i + 1 = total then ")\n" else ""))
      (Lower.opened "(" i (items.map Value.repr) ++ ")\n") := by
  induction elements generalizing i items with
  | nil => exact absurd rfl hne
  | cons element elements ih =>
    obtain ⟨slot, kind⟩ := element
    cases items with
    | nil => exact hholds.elim
    | cons v items =>
      rw [List.map_cons, List.forall_mem_cons] at hlt hfree
      rw [List.forall_mem_cons] at hv
      rw [List.zipIdx_cons, List.flatMap_cons, List.map_cons, Lower.opened]
      have hpart (after : String) (hafter : NulFree after) :
          env.Prints place base words writes
            (Lower.load kind slot :: Lower.printPart kind (Lower.opening "(" i) after)
            (Lower.opening "(" i ++ v.repr ++ after) :=
        prints_load hlt.1 hfree.1 hholds.1 hv.1 (Lower.nulFree_opening (by decide) i) hafter
      rw [List.length_cons] at htotal
      cases elements with
      | nil =>
        cases items with
        | nil =>
          have hlast : i + 1 = total := htotal
          simpa [hlast, Lower.opened] using hpart ")\n" (by decide)
        | cons => exact hholds.2.elim
      | cons next elements =>
        rw [List.length_cons] at htotal
        have hmore : i + 1 ≠ total := by omega
        have htotal' : i + 1 + (next :: elements).length = total := by
          rw [List.length_cons]
          omega
        have hrest := ih hlt.2 hfree.2 hholds.2 hv.2 (List.cons_ne_nil _ _) htotal'
        have hall := (hpart "" (by decide)).append hrest
        rw [String.append_empty, ← String.append_assoc] at hall
        simpa only [if_neg hmore] using hall

theorem tuple_prints {elements : List (Slot × Scalar)} {items : List Value}
    (hlt : ∀ cell ∈ elements.map (·.1), cell.index.toNat < 256)
    (hfree : ∀ cell ∈ elements.map (·.1), cell ∉ writes)
    (hholds : env.HoldsTuple words elements items) (hv : ∀ v ∈ items, v.Leaf) :
    env.Prints place base words writes (Lower.printTuple elements)
      ((Value.tuple items).text ++ "\n") := by
  unfold Lower.printTuple
  cases elements with
  | nil =>
    cases items with
    | nil => exact prints_text (by decide)
    | cons => exact hholds.elim
  | cons element elements =>
    cases items with
    | nil => exact hholds.elim
    | cons v items =>
      have htext : (Value.tuple (v :: items)).text ++ "\n" =
          Lower.opened "(" 0 ((v :: items).map Value.repr) ++ ")\n" := by
        rw [List.map_cons, Lower.opened_zero, ← List.map_cons, ← Value.renderItems_eq, Value.text,
          Value.render, String.append_assoc]
        rfl
      rw [htext]
      exact elements_print hlt hfree hholds hv (List.cons_ne_nil _ _) (Nat.zero_add _)

theorem Encodes.leaf {kind : Scalar} {w : BitVec 64} (h : env.Encodes kind w v) (hv : v.Flat) :
    v.Leaf := by
  cases v with
  | array => cases kind <;> exact h.elim
  | _ => exact hv

theorem field_prints {f : Field} {key : String} (hspare : Spare scratch cells)
    (h : Lower.printField f i s = .ok (c, s')) (hs : s.frame.Sound)
    (hscratch : s'.frame.scratch <+: scratch)
    (hcells : ∀ cell ∈ f.slot.run f.shape.span, cell ∈ cells)
    (hlt : ∀ cell ∈ cells, cell.index.toNat < 256) (hkey : key = Escape.text f.key)
    (hholds : env.HoldsField words f v) (hv : NulFree key ∧ v.Flat) :
    env.Prints place base words scratch c
      (Lower.opening "\x7b" i ++ (Value.quote key ++ ": " ++ v.repr)) := by
  subst hkey
  have hbefore : NulFree (Lower.opening "\x7b" i ++ "\"" ++ Escape.text f.key ++ "\": ") :=
    (((Lower.nulFree_opening (by decide) i).append (by decide)).append hv.1).append (by decide)
  have htext : Lower.opening "\x7b" i ++ (Value.quote (Escape.text f.key) ++ ": " ++ v.repr) =
      Lower.opening "\x7b" i ++ "\"" ++ Escape.text f.key ++ "\": " ++ v.repr ++ "" := by
    have hcolon : "\": " = "\"" ++ ": " := rfl
    simp only [Value.quote, hcolon, String.append_assoc, String.append_empty]
  rw [htext]
  obtain ⟨key, slot, shape⟩ := f
  cases shape with
  | scalar kind =>
    obtain ⟨rfl, rfl⟩ := (Lowering.pure_ok _ _ _ _).mp h
    have hslot := hcells (slot.nth 0) (Slot.nth_mem_run Nat.one_pos)
    rw [Slot.nth_zero] at hslot
    have hholds : env.Encodes kind (words slot) v := hholds
    exact prints_load (hlt slot hslot) (fun hmem => hspare.free slot hmem hslot) hholds
      (hholds.leaf hv.2) hbefore (by decide)
  | array count kind =>
    exact flat_prints hspare h hs hscratch hcells hlt hholds hv.2 hbefore (by decide)

theorem fields_print {fields : List Field} {entries : List (String × Value)}
    (hspare : Spare scratch cells)
    (h : Lower.printFields (fields.zipIdx i) s = .ok (c, s'))
    (hs : s.frame.Sound) (hscratch : s'.frame.scratch <+: scratch)
    (hcells : ∀ cell ∈ fields.flatMap fun f => f.slot.run f.shape.span, cell ∈ cells)
    (hlt : ∀ cell ∈ cells, cell.index.toNat < 256)
    (hholds : env.HoldsFields words fields entries)
    (hv : ∀ entry ∈ entries, NulFree entry.1 ∧ entry.2.Flat) :
    env.Prints place base words scratch c
      (Lower.opened "\x7b" i (Value.renderFields entries) ++ "\x7d\n") := by
  induction fields generalizing i c s entries with
  | nil =>
    cases entries with
    | nil =>
      rw [List.zipIdx_nil, Lower.printFields, Lowering.pure_ok] at h
      obtain ⟨rfl, -⟩ := h
      exact prints_text (by decide)
    | cons => exact hholds.elim
  | cons f fields ih =>
    cases entries with
    | nil => exact hholds.elim
    | cons entry entries =>
      obtain ⟨key, v⟩ := entry
      rw [List.zipIdx_cons] at h
      rw [List.flatMap_cons, List.forall_mem_append] at hcells
      rw [List.forall_mem_cons] at hv
      obtain ⟨code, s₁, rest, hcode, hrest, rfl⟩ := Lower.printFields_cons h
      obtain ⟨hs₁, -⟩ := Lowering.grows_printField _ _ _ hcode hs
      have hgrown := (Lowering.scribbling_grows.printFields _ _ _ _ hrest hs₁).2
      rw [Value.renderFields, Lower.opened, String.append_assoc]
      exact (field_prints hspare hcode hs (hgrown.trans hscratch) hcells.1 hlt hholds.1 hholds.2.1
        hv.1).append (ih hrest hs₁ hcells.2 hholds.2.2 hv.2)

theorem dict_prints {fields : List Field} {entries : List (String × Value)}
    (hspare : Spare scratch cells) (h : Lower.printDict fields s = .ok (c, s'))
    (hs : s.frame.Sound) (hscratch : s'.frame.scratch <+: scratch)
    (hcells : ∀ cell ∈ fields.flatMap fun f => f.slot.run f.shape.span, cell ∈ cells)
    (hlt : ∀ cell ∈ cells, cell.index.toNat < 256)
    (hholds : env.HoldsFields words fields entries)
    (hv : ∀ entry ∈ entries, NulFree entry.1 ∧ entry.2.Flat) :
    env.Prints place base words scratch c ((Value.dict entries).text ++ "\n") := by
  cases fields with
  | nil =>
    cases entries with
    | nil =>
      obtain ⟨rfl, -⟩ := (Lowering.pure_ok _ _ _ _).mp h
      exact prints_text (by decide)
    | cons => exact hholds.elim
  | cons f fields =>
    cases entries with
    | nil => exact hholds.elim
    | cons entry entries =>
      obtain ⟨key, v⟩ := entry
      have htext : (Value.dict ((key, v) :: entries)).text ++ "\n" =
          Lower.opened "\x7b" 0 (Value.renderFields ((key, v) :: entries)) ++ "\x7d\n" := by
        rw [Value.text, Value.render, Value.renderFields, Lower.opened_zero, String.append_assoc]
        rfl
      rw [htext]
      exact fields_print hspare h hs hscratch hcells hlt hholds hv

/-! ## Variables -/

theorem Encodes.not_printable {kind : Scalar} {w : BitVec 64} (h : env.Encodes kind w v) :
    ¬ v.Printable := by
  cases v with
  | array | tuple | dict => cases kind <;> exact h.elim
  | _ => exact not_false

theorem HoldsRow.flat {first : Slot} {count : Nat} {kind : Scalar}
    (h : env.HoldsRow words first count kind v) (hv : v.Printable) : v.Flat := by
  cases v with
  | array items =>
    intro item hitem
    obtain ⟨i, hi⟩ := List.getElem?_of_mem hitem
    exact (h.2 i item hi).leaf (hv.2 item hitem)
  | _ => exact h.elim

theorem variable_prints {name : String} {symbol : Symbol} {place : Label → Nat} {base : Nat}
    (h : Lower.print (.var name) s = .ok (c, s')) (hs : s.frame.Sound)
    (hsymbol : s.frame.lookup name = some symbol) (hv : v.Printable)
    (hholds : env.Holds words symbol.slot symbol.shape v) :
    env.Prints place base words s'.frame.scratch c (v.text ++ "\n") := by
  have hs' : s'.frame.Sound := (Lowering.scribbling_grows.print _ _ _ _ h hs).1
  have hsymbol' : s'.frame.lookup name = some symbol := by
    unfold Frame.lookup at *
    rw [(Lower.tacit_print _ _ _ _ h).1]
    exact hsymbol
  have hspare := hs'.spare hsymbol'
  have hlt : ∀ cell ∈ symbol.shape.cells symbol.slot, cell.index.toNat < 256 := by
    obtain ⟨hidden, hapart⟩ := hs
    exact hapart.cell_lt hsymbol
  have hshape : s.shape? name = some (symbol.slot, symbol.shape) := by
    simp [Scope.shape?, hsymbol]
  simp only [Lower.print, Lower.printVariable, Lowering.bind_ok, Lowering.get_ok] at h
  obtain ⟨_, _, ⟨rfl, rfl⟩, h⟩ := h
  simp only [hshape] at h
  generalize symbol.shape = shape at *
  cases shape with
  | scalar | enumCase => exact (Encodes.not_printable hholds hv).elim
  | array layout =>
    obtain ⟨first, count, kind, inner⟩ := layout
    cases inner with
    | none =>
      have hcells : ∀ cell ∈ first.run count, cell ∈ (Shape.array ⟨first, count, kind, none⟩).cells
          symbol.slot := by
        simp [Shape.cells]
      have hprints : env.Prints place base words s'.frame.scratch c ("" ++ v.repr ++ "\n") :=
        flat_prints hspare h hs List.prefix_rfl hcells hlt hholds (HoldsRow.flat hholds hv)
          (by decide) (by decide)
      rw [String.empty_append] at hprints
      cases v with
      | array items => exact hprints
      | _ => exact hholds.elim
    | some columns =>
      cases v with
      | array rows =>
        exact rows_print hspare h hs List.prefix_rfl hlt hholds.1 (hholds.1 ▸ hv.1) hholds.2 hv.2
      | _ => exact hholds.elim
  | tuple elements =>
    obtain ⟨rfl, rfl⟩ := (Lowering.pure_ok _ _ _ _).mp h
    cases v with
    | tuple items =>
      exact tuple_prints hlt (fun cell hcell hmem => hspare.free cell hmem hcell) hholds hv
    | _ => exact hholds.elim
  | dict fields =>
    cases v with
    | dict entries =>
      exact dict_prints hspare h hs List.prefix_rfl (fun _ hcell => hcell) hlt hholds hv
    | _ => exact hholds.elim

end Process

open Process in
/-- A composite of integers, booleans and strings is printed as its text and a newline, whatever the
rest of the memory holds. The code comes to its end, and in the frame it changes only the scratch
slots of print loops. -/
theorem composite_printed {image : Image} {place : Label → Nat} {before c after : Code}
    (hbuilt : image.Built place (before ++ c ++ after)) (env : Process image)
    {scope scope' : Scope} {name : String} {symbol : Symbol}
    (hprint : Lower.print (.var name) scope = .ok (c, scope')) (hframe : scope.frame.Sound)
    (hsymbol : scope.frame.lookup name = some symbol) {v : Value} (hv : v.Printable) {base : Nat}
    {m : Machine} (hm : env.InFrame base m) (hsp : m.sp.toNat = base)
    (hholds : env.Holds (m.slots base) symbol.slot symbol.shape v) :
    env.Leads (env.pc before.size) m (env.pc (before ++ c).size)
      (Wrote base scope'.frame.scratch m (v.text ++ "\n")) := by
  have hinstalled := env.installed_of_built _ place hbuilt
  rw [installed_append, installed_append, Nat.zero_add] at hinstalled
  rw [Code.size_append]
  exact variable_prints hprint hframe hsymbol hv hholds _ m hinstalled.1.2 hm hsp fun _ _ => rfl

def itemScope : Scope :=
  ⟨⟨(Frame.History.after [.place "item" 3 fun base => .dict
    [⟨"id", base, .scalar .int⟩, ⟨"tags", base.nth 1, .array 2 .string⟩]]).frame, false, ⟨0⟩⟩, [], [],
    .empty⟩

def item : Value := .dict [("id", .int 7), ("tags", .array [.str "50%", .str "new"])]

/-- Lines that put the strings of the item among the constants. -/
def itemTexts : Code :=
  [.entry, .address .x0 (Bytes.ofText "50%"), .address .x0 (Bytes.ofText "new")]

theorem item_sound : itemScope.frame.Sound := by
  refine ⟨_, (Frame.History.apart_after _ ?_).frame⟩
  intro op hop
  obtain rfl := List.mem_singleton.mp hop
  intro base
  simp [Shape.cells, FieldShape.span, Slot.run, List.range_succ, Slot.nth_nth, Slot.nth_zero]

theorem item_printable : item.Printable := by
  simp only [item, Value.Printable, Value.Flat, Value.Leaf, List.mem_cons, List.not_mem_nil,
    or_false, forall_eq_or_imp, forall_eq, and_true]
  decide

open Process in
theorem item_held {image : Image} {env : Process image} {words : Slot → BitVec 64}
    (h₀ : words ⟨0⟩ = 7) (h₁ : env.StringAt (words ⟨1⟩) (Bytes.ofText "50%"))
    (h₂ : env.StringAt (words ⟨2⟩) (Bytes.ofText "new")) :
    env.Holds words ⟨0⟩ (.dict [⟨"id", ⟨0⟩, .scalar .int⟩, ⟨"tags", ⟨1⟩, .array 2 .string⟩])
      item := by
  have hid : "id" = Escape.text "id" := by decide +kernel
  have htags : "tags" = Escape.text "tags" := by decide +kernel
  exact ⟨hid, h₀, htags, HoldsRow.cons h₁ (.cons h₂ holdsRow_nil), trivial⟩

theorem item_printed : ∃ c scope', Lower.print (.var "item") itemScope = .ok (c, scope') ∧
    ∃ (image : Image) (place : Label → Nat) (env : Process image) (base : Nat) (m : Machine),
      image.Built place (itemTexts ++ c ++ []) ∧ env.InFrame base m ∧ m.output = [] ∧
      env.Leads (env.pc itemTexts.size) m (env.pc (itemTexts ++ c).size) fun m' =>
        m'.output = Bytes.ofText "\x7b\"id\": 7, \"tags\": [\"50%\", \"new\"]\x7d\n" ∧
        m'.slots base ⟨0⟩ = 7 := by
  obtain ⟨⟨c, scope'⟩, hprint, hscratch, hlabelled, hsmall⟩ : ∃ lowered,
      Lower.print (.var "item") itemScope = .ok lowered ∧
        lowered.2.frame.scratch = [⟨3⟩, ⟨4⟩, ⟨5⟩, ⟨6⟩] ∧
        Asm.Listing.Labelled ⟨lowered.2.labels, itemTexts ++ lowered.1 ++ []⟩ ∧
        Code.Small (itemTexts ++ lowered.1 ++ []) :=
    exists_ok (by decide +kernel)
  obtain ⟨image, place, hbuilt⟩ := hlabelled.exists_built hsmall.1
  obtain ⟨env, base, -, hframe⟩ := Process.exists_frame hbuilt hsmall
  have hinterns := (env.installed_of_built _ place hbuilt).interns
  obtain ⟨a₁, h₁⟩ := hinterns .x0 (Bytes.ofText "50%") (by simp [itemTexts])
  obtain ⟨a₂, h₂⟩ := hinterns .x0 (Bytes.ofText "new") (by simp [itemTexts])
  obtain ⟨m, hm, hsp, hout, hslots⟩ :=
    hframe fun o => if o = 64 then 7 else if o = 72 then a₁ else a₂
  have hid : m.slots base ⟨0⟩ = 7 := hslots ⟨0⟩
  have hfirst : m.slots base ⟨1⟩ = a₁ := hslots ⟨1⟩
  have hsecond : m.slots base ⟨2⟩ = a₂ := hslots ⟨2⟩
  have hholds := item_held hid (hfirst ▸ h₁) (hsecond ▸ h₂)
  have hsymbol : itemScope.frame.lookup "item" = some ⟨⟨0⟩, 3, .dict [⟨"id", ⟨0⟩, .scalar .int⟩,
    ⟨"tags", ⟨1⟩, .array 2 .string⟩]⟩ := rfl
  refine ⟨c, scope', hprint, image, place, env, base, m, hbuilt, hm, hout, ?_⟩
  refine (composite_printed hbuilt env hprint item_sound hsymbol item_printable hm hsp
    hholds).mono fun m' hm' => ?_
  have htext : item.text ++ "\n" = "\x7b\"id\": 7, \"tags\": [\"50%\", \"new\"]\x7d\n" := by
    decide +kernel
  refine ⟨?_, (hm'.slots (by rw [hscratch]; decide)).trans hid⟩
  rw [hm'.output, hout, htext]
  rfl

end Armature
