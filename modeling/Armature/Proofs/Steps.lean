import Armature.Proofs.Checks

/-!
# What print statements are made of

Lowering a print statement takes scratch slots, and does nothing else to the scope than adding
labels. It fails only because of the program. A property that all such steps have, and steps one
after the other, is one of all print statements.
-/

namespace Armature

namespace Lowering

variable {α : Type}

/-- The step may add labels, and leaves the rest of the scope as it is. -/
def Still (x : Lowering α) : Prop :=
  ∀ s a s', x s = .ok (a, s') → s' = { s with labels := s'.labels }

theorem still_pure (a : α) : (pure a : Lowering α).Still := by
  intro s b s' h
  obtain ⟨-, rfl⟩ := (pure_ok _ _ _ _).mp h
  rfl

theorem still_get : (get : Lowering Scope).Still := by
  intro s a s' h
  obtain ⟨-, rfl⟩ := (get_ok _ _ _).mp h
  rfl

theorem still_fail (e : LowerError) : (fail e : Lowering α).Still := by
  intro s a s' h
  cases h

theorem still_value (e : Expr) : (value e).Still := by
  intro s c s' h
  obtain ⟨-, rfl⟩ := (value_ok _ _ _ _).mp h
  rfl

theorem still_newLabel (purpose : Asm.Purpose) : (newLabel purpose).Still := by
  intro s label s' h
  obtain ⟨-, rfl⟩ := (newLabel_ok _ _ _ _).mp h
  rfl

/-- The step can end with the value. -/
def Gives (x : Lowering α) (a : α) : Prop := ∃ s s', x s = .ok (a, s')

/-- The property holds of all steps that print statements are made of. -/
structure Scribbling (Q : ∀ α : Type, Lowering α → Prop) : Prop where
  pure {α : Type} (a : α) : Q α (Pure.pure a)
  scope : Q Scope get
  expr (e : Expr) : Q Lower.ValueCode (value e)
  label (purpose : Asm.Purpose) : Q Asm.Label (newLabel purpose)
  fail {α : Type} {e : LowerError} : (∀ defect, e ≠ .internal defect) → Q α (fail e)
  seq {α β : Type} {x : Lowering α} {f : α → Lowering β} :
    Q α x → (∀ a, x.Gives a → Q β (f a)) → Q β (x >>= f)
  scratch (count : Nat) : Q (List Slot) (take (·.scratchSlots count))

theorem Scribbling.ofStill {Q : ∀ α : Type, Lowering α → Prop}
    (still : ∀ {α : Type} {x : Lowering α}, x.Still → Q α x)
    (seq : ∀ {α β : Type} {x : Lowering α} {f : α → Lowering β},
      Q α x → (∀ a, x.Gives a → Q β (f a)) → Q β (x >>= f))
    (scratch : ∀ count, Q (List Slot) (take (·.scratchSlots count))) : Scribbling Q where
  pure a := still (still_pure a)
  scope := still still_get
  expr e := still (still_value e)
  label purpose := still (still_newLabel purpose)
  fail _ := still (still_fail _)
  seq := seq
  scratch := scratch

end Lowering

namespace Lowering.Scribbling

open Asm (Code)
open Lower

variable {Q : ∀ α : Type, Lowering α → Prop} (hQ : Scribbling Q)

include hQ

theorem bind {α β : Type} {x : Lowering α} {f : α → Lowering β} (hx : Q α x)
    (hf : ∀ a, Q β (f a)) : Q β (x >>= f) :=
  hQ.seq hx fun a _ => hf a

theorem value {α : Type} (e : Expr) {f : ValueCode → Lowering α} (hf : ∀ c, Q α (f c)) :
    Q α (Lowering.value e >>= f) :=
  hQ.bind (hQ.expr e) hf

theorem get {α : Type} {f : Scope → Lowering α} (hf : ∀ s, Q α (f s)) :
    Q α ((MonadState.get : Lowering Scope) >>= f) :=
  hQ.bind hQ.scope hf

theorem newLabel {α : Type} (purpose : Asm.Purpose) {f : Asm.Label → Lowering α}
    (hf : ∀ label, Q α (f label)) : Q α (Lowering.newLabel purpose >>= f) :=
  hQ.bind (hQ.label purpose) hf

theorem refuse {α : Type} (c : Construct) : Q α (Lowering.refuse c) :=
  hQ.fail fun _ h => by cases h

theorem countedLoop (counter stop : Slot) {body : Lowering Code} (h : Q Code body) :
    Q Code (countedLoop counter stop body) :=
  hQ.newLabel _ fun _ => hQ.newLabel _ fun _ => hQ.bind h fun _ => hQ.pure _

theorem printSeparator (counter : Slot) : Q Code (printSeparator counter) :=
  hQ.newLabel _ fun _ => hQ.pure _

theorem printArray (view : ArrayView) (row : Option Slot) (before after : String) :
    Q Code (printArray view row before after) := by
  unfold Lower.printArray
  split
  · exact hQ.pure _
  · refine hQ.bind (hQ.scratch 4) fun slots => hQ.bind (hQ.countedLoop _ _ ?_) fun _ => hQ.pure _
    exact hQ.bind (hQ.printSeparator _) fun _ => hQ.pure _

theorem printRows (layout : ArrayLayout) (columns : Nat) : Q Code (printRows layout columns) := by
  unfold Lower.printRows
  split
  · exact hQ.pure _
  · refine hQ.bind (hQ.scratch 4) fun slots => hQ.bind (hQ.countedLoop _ _ ?_) fun _ => hQ.pure _
    exact hQ.bind (hQ.printSeparator _) fun _ => hQ.bind (hQ.printArray _ _ _ _) fun _ => hQ.pure _

theorem printRow (layout : ArrayLayout) (columns : Nat) (position : Expr) :
    Q Code (printRow layout columns position) := by
  refine hQ.value position fun value => ?_
  split
  · rename_i e he
    exact hQ.fail ((faultless_indexCode value).ne_internal he)
  · exact hQ.bind (hQ.scratch 5) fun _ => hQ.bind (hQ.printArray _ _ _ _) fun _ => hQ.pure _

theorem printFields (fields : List (Field × Nat)) : Q Code (printFields fields) := by
  induction fields with
  | nil => exact hQ.pure _
  | cons entry rest ih =>
    obtain ⟨f, i⟩ := entry
    rw [Lower.printFields]
    split
    · exact hQ.bind (hQ.pure _) fun _ => hQ.bind ih fun _ => hQ.pure _
    · exact hQ.bind (hQ.printArray _ _ _ _) fun _ => hQ.bind ih fun _ => hQ.pure _

theorem printInterpolation (parts : List Part) : Q Code (printInterpolation parts) := by
  unfold Lower.printInterpolation
  split
  · exact hQ.fail fun _ h => by cases h
  · refine hQ.get fun s => ?_
    split
    · exact hQ.refuse _
    · exact hQ.pure _

theorem printValue (e : Expr) : Q Code (printValue e) := hQ.value e fun _ => hQ.pure _

theorem printComposite {shape : Shape} (h : shape.scalar? = none) :
    Q Code (printComposite shape) := by
  cases shape with
  | array layout =>
    rw [Lower.printComposite]
    split
    · exact hQ.printArray _ _ _ _
    · exact hQ.printRows _ _
  | tuple elements => exact hQ.pure _
  | dict fields =>
    rw [Lower.printComposite, printDict]
    split
    · exact hQ.pure _
    · exact hQ.printFields _
  | scalar | enumCase => cases h

theorem printVariable (name : String) : Q Code (printVariable name) := by
  refine hQ.get fun s => ?_
  split
  · split
    · exact hQ.pure _
    · rename_i h
      exact hQ.printComposite h
  · split
    · exact hQ.pure _
    · exact hQ.refuse _

theorem printElement (name : String) (position : Expr) : Q Code (printElement name position) := by
  refine hQ.get fun s => ?_
  split
  · rename_i e he
    exact hQ.fail ((faultless_arrayView s name position).ne_internal he)
  · exact hQ.printArray _ _ _ _
  · split
    · split
      · exact hQ.printRow _ _ _
      · exact hQ.printValue _
    · exact hQ.printValue _

theorem print (e : Expr) : Q Code (print e) := by
  unfold Lower.print
  split
  · exact hQ.printInterpolation _
  · exact hQ.printVariable _
  · exact hQ.printElement _ _
  · exact hQ.printValue _

end Lowering.Scribbling

end Armature
