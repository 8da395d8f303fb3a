import Armature.Proofs.Computing
import Armature.Proofs.Kinds

/-!
# Values in memory

A frame in memory reflects a state if the slots of every variable hold its value, as the shape of
the variable says.
-/

namespace Armature

open A64 (Machine)
open Asm (Code Image Label)

/-- The keys of a dict are different texts, and not only written in different ways. -/
def Shape.KeysDiffer : Shape → Prop
  | dict fields => (fields.map (Escape.text ·.key)).Nodup
  | _ => True

/-- The parts of an image of the code are not too large. -/
def Asm.Code.Small (c : Code) : Prop :=
  c.size ≤ 2 ^ 16 ∧ c.pool.freeze.strings.length ≤ 2 ^ 16 ∧
    c.pool.freeze.doubles.length ≤ 2 ^ 16

instance (c : Code) : Decidable c.Small := inferInstanceAs (Decidable (_ ∧ _ ∧ _))

/-- What the slots of the frame at `base` hold. -/
def A64.Machine.slots (m : Machine) (base : Nat) (slot : Slot) : BitVec 64 :=
  m.stack (base + slot.distance)

namespace Process

variable {image : Image}

section

variable (env : Process image) (words : Slot → BitVec 64)

/-- An array of so many values, all of one kind, is in the slots from `first` on. -/
def HoldsRow (first : Slot) (count : Nat) (kind : Scalar) : Value → Prop
  | .array items =>
    items.length = count ∧
      ∀ (i : Nat) v, items[i]? = some v → env.Encodes kind (words (first.nth i)) v
  | _ => False

def HoldsTuple : List (Slot × Scalar) → List Value → Prop
  | [], [] => True
  | (slot, kind) :: elements, v :: items =>
    env.Encodes kind (words slot) v ∧ HoldsTuple elements items
  | _, _ => False

def HoldsField (f : Field) (v : Value) : Prop :=
  match f.shape with
  | .scalar kind => env.Encodes kind (words f.slot) v
  | .array count kind => env.HoldsRow words f.slot count kind v

/-- The keys of the entries are those of the fields, with their escapes expanded. -/
def HoldsFields : List Field → List (String × Value) → Prop
  | [], [] => True
  | f :: fields, (key, v) :: entries =>
    key = Escape.text f.key ∧ env.HoldsField words f v ∧ HoldsFields fields entries
  | _, _ => False

/-- The slots of a variable hold the value. The first that the variable owns is `slot`. -/
def Holds (slot : Slot) : Shape → Value → Prop
  | .scalar kind, v => env.Encodes kind (words slot) v
  | .enumCase _, v => env.Encodes .string (words slot) v
  | .array ⟨base, count, kind, none⟩, v => env.HoldsRow words base count kind v
  | .array ⟨base, count, kind, some columns⟩, .array rows =>
    rows.length = count ∧ ∀ (r : Nat) row, rows[r]? = some row →
      env.HoldsRow words (base.nth (r * columns)) columns kind row
  | .tuple elements, .tuple items => env.HoldsTuple words elements items
  | .dict fields, .dict entries => env.HoldsFields words fields entries
  | _, _ => False

/-- Every variable of the state has a symbol whose slots hold its value, and the enums are those of
the scope. -/
structure Reflects (scope : Scope) (s : State) : Prop where
  locals : ∀ name v, s.locals.get? name = some v →
    ∃ symbol, scope.frame.lookup name = some symbol ∧ symbol.shape.KeysDiffer ∧
      env.Holds words symbol.slot symbol.shape v
  enums : ∀ name, scope.enums.get? name = s.enums.get? name

end

end Process

/-- A variable that has a slot and no value does not have the name of an enum. -/
def Scope.Unshadowed (scope : Scope) (s : State) : Prop :=
  ∀ name symbol, scope.frame.lookup name = some symbol → s.locals.get? name = none →
    s.enums.get? name = none

theorem A64.Machine.Quiet.slots {depth base : Nat} {m m' : Machine} (h : m.Quiet depth m')
    (hbase : m.sp.toNat ≤ base) : m'.slots base = m.slots base := by
  funext slot
  exact h.stack _ (by omega)

theorem A64.Machine.slots_store_self (m : Machine) (base : Nat) (slot : Slot) (x : BitVec 64) :
    (m.store (base + slot.distance) x).slots base slot = x :=
  if_pos rfl

theorem A64.Machine.slots_store_of_ne (m : Machine) (base : Nat) {slot other : Slot}
    (x : BitVec 64) (h : other ≠ slot) :
    (m.store (base + slot.distance) x).slots base other = m.slots base other := by
  have := Slot.distance_ne h
  exact if_neg (by omega)

namespace Process

variable {image : Image} {env : Process image} {words words' : Slot → BitVec 64} {slot : Slot}

theorem Pushed.slots {depth base : Nat} {m m' : Machine} {v : BitVec 64}
    (h : Pushed depth m v m') (hbase : m.sp.toNat ≤ base) : m'.slots base = m.slots base := by
  funext slot
  exact h.stack _ (by omega)

/-! ## Reading -/

theorem holds_scalar {shape : Shape} {kind : Scalar} {v : Value}
    (hkind : shape.scalar? = some kind) :
    env.Holds words slot shape v ↔ env.Encodes kind (words slot) v := by
  cases shape with
  | scalar | enumCase =>
    cases hkind
    exact Iff.rfl
  | _ => cases hkind

theorem holdsRow_nil {first : Slot} {kind : Scalar} :
    env.HoldsRow words first 0 kind (.array []) :=
  ⟨rfl, fun _ _ hv => by cases hv⟩

theorem HoldsRow.cons {first : Slot} {count : Nat} {kind : Scalar} {v : Value} {items : List Value}
    (hv : env.Encodes kind (words first) v)
    (h : env.HoldsRow words (first.nth 1) count kind (.array items)) :
    env.HoldsRow words first (count + 1) kind (.array (v :: items)) := by
  refine ⟨congrArg (· + 1) h.1, fun i w hw => ?_⟩
  cases i with
  | zero =>
    cases hw
    rw [Slot.nth_zero]
    exact hv
  | succ i =>
    have hrest := h.2 i w hw
    rwa [Slot.nth_nth, Nat.add_comm] at hrest

theorem HoldsRow.at? {first : Slot} {count : Nat} {kind : Scalar} {a p v : Value}
    (h : env.HoldsRow words first count kind a) (hat : Value.at? a p = .ok v) :
    ∃ i : Int64, p = .int i ∧ 0 ≤ i.toInt ∧ i.toInt.toNat < count ∧
      env.Encodes kind (words (first.nth i.toInt.toNat)) v := by
  cases a with
  | array items =>
    cases p with
    | int i =>
      obtain ⟨hnonneg, hitem⟩ := Value.itemAt_ok hat
      have hlt := (List.getElem?_eq_some_iff.mp hitem).1
      exact ⟨i, rfl, hnonneg, by rw [← h.1]; exact hlt, h.2 _ v hitem⟩
    | _ => cases hat
  | _ => exact h.elim

theorem Holds.row {base : Slot} {count columns : Nat} {kind : Scalar} {a p row : Value}
    (h : env.Holds words slot (.array ⟨base, count, kind, some columns⟩) a)
    (hat : Value.at? a p = .ok row) :
    ∃ i : Int64, p = .int i ∧ 0 ≤ i.toInt ∧ i.toInt.toNat < count ∧
      env.HoldsRow words (base.nth (i.toInt.toNat * columns)) columns kind row := by
  cases a with
  | array rows =>
    cases p with
    | int i =>
      obtain ⟨hnonneg, hitem⟩ := Value.itemAt_ok hat
      have hlt := (List.getElem?_eq_some_iff.mp hitem).1
      exact ⟨i, rfl, hnonneg, by rw [← h.1]; exact hlt, h.2 _ row hitem⟩
    | _ => cases hat
  | _ => exact h.elim

theorem HoldsTuple.getElem? {elements : List (Slot × Scalar)} {items : List Value}
    (h : env.HoldsTuple words elements items) {i : Nat} {kind : Scalar} {v : Value}
    (helement : elements[i]? = some (slot, kind)) (hv : items[i]? = some v) :
    env.Encodes kind (words slot) v := by
  induction elements generalizing i items with
  | nil => cases helement
  | cons first elements ih =>
    cases items with
    | nil => cases hv
    | cons w items =>
      cases i with
      | zero =>
        cases helement
        cases hv
        exact h.1
      | succ i => exact ih h.2 (by simpa using helement) (by simpa using hv)

theorem Holds.tupleElement {elements : List (Slot × Scalar)} {a v : Value} {i : Int64}
    {kind : Scalar} {first : Slot} (h : env.Holds words first (.tuple elements) a)
    (helement : elements[i.toInt.toNat]? = some (slot, kind))
    (hat : Value.at? a (.int i) = .ok v) : env.Encodes kind (words slot) v := by
  cases a with
  | tuple items => exact HoldsTuple.getElem? h helement (Value.itemAt_ok hat).2
  | _ => exact h.elim

theorem HoldsFields.get? {fields : List Field} {entries : List (String × Value)}
    (h : env.HoldsFields words fields entries)
    (hkeys : (fields.map (Escape.text ·.key)).Nodup) {f : Field} (hf : f ∈ fields) {v : Value}
    (hv : Bindings.get? entries (Escape.text f.key) = some v) : env.HoldsField words f v := by
  induction fields generalizing entries with
  | nil => cases hf
  | cons g fields ih =>
    cases entries with
    | nil => cases hv
    | cons entry entries =>
      obtain ⟨key, w⟩ := entry
      obtain ⟨rfl, hw, hrest⟩ := h
      rw [List.map_cons, List.nodup_cons] at hkeys
      rw [Bindings.get?] at hv
      rcases List.mem_cons.mp hf with rfl | hf
      · rw [if_pos rfl] at hv
        cases hv
        exact hw
      · have hne : Escape.text g.key ≠ Escape.text f.key := by
          intro heq
          exact hkeys.1 (heq ▸ List.mem_map_of_mem hf)
        rw [if_neg hne] at hv
        exact ih hrest hkeys.2 hf hv

theorem Holds.field {fields : List Field} {a v : Value} {key : String} {f : Field}
    (h : env.Holds words slot (.dict fields) a) (hkeys : (Shape.dict fields).KeysDiffer)
    (hf : Shape.field? fields key = some f)
    (hat : Value.at? a (.str (Escape.text key)) = .ok v) : env.HoldsField words f v := by
  cases a with
  | dict entries =>
    have hkey : f.key = key := by simpa using List.find?_some hf
    simp only [Value.at?] at hat
    split at hat
    · rename_i w hw
      cases hat
      rw [← hkey] at hw
      exact HoldsFields.get? h hkeys (List.mem_of_find?_eq_some hf) hw
    · cases hat
  | _ => exact h.elim

namespace Reflects

variable {scope : Scope} {s s' : State} {name : String} {v : Value}

theorem getVar {shape : Shape} (h : env.Reflects words scope s) (hshadow : scope.Unshadowed s)
    (hshape : scope.shape? name = some (slot, shape)) (hv : Run.getVar name s = .done v s') :
    shape.KeysDiffer ∧ env.Holds words slot shape v := by
  obtain ⟨symbol, hs, heq⟩ := Option.map_eq_some_iff.mp hshape
  cases heq
  obtain ⟨-, hlocal | ⟨hnone, cases, hcases, -⟩⟩ := (Run.getVar_done _ _ _ _).mp hv
  · obtain ⟨symbol', hs', hkeys, hholds⟩ := h.locals name v hlocal
    obtain rfl : symbol = symbol' := Option.some.inj (hs.symm.trans hs')
    exact ⟨hkeys, hholds⟩
  · rw [hshadow name symbol hs hnone] at hcases
    cases hcases

theorem getEnum {cases : List String} (h : env.Reflects words scope s)
    (hshape : scope.shape? name = none) (hcases : scope.enums.get? name = some cases)
    (hv : Run.getVar name s = .done v s') : v = .enum name cases := by
  obtain ⟨-, hlocal | ⟨-, cases', hcases', rfl⟩⟩ := (Run.getVar_done _ _ _ _).mp hv
  · obtain ⟨symbol, hs, -⟩ := h.locals name v hlocal
    simp [Scope.shape?, hs] at hshape
  · rw [← h.enums name, hcases] at hcases'
    cases hcases'
    rfl

end Reflects

/-! ## Other words in other slots -/

theorem HoldsRow.congr {first : Slot} {count : Nat} {kind : Scalar} {v : Value}
    (h : env.HoldsRow words first count kind v)
    (hwords : ∀ cell ∈ first.run count, words' cell = words cell) :
    env.HoldsRow words' first count kind v := by
  cases v with
  | array items =>
    refine ⟨h.1, fun i v hv => ?_⟩
    have hlt := (List.getElem?_eq_some_iff.mp hv).1
    rw [hwords _ (Slot.nth_mem_run (h.1 ▸ hlt))]
    exact h.2 i v hv
  | _ => exact h.elim

theorem HoldsTuple.congr {elements : List (Slot × Scalar)} {items : List Value}
    (h : env.HoldsTuple words elements items)
    (hwords : ∀ cell ∈ elements.map (·.1), words' cell = words cell) :
    env.HoldsTuple words' elements items := by
  induction elements generalizing items with
  | nil => cases items <;> exact h
  | cons first elements ih =>
    cases items with
    | nil => exact h.elim
    | cons v items =>
      rw [List.map_cons, List.forall_mem_cons] at hwords
      refine ⟨?_, ih h.2 hwords.2⟩
      rw [hwords.1]
      exact h.1

theorem HoldsField.congr {f : Field} {v : Value} (h : env.HoldsField words f v)
    (hwords : ∀ cell ∈ f.slot.run f.shape.span, words' cell = words cell) :
    env.HoldsField words' f v := by
  obtain ⟨key, slot, shape⟩ := f
  cases shape with
  | scalar kind =>
    have hslot : words' slot = words slot := by
      have := hwords (slot.nth 0) (Slot.nth_mem_run Nat.one_pos)
      rwa [Slot.nth_zero] at this
    change env.Encodes kind (words' slot) v
    rw [hslot]
    exact h
  | array count kind => exact HoldsRow.congr h hwords

theorem HoldsFields.congr {fields : List Field} {entries : List (String × Value)}
    (h : env.HoldsFields words fields entries)
    (hwords : ∀ cell ∈ fields.flatMap fun f => f.slot.run f.shape.span,
      words' cell = words cell) :
    env.HoldsFields words' fields entries := by
  induction fields generalizing entries with
  | nil => cases entries <;> exact h
  | cons f fields ih =>
    cases entries with
    | nil => exact h.elim
    | cons entry entries =>
      rw [List.flatMap_cons, List.forall_mem_append] at hwords
      exact ⟨h.1, h.2.1.congr hwords.1, ih h.2.2 hwords.2⟩

theorem Holds.congr {shape : Shape} {v : Value} (h : env.Holds words slot shape v)
    (hwords : ∀ cell ∈ shape.cells slot, words' cell = words cell) :
    env.Holds words' slot shape v := by
  cases shape with
  | scalar kind =>
    have hslot := hwords slot (List.mem_singleton.mpr rfl)
    change env.Encodes kind (words' slot) v
    rw [hslot]
    exact h
  | enumCase enum =>
    have hslot := hwords slot (List.mem_singleton.mpr rfl)
    change env.Encodes .string (words' slot) v
    rw [hslot]
    exact h
  | array layout =>
    obtain ⟨base, count, kind, inner⟩ := layout
    cases inner with
    | none =>
      refine HoldsRow.congr h fun cell hcell => hwords cell ?_
      simpa [Shape.cells] using hcell
    | some columns =>
      cases v with
      | array rows =>
        refine ⟨h.1, fun r row hrow => (h.2 r row hrow).congr fun cell hcell => hwords cell ?_⟩
        have hlt : r < count := h.1 ▸ (List.getElem?_eq_some_iff.mp hrow).1
        have hle : (r + 1) * columns ≤ count * columns := Nat.mul_le_mul_right _ hlt
        rw [Nat.succ_mul] at hle
        exact base.nth_run_subset hle hcell
      | _ => exact h.elim
  | tuple elements =>
    cases v with
    | tuple items => exact HoldsTuple.congr h hwords
    | _ => exact h.elim
  | dict fields =>
    cases v with
    | dict entries => exact HoldsFields.congr h hwords
    | _ => exact h.elim

/-! ## Any words -/

theorem exists_frame {place : Label → Nat} {c : Code} (hbuilt : image.Built place c)
    (hsmall : c.Small) :
    ∃ (env : Process image) (base : Nat), env.stackLow + 2 ^ 20 ≤ base ∧
      ∀ stack : Nat → BitVec 64, ∃ m, env.InFrame base m ∧ m.sp.toNat = base ∧ m.output = [] ∧
        ∀ slot, m.slots base slot = stack slot.distance := by
  obtain ⟨hcode, hstrings, hdoubles⟩ := hsmall
  have hsize := hbuilt.size_code
  rw [← hbuilt.constants] at hstrings hdoubles
  obtain ⟨env, hlow, hhigh⟩ := exists_process image (by omega) (by omega) (by omega)
  refine ⟨env, 2 ^ 39, by omega, fun stack => ?_⟩
  have hbase : (BitVec.ofNat 64 (2 ^ 39)).toNat = 2 ^ 39 := toNat_address _ (by decide)
  have hbytes : Frame.localBytes = 2112 := rfl
  refine ⟨
    { x := fun _ => BitVec.ofNat 64 (2 ^ 39)
      d := fun _ => .zero false
      flags := ⟨false, false, false, false⟩
      stack := fun a => stack (a - 2 ^ 39)
      output := [] }, ⟨rfl, ?_, ?_, by omega, ?_, by decide⟩, hbase, rfl, ?_⟩
  · simp only [A64.Machine.sp]
    omega
  · exact Nat.le_of_eq hbase
  · simp only [A64.Machine.sp]
    omega
  · intro slot
    simp only [A64.Machine.slots, Nat.add_sub_cancel_left]

theorem exists_frame_alone {c : Code} (hmarks : c.marks = [])
    (htargets : ∀ line ∈ c, line.target? = none) (hsmall : Code.Small ([.entry] ++ c ++ [])) :
    ∃ (image : Image) (place : Label → Nat) (env : Process image) (base : Nat),
      image.Built place ([.entry] ++ c ++ []) ∧ env.stackLow + 2 ^ 20 ≤ base ∧
      ∀ stack : Nat → BitVec 64, ∃ m, env.InFrame base m ∧ m.sp.toNat = base ∧ m.output = [] ∧
        ∀ slot, m.slots base slot = stack slot.distance := by
  obtain ⟨image, place, hbuilt⟩ := Asm.Listing.exists_built_alone c hmarks htargets
  rw [List.append_nil] at hsmall ⊢
  obtain ⟨env, base, h⟩ := exists_frame hbuilt hsmall
  exact ⟨image, place, env, base, hbuilt, h⟩

end Process

end Armature
