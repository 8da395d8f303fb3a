import Armature.Eval.Run
import Armature.Proofs.Declarations

/-!
# Shapes and values

When a value is of the shape that is known for it, when two shapes are those of the same values, and
when a variable keeps its shape in all parts of a statement that may run never or more than once.
-/

namespace Armature

/-! ## Values of a shape -/

namespace Scalar

def admits : Scalar → Value → Bool
  | int, .int _ | float, .float _ | bool, .bool _ | string, .str _ => true
  | _, _ => false

/-- As many values, each of its kind. -/
def admitsAll : List Scalar → List Value → Bool
  | [], [] => true
  | kind :: kinds, v :: rest => kind.admits v && admitsAll kinds rest
  | _, _ => false

end Scalar

/-- An array of `count` values, all of one kind. -/
def Value.isRow (count : Nat) (element : Scalar) : Value → Bool
  | .array items => items.length = count && items.all element.admits
  | _ => false

def FieldShape.admits : FieldShape → Value → Bool
  | scalar kind, v => kind.admits v
  | array count element, v => v.isRow count element

/-- The value is of the shape. A dict has the keys of the shape in their order, read as text. -/
def Shape.admits : Shape → Value → Bool
  | scalar kind, v => kind.admits v
  | enumCase _, v => Scalar.string.admits v
  | array ⟨_, count, element, none⟩, v => v.isRow count element
  | array ⟨_, count, element, some columns⟩, .array rows =>
    rows.length = count && rows.all (·.isRow columns element)
  | tuple elements, .tuple items => Scalar.admitsAll (elements.map (·.2)) items
  | dict fields, .dict entries =>
    entries.map (·.1) = fields.map (Escape.text ·.key) &&
      fields.all fun f => (Bindings.get? entries (Escape.text f.key)).any f.shape.admits
  | _, _ => false

/-- Every variable that has a value has a symbol, whose shape is that of the value. -/
def Frame.Agrees (f : Frame) (locals : Locals) : Prop :=
  ∀ name v, locals.get? name = some v →
    ∃ symbol, f.lookup name = some symbol ∧ symbol.shape.admits v = true

namespace Scalar

theorem admitsAll_replicate (kind : Scalar) (n : Nat) (vs : List Value) :
    admitsAll (List.replicate n kind) vs = true ↔
      vs.length = n ∧ vs.all kind.admits = true := by
  induction vs generalizing n with
  | nil => cases n <;> simp [admitsAll, List.replicate_succ]
  | cons v rest ih =>
    cases n with
    | zero => simp [admitsAll]
    | succ n =>
      rw [List.replicate_succ, admitsAll, Bool.and_eq_true, ih n]
      simp [and_left_comm]

theorem admitsAll_getElem? {kinds : List Scalar} {vs : List Value}
    (h : admitsAll kinds vs = true) (i : Nat) (kind : Scalar) (v : Value)
    (hkind : kinds[i]? = some kind) (hv : vs[i]? = some v) : kind.admits v = true := by
  induction kinds generalizing i vs with
  | nil => cases hkind
  | cons first kinds ih =>
    cases vs with
    | nil => cases hv
    | cons first' rest =>
      rw [admitsAll, Bool.and_eq_true] at h
      cases i with
      | zero =>
        cases hkind
        cases hv
        exact h.1
      | succ i => exact ih h.2 i (by simpa using hkind) (by simpa using hv)

end Scalar

/-! ## Shapes of the same values -/

namespace Shape

/-- The shape without its slots. A case of an enum is a string. -/
def outline : Shape → Shape
  | scalar kind => scalar kind
  | enumCase _ => scalar .string
  | array layout => array { layout with base := ⟨0⟩ }
  | tuple elements => tuple (elements.map fun e => (⟨0⟩, e.2))
  | dict fields => dict (fields.map fun f => { f with slot := ⟨0⟩ })

theorem admits_outline (shape : Shape) (v : Value) : shape.outline.admits v = shape.admits v := by
  cases shape with
  | scalar | enumCase => rfl
  | array layout =>
    obtain ⟨base, count, element, inner⟩ := layout
    cases inner with
    | none => rfl
    | some columns => cases v <;> rfl
  | tuple elements =>
    cases v with
    | tuple items => simp [outline, admits, Function.comp_def]
    | _ => rfl
  | dict fields =>
    cases v with
    | dict entries => simp [outline, admits, Function.comp_def, List.all_map]
    | _ => rfl

end Shape

namespace Frame

/-- All variables of the first frame are in the second, with shapes of the same values. -/
def Keeps (f f' : Frame) : Prop :=
  ∀ name symbol, f.lookup name = some symbol →
    ∃ symbol', f'.lookup name = some symbol' ∧ symbol'.shape.outline = symbol.shape.outline

theorem Keeps.refl (f : Frame) : f.Keeps f := fun _ symbol h => ⟨symbol, h, rfl⟩

theorem Keeps.trans {f₁ f₂ f₃ : Frame} (h : f₁.Keeps f₂) (h' : f₂.Keeps f₃) : f₁.Keeps f₃ := by
  intro name symbol hs
  obtain ⟨symbol₂, hs₂, heq₂⟩ := h name symbol hs
  obtain ⟨symbol₃, hs₃, heq₃⟩ := h' name symbol₂ hs₂
  exact ⟨symbol₃, hs₃, heq₃.trans heq₂⟩

theorem Keeps.agrees {f f' : Frame} {locals : Locals} (h : f.Keeps f') (hf : f.Agrees locals) :
    f'.Agrees locals := by
  intro name v hv
  obtain ⟨symbol, hs, hadmits⟩ := hf name v hv
  obtain ⟨symbol', hs', heq⟩ := h name symbol hs
  exact ⟨symbol', hs', by rw [← Shape.admits_outline, heq, Shape.admits_outline, hadmits]⟩

def keeps (f f' : Frame) : Bool :=
  f.symbols.all fun (name, symbol) =>
    (f'.lookup name).any (·.shape.outline = symbol.shape.outline)

theorem keeps_of_keeps {f f' : Frame} (h : f.keeps f' = true) : f.Keeps f' := by
  intro name symbol hs
  have hmem : (name, symbol) ∈ f.symbols := Bindings.mem_of_get? _ _ _ hs
  have := List.all_eq_true.mp h _ hmem
  simpa [Option.any_eq_true] using this

end Frame

/-! ## Statements that keep shapes -/

namespace Lowering

variable {α : Type}

/-- Whether the scope after a step passes a check. There is none after a step that fails. -/
def leaves (x : Lowering α) (check : Scope → Bool) (s : Scope) : Bool :=
  match x s with
  | .ok (_, s') => check s'
  | .error _ => true

/-- Every variable that is there before the step has a shape of the same values after it. -/
def keepsShapes (x : Lowering α) (s : Scope) : Bool := x.leaves (s.frame.keeps ·.frame) s

theorem check_of_leaves {x : Lowering α} {check : Scope → Bool} {a : α} {s s' : Scope}
    (h : x.leaves check s = true) (hx : x s = .ok (a, s')) : check s' = true := by
  rwa [leaves, hx] at h

theorem keeps_of_keepsShapes {x : Lowering α} {a : α} {s s' : Scope} (h : x.keepsShapes s = true)
    (hx : x s = .ok (a, s')) : s.frame.Keeps s'.frame :=
  Frame.keeps_of_keeps (check_of_leaves h hx)

end Lowering

namespace Scope

def labelled (s : Scope) (purpose : Asm.Purpose) : Scope :=
  { s with labels := (s.labels.create purpose).2 }

/-- Where the body of a counted loop is lowered. -/
def inLoop (s : Scope) (var : String) : Scope :=
  { s with
    frame := (s.frame.assign var (.scalar .int)).2.hidden.2
    labels := ((s.labels.create .loopTop).2.create .loopEnd).2 }

end Scope

namespace Stmt

mutual

/-- The branches of the statement end with the shapes that they start with, and so does every
single statement in its loops. -/
def steady (looped : Bool) : Stmt → Scope → Bool
  | loop var (.counted _ _) body, s => allSteady true body (s.inLoop var)
  | cond _ thenBody none, s =>
    allSteady looped thenBody (s.labelled .otherwise) &&
      (Lower.block thenBody).keepsShapes (s.labelled .otherwise)
  | cond _ thenBody (some elseBody), s =>
    allSteady looped thenBody (s.labelled .otherwise) &&
      (Lower.block thenBody).keepsShapes (s.labelled .otherwise) &&
      (Lower.block thenBody).leaves (fun s₁ =>
        allSteady looped elseBody (s₁.labelled .endIf) &&
          (Lower.block elseBody).keepsShapes (s₁.labelled .endIf)) (s.labelled .otherwise)
  | _, _ => true

/-- All statements are steady. Inside a loop, none of them changes the shape of a variable. -/
def allSteady (looped : Bool) : List Stmt → Scope → Bool
  | [], _ => true
  | st :: rest, s =>
    steady looped st s && (!looped || (Lower.stmt st).keepsShapes s) &&
      (Lower.stmt st).leaves (allSteady looped rest) s

end

end Stmt

def Function.steady (f : Function) (s : Session) : Bool :=
  (Lower.parameters 0 f.params).leaves (Stmt.allSteady false f.body) (s.enter true)

/-! ## Names -/

/-- The key of a dict literal as it is read when the program runs. -/
def Expr.keyText? : Expr → Option String
  | str source => some (Escape.text source)
  | _ => none

/-- Keys that are written in different ways are different. -/
def Expr.distinctKeys : Expr → Bool
  | dict entries => (entries.filterMap (·.1.keyText?)).Nodup
  | _ => true

namespace Stmt

mutual

/-- No variable has the name of an enum, and the keys of every dict are distinct. -/
def distinct (isEnum : String → Bool) : Stmt → Bool
  | decl name value => !isEnum name && value.distinctKeys
  | loop var _ body => !isEnum var && allDistinct isEnum body
  | cond _ thenBody none => allDistinct isEnum thenBody
  | cond _ thenBody (some elseBody) => allDistinct isEnum thenBody && allDistinct isEnum elseBody
  | enum name _ => isEnum name
  | _ => true

def allDistinct (isEnum : String → Bool) : List Stmt → Bool
  | [] => true
  | st :: rest => st.distinct isEnum && allDistinct isEnum rest

end

end Stmt

def Function.distinct (isEnum : String → Bool) (f : Function) : Bool :=
  f.params.all (!isEnum ·) && Stmt.allDistinct isEnum f.body

def Frame.Named (isEnum : String → Bool) (f : Frame) : Prop :=
  ∀ name symbol, f.lookup name = some symbol → isEnum name = false

/-- Variables and enums have different names. -/
structure Scope.Named (isEnum : String → Bool) (s : Scope) : Prop where
  enums : ∀ name cases, s.enums.get? name = some cases → isEnum name = true
  symbols : s.frame.Named isEnum

end Armature
