import Armature.Proofs.Defects

/-!
# Renaming

Names of variables, functions and enums only tell these apart. A program whose names are changed
one for one has the same image. If it has none, the error differs in the names it mentions only.
-/

namespace Armature

variable {α β : Type}

/-! ## Renamed programs -/

/-- Text is no name, and neither are the keys of dicts and the cases of enums. -/
def Part.rename (r : String → String) : Part → Part
  | text source => text source
  | var name => var (r name)

namespace Expr

mutual

def rename (r : String → String) : Expr → Expr
  | int value => int value
  | float value => float value
  | str source => str source
  | bool value => bool value
  | nil => nil
  | var name => var (r name)
  | binary op lhs rhs => binary op (rename r lhs) (rename r rhs)
  | unary op operand => unary op (rename r operand)
  | call name args => call (r name) (renameAll r args)
  | array items => array (renameAll r items)
  | tuple items => tuple (renameAll r items)
  | dict entries => dict (renameEntries r entries)
  | index target position => index (rename r target) (rename r position)
  | interpolation parts => interpolation (parts.map (Part.rename r))
  | input prompt => input (rename r prompt)

def renameAll (r : String → String) : List Expr → List Expr
  | [] => []
  | e :: rest => rename r e :: renameAll r rest

def renameEntries (r : String → String) : List (Expr × Expr) → List (Expr × Expr)
  | [] => []
  | (key, value) :: rest => (rename r key, rename r value) :: renameEntries r rest

end

theorem rename_int (r : String → String) (value : Int64) : (int value).rename r = int value := rfl

theorem rename_str (r : String → String) (source : String) : (str source).rename r = str source :=
  rfl

end Expr

def Range.rename (r : String → String) : Range → Range
  | counted start stop => counted (start.rename r) (stop.rename r)
  | collection items => collection (items.rename r)
  | condition test => condition (test.rename r)

namespace Stmt

mutual

def rename (r : String → String) : Stmt → Stmt
  | print value => print (value.rename r)
  | decl name value => decl (r name) (value.rename r)
  | loop var range body => loop (r var) (range.rename r) (renameAll r body)
  | cond test thenBody none => cond (test.rename r) (renameAll r thenBody) none
  | cond test thenBody (some elseBody) =>
    cond (test.rename r) (renameAll r thenBody) (some (renameAll r elseBody))
  | func name params body => func (r name) (params.map r) (renameAll r body)
  | ret value => ret (value.rename r)
  | enum name cases => enum (r name) cases
  | tryCatch body handler => tryCatch (renameAll r body) (renameAll r handler)
  | throw value => throw (value.rename r)
  | expr value => expr (value.rename r)

def renameAll (r : String → String) : List Stmt → List Stmt
  | [] => []
  | st :: rest => rename r st :: renameAll r rest

end

end Stmt

def Function.rename (r : String → String) (f : Function) : Function :=
  ⟨f.params.map r, Stmt.renameAll r f.body⟩

def Program.rename (r : String → String) (p : Program) : Program :=
  ⟨Stmt.renameAll r p.statements⟩

/-! ## Renamed errors -/

def Shape.rename (r : String → String) : Shape → Shape
  | enumCase enum => enumCase (r enum)
  | shape => shape

def Construct.rename (r : String → String) : Construct → Construct
  | variableAsValue shape name => variableAsValue (shape.rename r) (r name)
  | enumAsValue name => enumAsValue (r name)
  | unknownVariable name => unknownVariable (r name)
  | unknownFunction name => unknownFunction (r name)
  | argumentCount name given expected => argumentCount (r name) given expected
  | argumentKind kind name => argumentKind kind (r name)
  | computedCase enum => computedCase (r enum)
  | unknownCase case enum => unknownCase case (r enum)
  | indexedShape shape name => indexedShape (shape.rename r) (r name)
  | rowAsValue name => rowAsValue (r name)
  | rowRange row name => rowRange row (r name)
  | computedTupleIndex name => computedTupleIndex (r name)
  | tupleRange index name => tupleRange index (r name)
  | computedKey name => computedKey (r name)
  | unknownKey key name => unknownKey key (r name)
  | fieldAsValue key name => fieldAsValue key (r name)
  | mixedArray name => mixedArray (r name)
  | raggedArray name => raggedArray (r name)
  | deepArray name => deepArray (r name)
  | compositeInArray name => compositeInArray (r name)
  | unevenArray name => unevenArray (r name)
  | compositeInTuple name => compositeInTuple (r name)
  | computedKeyIn name => computedKeyIn (r name)
  | duplicateKey key name => duplicateKey key (r name)
  | deepField name => deepField (r name)
  | compositeInDict kind name => compositeInDict kind (r name)
  | unevenField key name => unevenField key (r name)
  | nestedFunction name => nestedFunction (r name)
  | interpolatedShape shape name => interpolatedShape (shape.rename r) (r name)
  | other => other

def Asm.Defect.rename (r : String → String) : Asm.Defect → Asm.Defect
  | functionUndeclared name => functionUndeclared (r name)
  | other => other

def LowerError.rename (r : String → String) : LowerError → LowerError
  | unsupported c => unsupported (c.rename r)
  | exhausted resource => exhausted resource
  | internal defect => internal (defect.rename r)

/-! ## Renamed scopes -/

def Bindings.rename (r : String → String) (g : α → α) (b : Bindings α) : Bindings α :=
  b.map fun e => (r e.1, g e.2)

def Symbol.rename (r : String → String) (symbol : Symbol) : Symbol :=
  { symbol with shape := symbol.shape.rename r }

def Frame.rename (r : String → String) (f : Frame) : Frame :=
  { f with symbols := f.symbols.rename r (Symbol.rename r) }

def Activation.rename (r : String → String) (a : Activation) : Activation :=
  { a with frame := a.frame.rename r }

def Scope.rename (r : String → String) (s : Scope) : Scope :=
  ⟨s.toActivation.rename r, s.functions.rename r id, s.enums.rename r id, s.labels⟩

section

variable {r : String → String} (hr : Function.Injective r)

namespace Bindings

include hr

theorem get?_rename (g : α → α) (b : Bindings α) (name : String) :
    (b.rename r g).get? (r name) = (b.get? name).map g := by
  induction b with
  | nil => rfl
  | cons e rest ih =>
    unfold rename at ih ⊢
    by_cases h : e.1 = name <;> simp [get?, hr.eq_iff, h, ih]

theorem set_rename (g : α → α) (b : Bindings α) (name : String) (a : α) :
    (b.rename r g).set (r name) (g a) = (b.set name a).rename r g := by
  induction b with
  | nil => rfl
  | cons e rest ih =>
    unfold rename at ih ⊢
    by_cases h : e.1 = name <;> simp [set, hr.eq_iff, h, ih]

theorem has_rename (g : α → α) (b : Bindings α) (name : String) :
    (b.rename r g).has (r name) = b.has name := by
  simp [has, get?_rename hr]

end Bindings

namespace Shape

@[simp] theorem scalar?_rename (shape : Shape) : (shape.rename r).scalar? = shape.scalar? := by
  cases shape <;> rfl

end Shape

namespace Frame

include hr

theorem lookup_rename (f : Frame) (name : String) :
    (f.rename r).lookup (r name) = (f.lookup name).map (Symbol.rename r) :=
  Bindings.get?_rename hr _ _ _

theorem bind_rename (f : Frame) (name : String) (symbol : Symbol) :
    (f.rename r).bind (r name) (symbol.rename r) = (f.bind name symbol).rename r := by
  simp [bind, rename, Bindings.set_rename hr]

end Frame

namespace Scope

include hr

theorem shape?_rename (s : Scope) (name : String) :
    (s.rename r).shape? (r name) = (s.shape? name).map fun p => (p.1, p.2.rename r) := by
  unfold shape?
  have hlookup : (s.rename r).frame.lookup (r name) = _ := Frame.lookup_rename hr s.frame name
  rw [hlookup]
  cases s.frame.lookup name <;> rfl

theorem enums_rename (s : Scope) (name : String) :
    (s.rename r).enums.get? (r name) = s.enums.get? name := by
  unfold rename
  rw [Bindings.get?_rename hr, Option.map_id]
  rfl

theorem enum?_rename (s : Scope) (name : String) :
    (s.rename r).enum? (r name) = s.enum? name := by
  simp [enum?, shape?_rename hr, enums_rename hr]

theorem functions_rename (s : Scope) (name : String) :
    (s.rename r).functions.get? (r name) = s.functions.get? name := by
  unfold rename
  rw [Bindings.get?_rename hr, Option.map_id]
  rfl

end Scope

/-! ## Expressions -/

namespace Lower

/-- Both have the same value, or the error of the second is that of the first with other names. -/
def RenamedValue (r : String → String) (x x' : Except LowerError α) : Prop :=
  x' = x.mapError (LowerError.rename r)

theorem RenamedValue.bind {x x' : Except LowerError α} {f f' : α → Except LowerError β}
    (hx : RenamedValue r x x') (hf : ∀ a, RenamedValue r (f a) (f' a)) :
    RenamedValue r (x >>= f) (x' >>= f') := by
  unfold RenamedValue at hx
  rw [hx]
  cases x with
  | error e => rfl
  | ok a => exact hf a

theorem RenamedValue.error_eq {x : Except LowerError α} {e : LowerError} (h : RenamedValue r x x)
    (hx : x = .error e) : e.rename r = e := by
  unfold RenamedValue at h
  rw [hx] at h
  exact (Except.error.inj h).symm

theorem renamed_operands (op : BinaryOp) (left right : ValueCode) :
    RenamedValue r (operands op left right) (operands op left right) := by
  unfold operands checkOperands
  refine RenamedValue.bind ?_ fun _ => rfl
  split
  · rfl
  · split <;> rfl

theorem renamed_comparison (op : BinaryOp) (left right : ValueCode) :
    RenamedValue r (comparison op left right) (comparison op left right) := by
  apply (renamed_operands op left right).bind
  rintro ⟨float, code⟩
  cases test? op with
  | none => rfl
  | some test => cases float <;> rfl

theorem renamed_arithmetic (op : BinaryOp) (left right : ValueCode) :
    RenamedValue r (arithmetic op left right) (arithmetic op left right) := by
  apply (renamed_operands op left right).bind
  rintro ⟨_ | _, code⟩ <;> cases op <;> rfl

theorem renamed_binary (op : BinaryOp) (left right : ValueCode) :
    RenamedValue r (binary op left right) (binary op left right) := by
  unfold binary
  split
  · rfl
  · split
    · exact (renamed_comparison op left right).bind fun _ => rfl
    · exact renamed_arithmetic op left right

theorem renamed_unary (op : UnaryOp) (operand : ValueCode) :
    RenamedValue r (unary op operand) (unary op operand) := by
  unfold unary
  cases op with
  | not => rfl
  | neg => cases operand.kind <;> rfl

theorem renamed_indexCode (value : ValueCode) :
    RenamedValue r (indexCode value) (indexCode value) := by
  unfold indexCode
  cases value.kind <;> rfl

section Elements

variable {value value' rowValue rowValue' : Except LowerError ValueCode}
  (hvalue : RenamedValue r value value') (hrow : RenamedValue r rowValue rowValue')

include hvalue

theorem renamed_element (view : ArrayView) (position : Expr) :
    RenamedValue r (element view position value) (element view (position.rename r) value') := by
  cases position with
  | int i =>
    simp only [Expr.rename_int, element]
    split <;> rfl
  | _ => exact hvalue.bind fun _ => (renamed_indexCode _).bind fun _ => rfl

include hrow

theorem renamed_cell (layout : ArrayLayout) (columns : Nat) (row column : Expr) :
    RenamedValue r (cell layout columns row column rowValue value)
      (cell layout columns (row.rename r) (column.rename r) rowValue' value') := by
  have hcomputed (f : Asm.Code → Asm.Code → ValueCode) : RenamedValue r
      (do return f (← indexCode (← rowValue)) (← indexCode (← value)))
      (do return f (← indexCode (← rowValue')) (← indexCode (← value'))) :=
    hrow.bind fun _ => (renamed_indexCode _).bind fun _ => hvalue.bind fun _ =>
      (renamed_indexCode _).bind fun _ => rfl
  cases row with
  | int i =>
    cases column with
    | int j =>
      simp only [Expr.rename_int, cell]
      split <;> rfl
    | _ => exact hcomputed _
  | _ => exact hcomputed _

end Elements

theorem renamed_enumCase (name : String) (cases : List String) (position : Expr) :
    RenamedValue r (enumCase name cases position)
      (enumCase (r name) cases (position.rename r)) := by
  cases position with
  | str case =>
    simp only [Expr.rename_str, enumCase]
    split <;> rfl
  | _ => rfl

theorem renamed_tupleElement (elements : List (Slot × Scalar)) (name : String) (position : Expr) :
    RenamedValue r (tupleElement elements name position)
      (tupleElement elements (r name) (position.rename r)) := by
  cases position with
  | int i =>
    simp only [Expr.rename_int, tupleElement]
    split <;> rfl
  | _ => rfl

theorem renamed_dictElement (fields : List Field) (name : String) (position : Expr) :
    RenamedValue r (dictElement fields name position)
      (dictElement fields (r name) (position.rename r)) := by
  cases position with
  | str key =>
    simp only [Expr.rename_str, dictElement]
    split <;> rfl
  | _ => rfl

include hr

theorem renamed_varValue (s : Scope) (name : String) :
    RenamedValue r (varValue s name) (varValue (s.rename r) (r name)) := by
  have henums : (s.rename r).enums.has (r name) = s.enums.has name :=
    Bindings.has_rename hr _ _ _
  simp only [varValue, s.shape?_rename hr, henums]
  cases s.shape? name with
  | none =>
    simp only [Option.map_none]
    split <;> rfl
  | some p =>
    simp only [Option.map_some, Shape.scalar?_rename]
    cases p.2.scalar? <;> rfl

theorem renamed_arrayView (s : Scope) (name : String) (position : Expr) :
    RenamedValue r (arrayView s name position)
      (arrayView (s.rename r) (r name) (position.rename r)) := by
  simp only [arrayView, s.shape?_rename hr]
  cases s.shape? name with
  | none => rfl
  | some p =>
    obtain ⟨slot, shape⟩ := p
    cases shape with
    | scalar | enumCase | tuple => rfl
    | array layout =>
      obtain ⟨base, count, element, inner⟩ := layout
      cases inner with
      | none => rfl
      | some columns =>
        cases position with
        | int row =>
          simp only [Option.map_some, Shape.rename, Expr.rename_int]
          split <;> rfl
        | _ => rfl
    | dict fields =>
      cases position with
      | str key =>
        simp only [Option.map_some, Shape.rename, Expr.rename_str]
        split <;> rfl
      | _ => rfl

variable {value value' rowValue rowValue' : Except LowerError ValueCode}
  (hvalue : RenamedValue r value value') (hrow : RenamedValue r rowValue rowValue')

include hvalue

theorem renamed_elementOf (s : Scope) (name : String) (position : Expr) :
    RenamedValue r (elementOf s name position value)
      (elementOf (s.rename r) (r name) (position.rename r) value') := by
  simp only [elementOf, s.shape?_rename hr, s.enums_rename hr]
  cases s.shape? name with
  | none =>
    cases s.enums.get? name with
    | none => rfl
    | some cases => exact renamed_enumCase name cases position
  | some p =>
    obtain ⟨slot, shape⟩ := p
    cases shape with
    | scalar | enumCase => rfl
    | array layout =>
      simp only [Option.map_some, Shape.rename]
      split
      · rfl
      · exact renamed_element hvalue _ _
    | tuple elements => exact renamed_tupleElement _ _ _
    | dict fields => exact renamed_dictElement _ _ _

include hrow

theorem renamed_elementOfElement (s : Scope) (name : String) (row column : Expr) :
    RenamedValue r (elementOfElement s name row column rowValue value)
      (elementOfElement (s.rename r) (r name) (row.rename r) (column.rename r) rowValue'
        value') := by
  simp only [elementOfElement, s.shape?_rename hr]
  cases s.shape? name with
  | none => rfl
  | some p =>
    obtain ⟨slot, shape⟩ := p
    cases shape with
    | scalar | enumCase | tuple => rfl
    | array layout =>
      simp only [Option.map_some, Shape.rename]
      cases layout.inner with
      | none => rfl
      | some columns => exact renamed_cell hvalue hrow _ _ _ _
    | dict fields =>
      apply (renamed_arrayView hr s name row).bind
      rintro (_ | view)
      · rfl
      · exact renamed_element hvalue _ _

omit hvalue hrow

theorem renamed_callee (s : Scope) (depth : Nat) (name : String) (count : Nat) :
    RenamedValue r (callee s depth name count) (callee (s.rename r) depth (r name) count) := by
  simp only [callee, s.functions_rename hr]
  cases s.functions.get? name with
  | none => rfl
  | some f =>
    simp only
    split
    · rfl
    · split
      · rfl
      · split <;> rfl

end Lower

theorem Expr.length_renameAll (es : List Expr) : (renameAll r es).length = es.length := by
  induction es with
  | nil => rfl
  | cons e rest ih => simp [renameAll, ih]

namespace Lower

mutual

theorem renamed_expr (hr : Function.Injective r) (s : Scope) (depth : Nat) (e : Expr) :
    RenamedValue r (expr s depth e) (expr (s.rename r) depth (e.rename r)) := by
  match e with
  | .int _ | .float _ | .bool _ | .str _ => rfl
  | .nil | .input _ | .interpolation _ | .array _ | .tuple _ | .dict _ => rfl
  | .var name => exact renamed_varValue hr s name
  | .binary op lhs rhs =>
    exact (renamed_expr hr s depth lhs).bind fun _ => (renamed_expr hr s depth rhs).bind fun _ =>
      renamed_binary op _ _
  | .unary op operand =>
    exact (renamed_expr hr s depth operand).bind fun _ => renamed_unary op _
  | .call name args =>
    simp only [Expr.rename, expr, Expr.length_renameAll]
    exact (renamed_callee hr s depth name args.length).bind fun f =>
      (renamed_arguments hr s depth name args).bind fun _ => rfl
  | .index target position =>
    cases target with
    | var name => exact renamed_elementOf hr (renamed_expr hr s depth position) s name position
    | index inner row =>
      cases inner with
      | var name =>
        exact renamed_elementOfElement hr (renamed_expr hr s depth position)
          (renamed_expr hr s depth row) s name row position
      | _ => rfl
    | _ => rfl

theorem renamed_arguments (hr : Function.Injective r) (s : Scope) (depth : Nat) (name : String)
    (args : List Expr) :
    RenamedValue r (arguments s depth name args)
      (arguments (s.rename r) depth (r name) (Expr.renameAll r args)) := by
  match args with
  | [] => rfl
  | arg :: rest =>
    refine (renamed_expr hr s depth arg).bind fun value => ?_
    split
    · rfl
    · exact (renamed_arguments hr s (depth + 1) name rest).bind fun _ => rfl

end

end Lower

/-! ## Steps -/

namespace Frame

theorem reserve_rename (f : Frame) (count : Nat) :
    (f.rename r).reserve count = ((f.reserve count).1, (f.reserve count).2.rename r) := by
  unfold reserve rename
  split <;> rfl

theorem growScratch_rename (missing : Nat) (f : Frame) :
    growScratch missing (f.rename r) =
      ((growScratch missing f).1, (growScratch missing f).2.rename r) := by
  induction missing generalizing f with
  | zero => rfl
  | succ missing ih =>
    simp only [growScratch, hidden, reserve_rename]
    cases f.reserve 1 with
    | mk result f =>
      cases result with
      | error e => rfl
      | ok slot => exact ih { f with scratch := f.scratch ++ [slot] }

theorem scratchSlots_rename (count : Nat) (f : Frame) :
    (f.rename r).scratchSlots count =
      ((f.scratchSlots count).1, (f.scratchSlots count).2.rename r) := by
  have hlength : (f.rename r).scratch.length = f.scratch.length := rfl
  simp only [scratchSlots, hlength, growScratch_rename]
  cases growScratch (count - f.scratch.length) f with
  | mk result f => cases result <;> rfl

include hr

theorem assign_rename (name : String) (shape : Shape) (f : Frame) :
    (f.rename r).assign (r name) (shape.rename r) =
      ((f.assign name shape).1, (f.assign name shape).2.rename r) := by
  simp only [assign, lookup_rename hr, reserve_rename]
  rcases f.reserve 1 with ⟨_ | slot, f₁⟩
  all_goals
    cases f.lookup name with
    | none => simp [← bind_rename hr, Symbol.rename]
    | some symbol =>
      by_cases hspan : 0 < symbol.span <;> simp [hspan, ← bind_rename hr, Symbol.rename]

theorem spanFor_rename (name : String) (count : Nat) (f : Frame) :
    (f.rename r).spanFor (r name) count =
      ((f.spanFor name count).1, (f.spanFor name count).2.rename r) := by
  simp only [spanFor, lookup_rename hr, reserve_rename]
  rcases f.reserve count with ⟨_ | slot, f₁⟩
  all_goals
    cases f.lookup name with
    | none => rfl
    | some symbol =>
      by_cases hspan : count ≤ symbol.span ∧ 0 < symbol.span <;> simp [hspan, Symbol.rename]

end Frame

namespace Lowering

/-- On the renamed scope, the second step does what the first does on the scope itself. -/
def Renamed (r : String → String) (x x' : Lowering α) : Prop :=
  ∀ s, x' (s.rename r) =
    ((x s).map fun p => (p.1, p.2.rename r)).mapError (LowerError.rename r)

theorem Renamed.bind {x x' : Lowering α} {f f' : α → Lowering β} (hx : Renamed r x x')
    (hf : ∀ a, Renamed r (f a) (f' a)) : Renamed r (x >>= f) (x' >>= f') := by
  intro s
  change (x' (s.rename r) >>= fun p => f' p.1 p.2) =
    ((x s >>= fun p => f p.1 p.2).map _).mapError _
  rw [hx s]
  cases x s with
  | error e => rfl
  | ok p => exact hf p.1 p.2

theorem renamed_pure (a : α) : Renamed r (pure a) (pure a) := fun _ => rfl

theorem renamed_fail (e : LowerError) : Renamed r (fail e : Lowering α) (fail (e.rename r)) :=
  fun _ => rfl

theorem renamed_refuse (c : Construct) :
    Renamed r (refuse c : Lowering α) (refuse (c.rename r)) := fun _ => rfl

theorem renamed_get {f f' : Scope → Lowering α} (hf : ∀ s, Renamed r (f s) (f' (s.rename r))) :
    Renamed r (get >>= f) (get >>= f') := fun s => hf s s

theorem renamed_newLabel (purpose : Asm.Purpose) :
    Renamed r (newLabel purpose) (newLabel purpose) := fun _ => rfl

theorem renamed_take {taking taking' : Frame → Frame.Taking α}
    (h : ∀ f, taking' (f.rename r) = ((taking f).1, (taking f).2.rename r)) :
    Renamed r (take taking) (take taking') := by
  intro s
  have hframe : taking' (s.rename r).frame = _ := h s.frame
  simp only [take, hframe]
  rcases taking s.frame with ⟨_ | a, f⟩ <;> rfl

theorem renamed_hidden : Renamed r (take (·.hidden)) (take (·.hidden)) :=
  renamed_take fun f => f.reserve_rename 1

theorem renamed_scratchSlots (count : Nat) :
    Renamed r (take (·.scratchSlots count)) (take (·.scratchSlots count)) :=
  renamed_take (Frame.scratchSlots_rename count)

include hr

theorem renamed_assign (name : String) (shape : Shape) :
    Renamed r (take (·.assign name shape)) (take (·.assign (r name) (shape.rename r))) :=
  renamed_take (Frame.assign_rename hr name shape)

theorem renamed_spanFor (name : String) (count : Nat) :
    Renamed r (take (·.spanFor name count)) (take (·.spanFor (r name) count)) :=
  renamed_take (Frame.spanFor_rename hr name count)

theorem renamed_value (e : Expr) : Renamed r (value e) (value (e.rename r)) := by
  intro s
  have hexpr : Lower.expr (s.rename r) 0 (e.rename r) = _ := Lower.renamed_expr hr s 0 e
  unfold value
  rw [hexpr]
  cases Lower.expr s 0 e <;> rfl

theorem renamed_bind (name : String) (symbol : Symbol) :
    Renamed r (bind name symbol) (bind (r name) (symbol.rename r)) := by
  intro s
  unfold bind
  simp [Scope.rename, Activation.rename, Frame.bind_rename hr, Except.map, Except.mapError]

end Lowering

end

end Armature
