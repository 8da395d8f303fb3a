import Mathlib.Logic.Equiv.Basic
import Armature.Proofs.Defects
import Armature.Proofs.Renaming

/-!
# Renamed code

Statements and programs are lowered in the same way under other names.
-/

namespace Armature

variable {α β : Type} {r : String → String} (hr : Function.Injective r)

/-! ## Literals -/

namespace Expr

theorem renameAll_eq (es : List Expr) : renameAll r es = es.map (rename r) := by
  induction es with
  | nil => rfl
  | cons e rest ih => simp [renameAll, ih]

@[simp] theorem isArray_rename (e : Expr) : (e.rename r).isArray = e.isArray := by
  cases e <;> simp [rename, isArray]

@[simp] theorem isTupleOrDict_rename (e : Expr) : (e.rename r).isTupleOrDict = e.isTupleOrDict := by
  cases e <;> simp [rename, isTupleOrDict]

@[simp] theorem isComposite_rename (e : Expr) : (e.rename r).isComposite = e.isComposite := by
  simp [isComposite]

end Expr

namespace Lower

open Asm (Code Label)
open Lowering

/-- Both are refused in the same way, or `g` takes what the first consists of to what the second
does. -/
def RenamedLiteral (r : String → String) (g : α → α) (x x' : Except Construct α) : Prop :=
  x' = (x.map g).mapError (Construct.rename r)

theorem RenamedLiteral.bind {x x' : Except Construct α} {f f' : α → Except Construct β} {g : α → α}
    {g' : β → β} (hx : RenamedLiteral r g x x') (hf : ∀ a, RenamedLiteral r g' (f a) (f' (g a))) :
    RenamedLiteral r g' (x >>= f) (x' >>= f') := by
  unfold RenamedLiteral at hx
  rw [hx]
  cases x with
  | error c => rfl
  | ok a => exact hf a

theorem RenamedLiteral.accept {x x' : Except Construct α} {g : α → α} (hx : RenamedLiteral r g x x')
    {f f' : α → Lowering β} (hf : ∀ a, Renamed r (f a) (f' (g a))) :
    Renamed r (Lower.accept x >>= f) (Lower.accept x' >>= f') := by
  unfold RenamedLiteral at hx
  rw [hx]
  cases x with
  | error c => exact fun _ => rfl
  | ok a => exact hf a

theorem renamed_gridElements (name : String) (columns : Nat) (items : List Expr) :
    RenamedLiteral r (Expr.renameAll r) (gridElements name columns items)
      (gridElements (r name) columns (Expr.renameAll r items)) := by
  induction items with
  | nil => rfl
  | cons item rest ih =>
    cases item with
    | array row =>
      have hany : (Expr.renameAll r row).any Expr.isArray = row.any Expr.isArray := by
        simp [Expr.renameAll_eq, Function.comp_def]
      simp only [Expr.renameAll, Expr.rename, gridElements, Expr.length_renameAll, hany]
      split
      · rfl
      · split
        · rfl
        · refine ih.bind fun values => ?_
          simp [RenamedLiteral, Expr.renameAll_eq, pure, Except.pure, Except.map, Except.mapError]
    | _ => exact ih

theorem renamed_arrayElements (name : String) (items : List Expr) :
    RenamedLiteral r (fun p => (Expr.renameAll r p.1, p.2)) (arrayElements name items)
      (arrayElements (r name) (Expr.renameAll r items)) := by
  have hkind : Expr.isArray ∘ Expr.rename r = Expr.isArray := funext Expr.isArray_rename
  have hfind : (Expr.renameAll r items).find? Expr.isArray =
      (items.find? Expr.isArray).map (Expr.rename r) := by
    rw [Expr.renameAll_eq, List.find?_map, hkind]
  have hall : (Expr.renameAll r items).all Expr.isArray = items.all Expr.isArray := by
    rw [Expr.renameAll_eq, List.all_map, hkind]
  unfold arrayElements
  rw [hfind, hall]
  have hchecked (values : List Expr) (inner : Option Nat) :
      RenamedLiteral r (fun p => (Expr.renameAll r p.1, p.2))
        (if values.any Expr.isTupleOrDict then .error (.compositeInArray name)
          else pure (values, inner))
        (if (Expr.renameAll r values).any Expr.isTupleOrDict then
            .error (.compositeInArray (r name))
          else pure (Expr.renameAll r values, inner)) := by
    simp only [Expr.renameAll_eq, List.any_map, Function.comp_def, Expr.isTupleOrDict_rename]
    split
    · rfl
    · simp [RenamedLiteral, pure, Except.pure, Except.map, Except.mapError]
  cases items.find? Expr.isArray with
  | none => exact hchecked items none
  | some item =>
    cases item with
    | array row =>
      simp only [Option.map_some, Expr.rename, Expr.length_renameAll]
      split
      · exact (renamed_gridElements name row.length items).bind fun values =>
          hchecked values (some row.length)
      · rfl
    | _ => exact hchecked items none

/-- Keys are texts and stay. -/
def FieldLiteral.rename (r : String → String) (f : FieldLiteral) : FieldLiteral :=
  ⟨f.key, f.value.map (Expr.rename r) (Expr.renameAll r)⟩

theorem FieldLiteral.values_rename (f : FieldLiteral) :
    (f.rename r).values = Expr.renameAll r f.values := by
  obtain ⟨key, value⟩ := f
  cases value <;> rfl

theorem renamed_dictFields (name : String) (seen : List String) (entries : List (Expr × Expr)) :
    RenamedLiteral r (List.map (FieldLiteral.rename r)) (dictFields name seen entries)
      (dictFields (r name) seen (Expr.renameEntries r entries)) := by
  induction entries generalizing seen with
  | nil => rfl
  | cons entry rest ih =>
    obtain ⟨key, value⟩ := entry
    cases key with
    | str key =>
      simp only [Expr.renameEntries, Expr.rename, dictFields]
      split
      · rfl
      · have hrest (field : Expr ⊕ List Expr) :
            RenamedLiteral r (List.map (FieldLiteral.rename r))
              (do return ⟨key, field⟩ :: (← dictFields name (key :: seen) rest))
              (do
                let field := field.map (Expr.rename r) (Expr.renameAll r)
                return ⟨key, field⟩ ::
                  (← dictFields (r name) (key :: seen) (Expr.renameEntries r rest))) :=
          (ih (key :: seen)).bind fun fields => rfl
        cases value with
        | array items =>
          have hany : (Expr.renameAll r items).any Expr.isComposite =
              items.any Expr.isComposite := by
            simp [Expr.renameAll_eq, Function.comp_def]
          simp only [Expr.rename, hany]
          split
          · rfl
          · exact hrest (.inr items)
        | tuple | dict => rfl
        | _ => exact hrest (.inl _)
    | _ => rfl

theorem renamed_fieldShapes (name : String) (kinds : List Scalar) (fields : List FieldLiteral) :
    RenamedLiteral r id (fieldShapes name kinds fields)
      (fieldShapes (r name) kinds (fields.map (FieldLiteral.rename r))) := by
  induction fields generalizing kinds with
  | nil => rfl
  | cons f rest ih =>
    have hrest (shape : FieldShape) (count : Nat) :
        RenamedLiteral r id
          (do return (f.key, shape) :: (← fieldShapes name (kinds.drop count) rest))
          (do return (f.key, shape) ::
            (← fieldShapes (r name) (kinds.drop count) (rest.map (FieldLiteral.rename r)))) :=
      (ih (kinds.drop count)).bind fun shapes => rfl
    simp only [List.map_cons, fieldShapes, FieldLiteral.values_rename, Expr.length_renameAll]
    obtain ⟨key, value⟩ := f
    cases value <;> cases commonKind _
    · rfl
    · exact hrest _ _
    · rfl
    · exact hrest _ _

/-! ## Declarations -/

include hr

theorem renamed_stage (values : List Expr) :
    Renamed r (stage values) (stage (Expr.renameAll r values)) := by
  induction values with
  | nil => exact renamed_pure _
  | cons e rest ih =>
    exact (renamed_value hr e).bind fun _ => ih.bind fun _ => renamed_pure _

theorem renamed_bindComposite (name : String) (kinds : List Scalar) (shape : Slot → Shape)
    (hshape : ∀ base, (shape base).rename r = shape base) :
    Renamed r (bindComposite name kinds shape) (bindComposite (r name) kinds shape) := by
  apply (renamed_spanFor hr name kinds.length).bind
  rintro ⟨base, span⟩
  have hbind := renamed_bind hr name ⟨base, span, shape base⟩
  simp only [Symbol.rename, hshape] at hbind
  exact hbind.bind fun _ => renamed_pure _

theorem renamed_declareArray (name : String) (items : List Expr) :
    Renamed r (declareArray name items) (declareArray (r name) (Expr.renameAll r items)) := by
  unfold declareArray
  apply (renamed_arrayElements name items).accept
  rintro ⟨values, inner⟩
  apply (renamed_stage hr values).bind
  rintro ⟨kinds, code⟩
  simp only [Expr.length_renameAll]
  cases commonKind kinds with
  | none => exact renamed_refuse _
  | some kind =>
    exact (renamed_bindComposite hr name kinds _ fun _ => rfl).bind fun _ => renamed_pure _

theorem renamed_declareTuple (name : String) (items : List Expr) :
    Renamed r (declareTuple name items) (declareTuple (r name) (Expr.renameAll r items)) := by
  have hany : (Expr.renameAll r items).any Expr.isComposite = items.any Expr.isComposite := by
    simp [Expr.renameAll_eq, Function.comp_def]
  unfold declareTuple
  rw [hany]
  split
  · exact renamed_refuse _
  · exact (renamed_stage hr items).bind fun _ =>
      (renamed_bindComposite hr name _ _ fun _ => rfl).bind fun _ => renamed_pure _

theorem renamed_declareDict (name : String) (entries : List (Expr × Expr)) :
    Renamed r (declareDict name entries) (declareDict (r name) (Expr.renameEntries r entries)) := by
  unfold declareDict
  apply (renamed_dictFields name [] entries).accept
  intro fields
  have hvalues : (fields.map (FieldLiteral.rename r)).flatMap FieldLiteral.values =
      Expr.renameAll r (fields.flatMap FieldLiteral.values) := by
    simp [List.flatMap_map, FieldLiteral.values_rename, Expr.renameAll_eq, List.map_flatMap]
  rw [hvalues]
  apply (renamed_stage hr _).bind
  rintro ⟨kinds, code⟩
  apply (renamed_fieldShapes name kinds fields).accept
  intro shapes
  exact (renamed_bindComposite hr name kinds _ fun _ => rfl).bind fun _ => renamed_pure _

theorem enumOf?_rename (s : Scope) (e : Expr) :
    enumOf? (s.rename r) (e.rename r) = (enumOf? s e).map r := by
  cases e with
  | var name =>
    simp only [Expr.rename, enumOf?, s.shape?_rename hr]
    cases s.shape? name with
    | none => rfl
    | some p =>
      obtain ⟨slot, shape⟩ := p
      cases shape <;> rfl
  | index target position =>
    cases target with
    | var name =>
      cases position with
      | str key =>
        simp only [Expr.rename, enumOf?, s.enum?_rename hr]
        split <;> rfl
      | _ => rfl
    | _ => rfl
  | _ => rfl

theorem renamed_declareScalar (name : String) (e : Expr) :
    Renamed r (declareScalar name e) (declareScalar (r name) (e.rename r)) := by
  apply renamed_get
  intro s
  rw [enumOf?_rename hr]
  apply (renamed_value hr e).bind
  intro value
  cases enumOf? s e with
  | none => exact (renamed_assign hr name (.scalar value.kind)).bind fun _ => renamed_pure _
  | some enum => exact (renamed_assign hr name (.enumCase enum)).bind fun _ => renamed_pure _

theorem renamed_declare (name : String) (e : Expr) :
    Renamed r (declare name e) (declare (r name) (e.rename r)) := by
  cases e with
  | array items => exact renamed_declareArray hr name items
  | tuple items => exact renamed_declareTuple hr name items
  | dict entries => exact renamed_declareDict hr name entries
  | _ => exact renamed_declareScalar hr name _

/-! ## Print statements -/

omit hr

theorem renamed_countedLoop (counter stop : Slot) {body body' : Lowering Code}
    (h : Renamed r body body') :
    Renamed r (countedLoop counter stop body) (countedLoop counter stop body') :=
  (renamed_newLabel _).bind fun _ => (renamed_newLabel _).bind fun _ => h.bind fun _ =>
    renamed_pure _

theorem renamed_printSeparator (counter : Slot) :
    Renamed r (printSeparator counter) (printSeparator counter) :=
  (renamed_newLabel _).bind fun _ => renamed_pure _

theorem renamed_printArray (view : ArrayView) (row : Option Slot) (before after : String) :
    Renamed r (printArray view row before after) (printArray view row before after) := by
  unfold printArray
  split
  · exact renamed_pure _
  · refine (renamed_scratchSlots 4).bind fun slots =>
      (renamed_countedLoop _ _ ?_).bind fun _ => renamed_pure _
    exact (renamed_printSeparator _).bind fun _ => renamed_pure _

theorem renamed_printRows (layout : ArrayLayout) (columns : Nat) :
    Renamed r (printRows layout columns) (printRows layout columns) := by
  unfold printRows
  split
  · exact renamed_pure _
  · refine (renamed_scratchSlots 4).bind fun slots =>
      (renamed_countedLoop _ _ ?_).bind fun _ => renamed_pure _
    exact (renamed_printSeparator _).bind fun _ => (renamed_printArray _ _ _ _).bind fun _ =>
      renamed_pure _

theorem renamed_printFields (fields : List (Field × Nat)) :
    Renamed r (printFields fields) (printFields fields) := by
  induction fields with
  | nil => exact renamed_pure _
  | cons entry rest ih =>
    obtain ⟨f, i⟩ := entry
    rw [printFields]
    split
    · exact ih.bind fun _ => renamed_pure _
    · exact (renamed_printArray _ _ _ _).bind fun _ => ih.bind fun _ => renamed_pure _

theorem renamed_printComposite (shape : Shape) :
    Renamed r (printComposite shape) (printComposite (shape.rename r)) := by
  cases shape with
  | scalar | enumCase => exact renamed_fail _
  | tuple elements => exact renamed_pure _
  | array layout =>
    simp only [Shape.rename, printComposite]
    cases layout.inner with
    | none => exact renamed_printArray _ _ _ _
    | some columns => exact renamed_printRows _ _
  | dict fields =>
    simp only [Shape.rename, printComposite, printDict]
    split
    · exact renamed_pure _
    · exact renamed_printFields _

include hr

theorem renamed_printRow (layout : ArrayLayout) (columns : Nat) (position : Expr) :
    Renamed r (printRow layout columns position) (printRow layout columns (position.rename r)) := by
  apply (renamed_value hr position).bind
  intro value
  cases h : indexCode value with
  | error e =>
    have hfail := renamed_fail (r := r) (α := Code) e
    rwa [(renamed_indexCode value).error_eq h] at hfail
  | ok code =>
    exact (renamed_scratchSlots 5).bind fun _ =>
      (renamed_printArray _ _ _ _).bind fun _ => renamed_pure _

theorem renamed_interpolate (s : Scope) (k : Nat) (parts : List Part) :
    RenamedLiteral r id (interpolate s k parts)
      (interpolate (s.rename r) k (parts.map (Part.rename r))) := by
  induction parts generalizing k with
  | nil => rfl
  | cons part rest ih =>
    cases part with
    | text source => exact (ih k).bind fun _ => rfl
    | var name =>
      simp only [List.map_cons, Part.rename, interpolate, s.shape?_rename hr]
      cases s.shape? name with
      | none => rfl
      | some p =>
        simp only [Option.map_some, Shape.scalar?_rename]
        cases p.2.scalar? with
        | none => rfl
        | some kind => exact (ih (k + 1)).bind fun _ => rfl

theorem renamed_printInterpolation (parts : List Part) :
    Renamed r (printInterpolation parts) (printInterpolation (parts.map (Part.rename r))) := by
  have hcount : (parts.map (Part.rename r)).countP isVar = parts.countP isVar := by
    rw [List.countP_map]
    congr 1
    funext part
    cases part <;> rfl
  unfold printInterpolation
  rw [hcount]
  split
  · exact renamed_fail _
  · apply renamed_get
    intro s
    rw [(renamed_interpolate hr s 0 parts : _ = _)]
    cases interpolate s 0 parts with
    | error c => exact renamed_refuse c
    | ok p => exact renamed_pure _

theorem renamed_printValue (e : Expr) : Renamed r (printValue e) (printValue (e.rename r)) :=
  (renamed_value hr e).bind fun _ => renamed_pure _

theorem renamed_printVariable (name : String) :
    Renamed r (printVariable name) (printVariable (r name)) := by
  apply renamed_get
  intro s
  rw [s.shape?_rename hr, s.enums_rename hr]
  cases s.shape? name with
  | none =>
    cases s.enums.get? name with
    | none => exact renamed_refuse _
    | some cases => exact renamed_pure _
  | some p =>
    obtain ⟨slot, shape⟩ := p
    simp only [Option.map_some, Shape.scalar?_rename]
    cases shape.scalar? with
    | some kind => exact renamed_pure _
    | none => exact renamed_printComposite shape

theorem renamed_printElement (name : String) (position : Expr) :
    Renamed r (printElement name position) (printElement (r name) (position.rename r)) := by
  have hvalue := renamed_printValue hr (.index (.var name) position)
  apply renamed_get
  intro s
  rw [s.shape?_rename hr, (renamed_arrayView hr s name position : _ = _)]
  cases arrayView s name position with
  | error e => exact renamed_fail e
  | ok view =>
    cases view with
    | some view => exact renamed_printArray _ _ _ _
    | none =>
      simp only [Except.mapError]
      cases s.shape? name with
      | none => exact hvalue
      | some p =>
        obtain ⟨slot, shape⟩ := p
        cases shape with
        | scalar | enumCase | tuple | dict => exact hvalue
        | array layout =>
          simp only [Option.map_some, Shape.rename]
          cases layout.inner with
          | none => exact hvalue
          | some columns => exact renamed_printRow hr _ _ _

theorem renamed_print (e : Expr) : Renamed r (print e) (print (e.rename r)) := by
  cases e with
  | interpolation parts => exact renamed_printInterpolation hr parts
  | var name => exact renamed_printVariable hr name
  | index target position =>
    cases target with
    | var name => exact renamed_printElement hr name position
    | _ => exact renamed_printValue hr _
  | _ => exact renamed_printValue hr _

/-! ## Statements -/

theorem renamed_declareEnum (name : String) (cases : List String) :
    Renamed r (declareEnum name cases) (declareEnum (r name) cases) := by
  intro s
  have henums : (s.enums.rename r id).set (r name) cases = (s.enums.set name cases).rename r id :=
    Bindings.set_rename hr id s.enums name cases
  simp [declareEnum, Scope.rename, henums, Except.map, Except.mapError]

theorem renamed_jumpUnless (target : Label) (e : Expr) :
    Renamed r (jumpUnless target e) (jumpUnless target (e.rename r)) := by
  have hplain (e : Expr) : Renamed r (jumpIfFalse e target) (jumpIfFalse (e.rename r) target) :=
    (renamed_value hr e).bind fun _ => renamed_pure _
  cases e with
  | binary op lhs rhs =>
    simp only [Expr.rename, jumpUnless]
    split
    · refine (renamed_value hr lhs).bind fun left => (renamed_value hr rhs).bind fun right => ?_
      cases h : comparison op left right with
      | error e =>
        have hfail := renamed_fail (r := r) (α := Code) e
        rwa [(renamed_comparison op left right).error_eq h] at hfail
      | ok p => exact renamed_pure _
    · exact hplain (.binary op lhs rhs)
  | _ => exact hplain _

theorem renamed_integer (e : Expr) {otherwise otherwise' : Scalar → Construct}
    (h : ∀ kind, otherwise' kind = (otherwise kind).rename r) :
    Renamed r (integer e otherwise) (integer (e.rename r) otherwise') := by
  apply (renamed_value hr e).bind
  intro value
  cases value.kind with
  | int => exact renamed_pure _
  | _ =>
    simp only [h]
    exact renamed_refuse _

theorem renamed_loop (var : String) (start stop : Expr) {body body' : Lowering Code}
    (h : Renamed r body body') :
    Renamed r (loop var start stop body) (loop (r var) (start.rename r) (stop.rename r) body') :=
  (renamed_integer hr start fun _ => rfl).bind fun _ =>
    (renamed_assign hr var (.scalar .int)).bind fun _ =>
    (renamed_integer hr stop fun _ => rfl).bind fun _ => renamed_hidden.bind fun _ =>
    (renamed_countedLoop _ _ h).bind fun _ => renamed_pure _

theorem renamed_ret (e : Expr) : Renamed r (ret e) (ret (e.rename r)) := by
  apply renamed_get
  intro s
  have hreturn : (s.rename r).returnTo = s.returnTo := rfl
  rw [hreturn]
  cases s.returnTo with
  | none => exact renamed_refuse _
  | some label => exact (renamed_integer hr e fun _ => rfl).bind fun _ => renamed_pure _

omit hr

mutual

theorem renamed_stmt (hr : Function.Injective r) (st : Stmt) :
    Renamed r (stmt st) (stmt (st.rename r)) := by
  match st with
  | .print value => exact renamed_print hr value
  | .decl name value => exact renamed_declare hr name value
  | .loop var (.counted start stop) body =>
    exact renamed_loop hr var start stop (renamed_block hr body)
  | .loop _ (.collection _) _ | .loop _ (.condition _) _ => exact renamed_refuse _
  | .cond test thenBody none =>
    exact (renamed_newLabel _).bind fun otherwise => (renamed_jumpUnless hr otherwise test).bind
      fun _ => (renamed_block hr thenBody).bind fun _ => renamed_pure _
  | .cond test thenBody (some elseBody) =>
    exact (renamed_newLabel _).bind fun otherwise => (renamed_jumpUnless hr otherwise test).bind
      fun _ => (renamed_block hr thenBody).bind fun _ => (renamed_newLabel _).bind fun _ =>
      (renamed_block hr elseBody).bind fun _ => renamed_pure _
  | .ret value => exact renamed_ret hr value
  | .enum name cases => exact renamed_declareEnum hr name cases
  | .expr value => exact (renamed_value hr value).bind fun _ => renamed_pure _
  | .func _ _ _ | .tryCatch _ _ | .throw _ => exact renamed_refuse _

theorem renamed_block (hr : Function.Injective r) (body : List Stmt) :
    Renamed r (block body) (block (Stmt.renameAll r body)) := by
  match body with
  | [] => exact renamed_pure _
  | st :: rest =>
    exact (renamed_stmt hr st).bind fun _ => (renamed_block hr rest).bind fun _ => renamed_pure _

end

/-! ## Programs -/

end Lower

def Session.rename (r : String → String) (s : Session) : Session :=
  ⟨s.functions.rename r id, s.enums.rename r id, s.labels, s.current.map (Activation.rename r)⟩

namespace SessionM

/-- On the renamed session, the second step does what the first does on the session itself. -/
def Renamed (r : String → String) (x x' : SessionM α) : Prop :=
  ∀ s, x' (s.rename r) =
    ((x s).map fun p => (p.1, p.2.rename r)).mapError (LowerError.rename r)

theorem Renamed.bind {x x' : SessionM α} {f f' : α → SessionM β} (hx : Renamed r x x')
    (hf : ∀ a, Renamed r (f a) (f' a)) : Renamed r (x >>= f) (x' >>= f') := by
  intro s
  change (x' (s.rename r) >>= fun p => f' p.1 p.2) =
    ((x s >>= fun p => f p.1 p.2).map _).mapError _
  rw [hx s]
  cases x s with
  | error e => rfl
  | ok p => exact hf p.1 p.2

theorem renamed_pure (a : α) : Renamed r (pure a : SessionM α) (pure a) := fun _ => rfl

theorem renamed_openFrame (inFunction : Bool) :
    Renamed r (openFrame inFunction) (openFrame inFunction) := fun _ => rfl

theorem renamed_inFrame {x x' : Lowering α} (hx : Lowering.Renamed r x x') :
    Renamed r (inFrame x) (inFrame x') := by
  rintro ⟨functions, enums, labels, _ | activation⟩
  · rfl
  · have hstep := hx ⟨activation, functions, enums, labels⟩
    change (x' (Scope.rename r ⟨activation, functions, enums, labels⟩) >>= _) = _
    rw [hstep]
    change _ = Except.mapError _ (Except.map _ (x ⟨activation, functions, enums, labels⟩ >>= _))
    cases x ⟨activation, functions, enums, labels⟩ <;> rfl

/-- What follows may depend on the label of the end, and not on names in the frame. -/
theorem renamed_closeFrame {f f' : Activation → SessionM α}
    (hf : ∀ a, Renamed r (f a) (f' (a.rename r))) :
    Renamed r (closeFrame >>= f) (closeFrame >>= f') := by
  rintro ⟨functions, enums, labels, _ | activation⟩
  · rfl
  · exact hf activation ⟨functions, enums, labels, none⟩

include hr

theorem renamed_declared (name : String) : Renamed r (declared name) (declared (r name)) := by
  intro s
  have hcallee : (s.rename r).functions.get? (r name) = s.functions.get? name := by
    rw [Session.rename, Bindings.get?_rename hr, Option.map_id]
    rfl
  unfold declared
  rw [hcallee]
  cases s.functions.get? name <;> rfl

end SessionM

namespace Lower

open Asm (Label)
open Lowering

def Declared.rename (r : String → String) (d : Declared) : Declared :=
  { d with
    functions := d.functions.rename r fun p => (p.1, p.2.rename r)
    enums := d.enums.rename r id }

theorem Declared.session_rename (d : Declared) : (d.rename r).session = d.session.rename r := by
  simp [session, rename, Session.rename, Bindings.rename, Function.rename, Function.comp_def]

theorem Declared.bodies_rename (d : Declared) :
    (d.rename r).bodies = d.bodies.map fun f => (r f.1, f.2.rename r) := by
  simp [bodies, rename, Bindings.rename, Function.comp_def]

theorem isFunction_rename (st : Stmt) : isFunction (st.rename r) = isFunction st := by
  cases st with
  | cond test thenBody elseBody => cases elseBody <;> rfl
  | _ => rfl

theorem filter_renameAll (statements : List Stmt) :
    (Stmt.renameAll r statements).filter (fun st => !isFunction st) =
      Stmt.renameAll r (statements.filter fun st => !isFunction st) := by
  induction statements with
  | nil => rfl
  | cons st rest ih =>
    cases h : isFunction st <;> simp [Stmt.renameAll, isFunction_rename, h, ih]

include hr

theorem Declared.function_rename (d : Declared) (name : String) (f : Function) :
    (d.rename r).function (r name) (f.rename r) = (d.function name f).rename r := by
  have hset (label : Label) := Bindings.set_rename hr
    (fun p : Label × Function => (p.1, p.2.rename r)) d.functions name (label, f)
  simp only [Declared.function, rename, Bindings.get?_rename hr]
  cases d.functions.get? name with
  | none => simp only [Option.map_none, ← hset]
  | some p => simp only [Option.map_some, ← hset]

theorem Declared.stmt_rename (d : Declared) (st : Stmt) :
    (d.rename r).stmt (st.rename r) =
      ((d.stmt st).map (rename r)).mapError (LowerError.rename r) := by
  cases st with
  | func name params body =>
    simp only [Stmt.rename, Declared.stmt, List.length_map]
    split
    · rfl
    · exact congrArg Except.ok (d.function_rename hr name ⟨params, body⟩)
  | enum name cases =>
    have hset := Bindings.set_rename hr id d.enums name cases
    simp only [id] at hset
    simp [Stmt.rename, Declared.stmt, rename, hset, Except.map, Except.mapError]
  | cond test thenBody elseBody => cases elseBody <;> rfl
  | _ => rfl

theorem Declared.foldlM_rename (d : Declared) (statements : List Stmt) :
    (Stmt.renameAll r statements).foldlM stmt (d.rename r) =
      ((statements.foldlM stmt d).map (rename r)).mapError (LowerError.rename r) := by
  induction statements generalizing d with
  | nil => rfl
  | cons st rest ih =>
    rw [Stmt.renameAll, List.foldlM_cons, List.foldlM_cons, d.stmt_rename hr]
    cases d.stmt st with
    | error e => rfl
    | ok d₁ => exact ih d₁

theorem Declared.ofStatements_rename (statements : List Stmt) :
    ofStatements (Stmt.renameAll r statements) =
      ((ofStatements statements).map (rename r)).mapError (LowerError.rename r) :=
  foldlM_rename hr none statements

theorem renamed_parameters (i : Nat) (params : List String) :
    Renamed r (parameters i params) (parameters i (params.map r)) := by
  induction params generalizing i with
  | nil => exact renamed_pure _
  | cons param rest ih =>
    exact (renamed_assign hr param (.scalar .int)).bind fun _ => (ih (i + 1)).bind fun _ =>
      renamed_pure _

theorem renamed_function (name : String) (f : Function) :
    SessionM.Renamed r (function name f) (function (r name) (f.rename r)) :=
  (SessionM.renamed_declared hr name).bind fun _ => (SessionM.renamed_openFrame true).bind fun _ =>
    (SessionM.renamed_inFrame (renamed_parameters hr 0 f.params)).bind fun _ =>
      (SessionM.renamed_inFrame (renamed_block hr f.body)).bind fun _ =>
        SessionM.renamed_closeFrame fun _ => SessionM.renamed_pure _

theorem renamed_functions (fs : List (String × Function)) :
    SessionM.Renamed r (functions fs) (functions (fs.map fun f => (r f.1, f.2.rename r))) := by
  induction fs with
  | nil => exact SessionM.renamed_pure _
  | cons f rest ih =>
    exact (renamed_function hr f.1 f.2).bind fun _ => ih.bind fun _ => SessionM.renamed_pure _

theorem renamed_mainBody (statements : List Stmt) :
    SessionM.Renamed r (mainBody statements) (mainBody (Stmt.renameAll r statements)) := by
  unfold mainBody
  rw [filter_renameAll]
  exact (SessionM.renamed_openFrame false).bind fun _ =>
    (SessionM.renamed_inFrame (renamed_block hr _)).bind fun _ =>
      SessionM.renamed_closeFrame fun _ => SessionM.renamed_pure _

end Lower

/-- The same error about other names. -/
def CompileError.rename (r : String → String) : CompileError → CompileError
  | unsupported c => unsupported (c.rename r)
  | exhausted resource => exhausted resource
  | internal defect => internal defect

namespace Program

open Lowering

include hr

theorem lower_rename (p : Program) :
    (p.rename r).lower = p.lower.mapError (LowerError.rename r) := by
  unfold lower rename
  rw [Lower.Declared.ofStatements_rename hr]
  cases Lower.Declared.ofStatements p.statements with
  | error e => rfl
  | ok d =>
    have hbodies := (Lower.renamed_functions hr d.bodies).bind fun first =>
      (Lower.renamed_mainBody hr p.statements).bind fun last => SessionM.renamed_pure (first ++ last)
    have hlowered := hbodies d.session
    rw [← d.bodies_rename, ← d.session_rename] at hlowered
    simp only [Except.map, Except.mapError, Except.bind, Bind.bind] at hlowered ⊢
    rw [hlowered]
    generalize StateT.bind (Lower.functions d.bodies) _ d.session = lowered
    cases lowered <;> rfl

theorem image_rename (p : Program) :
    (p.rename r).image = p.image.mapError (CompileError.rename r) := by
  unfold image
  rw [lower_rename hr]
  cases hlower : p.lower with
  | error e =>
    cases e with
    | internal defect => exact absurd hlower (Lower.faultless_lower p defect)
    | _ => rfl
  | ok listing =>
    change listing.assemble.mapError _ = (listing.assemble.mapError _).mapError _
    cases listing.assemble <;> rfl

end Program

/-- Compilation only compares names. A program whose names are changed one for one has the same
image or none: then it fails in the same way, and the message differs at most in the names. -/
theorem Program.image_renamed (r : String → String) (hr : Function.Injective r) (p : Program) :
    (∀ image, (p.rename r).image = .ok image ↔ p.image = .ok image) ∧
    (∀ c, (p.rename r).image = .error (.unsupported c) ↔
      ∃ c', c = c'.rename r ∧ p.image = .error (.unsupported c')) ∧
    (∀ resource, (p.rename r).image = .error (.exhausted resource) ↔
      p.image = .error (.exhausted resource)) ∧
    ∀ defect, (p.rename r).image = .error (.internal defect) ↔
      p.image = .error (.internal defect) := by
  rw [image_rename hr]
  cases p.image with
  | ok image => simp [Except.mapError]
  | error e => cases e <;> simp [Except.mapError, CompileError.rename, eq_comm]

/-- A function with two parameters of one name is defined again, and a variable hides an enum. -/
def homonyms : Program where
  statements :=
    [.enum "color" ["Red", "Green"],
      .func "f" ["x", "x"] [.ret (.var "x")],
      .func "f" ["color", "x"] [.ret (.binary .add (.var "color") (.var "x"))],
      .print (.index (.var "color") (.str "Green")),
      .decl "color" (.call "f" [.int 2, .int 3]),
      .loop "x" (.counted (.int 0) (.var "color")) [.print (.call "f" [.var "x", .var "color"])],
      .print (.interpolation [.text "color: ", .var "color"])]

/-- The names `f` and `color` change places. -/
def exchanged : Program where
  statements :=
    [.enum "f" ["Red", "Green"],
      .func "color" ["x", "x"] [.ret (.var "x")],
      .func "color" ["f", "x"] [.ret (.binary .add (.var "f") (.var "x"))],
      .print (.index (.var "f") (.str "Green")),
      .decl "f" (.call "color" [.int 2, .int 3]),
      .loop "x" (.counted (.int 0) (.var "f")) [.print (.call "color" [.var "x", .var "f"])],
      .print (.interpolation [.text "color: ", .var "f"])]

theorem homonyms_renamed :
    homonyms.rename (Equiv.swap "f" "color") = exchanged ∧
    ∃ image, homonyms.image = .ok image ∧ exchanged.image = .ok image := by
  have hexchanged : homonyms.rename (Equiv.swap "f" "color") = exchanged := by
    simp [homonyms, exchanged, Program.rename, Stmt.renameAll, Stmt.rename, Range.rename,
      Expr.rename, Expr.renameAll, Part.rename, Equiv.swap_apply_def]
  obtain ⟨hsame, -⟩ := Program.image_renamed _ (Equiv.swap "f" "color").injective homonyms
  obtain ⟨image, h⟩ := Lower.exists_image_of_small homonyms (by decide +kernel)
  rw [hexchanged] at hsame
  exact ⟨hexchanged, image, h, (hsame image).2 h⟩

end Armature
