import Armature.Proofs.Literals
import Armature.Proofs.Slots
import Armature.Proofs.Steps

/-!
# What statements are made of

Declarations and loops take slots, and the shape of a composite fits those that are taken for it. A
property that all such steps have, and steps one after the other, is one of all statements.
-/

namespace Armature

open Asm (Code)

/-! ## Shapes of composites -/

namespace Lower

theorem length_arrayElements {name : String} {items values : List Expr} {inner : Option Nat}
    (h : arrayElements name items = .ok (values, inner)) :
    items.length * inner.getD 1 = values.length := by
  obtain ⟨rfl, rfl⟩ | ⟨columns, rfl, hall, hgrid⟩ := arrayElements_ok h
  · simp
  · obtain ⟨rows, rfl, rfl, hrows⟩ := gridElements_ok hgrid hall
    clear hgrid hall h
    induction rows with
    | nil => simp
    | cons row rest ih =>
      rw [List.forall_mem_cons] at hrows
      have hrest := ih hrows.2
      simp only [List.map_cons, List.length_cons, List.flatten_cons, List.length_append,
        Option.getD_some] at hrest ⊢
      rw [Nat.succ_mul, hrest, hrows.1, Nat.add_comm]

theorem cells_tuple (base : Slot) (kinds : List Scalar) :
    Shape.cells base (.tuple (kinds.zipIdx.map fun (kind, i) => (base.nth i, kind))) =
      base.run kinds.length := by
  rw [Shape.cells, List.map_map, Slot.run, List.range_eq_range', ← List.zipIdx_map_snd 0 kinds,
    List.map_map]
  rfl

theorem cells_placeFields (base : Slot) (shapes : List (String × FieldShape)) :
    Shape.cells base (.dict (placeFields base shapes)) =
      base.run (shapes.map (·.2.span)).sum := by
  rw [Shape.cells]
  induction shapes generalizing base with
  | nil => rfl
  | cons entry rest ih =>
    obtain ⟨key, shape⟩ := entry
    rw [placeFields, List.flatMap_cons, ih, List.map_cons, List.sum_cons, Slot.run_add]

theorem span_fieldShapes {name : String} {kinds : List Scalar} {fields : List FieldLiteral}
    {shapes : List (String × FieldShape)} (h : fieldShapes name kinds fields = .ok shapes) :
    (shapes.map (·.2.span)).sum = (fields.flatMap FieldLiteral.values).length := by
  induction fields generalizing kinds shapes with
  | nil =>
    cases h
    rfl
  | cons f rest ih =>
    obtain ⟨kind, shapes', -, hrest, rfl⟩ := fieldShapes_cons h
    rw [List.map_cons, List.sum_cons, ih hrest, List.flatMap_cons, List.length_append]
    obtain ⟨key, e | items⟩ := f
    · rfl
    · rfl

theorem length_stage {values : List Expr} {kinds : List Scalar} {code : Code} {s s' : Scope}
    (h : stage values s = .ok ((kinds, code), s')) : kinds.length = values.length := by
  have hkinds := congrArg List.length (stage_kinds h)
  simpa using hkinds.symm

/-- Slots are asked for and given to the variable at once. -/
theorem bindComposite_eq (name : String) (kinds : List Scalar) (shape : Slot → Shape) :
    bindComposite name kinds shape =
      (do return unstage (← Lowering.take (·.place name kinds.length shape)) kinds) := by
  funext s
  simp only [bindComposite, Lowering.take, Frame.place, Bind.bind, StateT.bind]
  rcases s.frame.spanFor name kinds.length with ⟨r | ⟨base, span⟩, f⟩ <;> rfl

end Lower

/-! ## Steps -/

namespace Lowering

/-- The property holds of all steps that statements are made of. -/
structure Declaring (Q : ∀ α : Type, Lowering α → Prop) : Prop extends Scribbling Q where
  assign (name : String) {shape : Shape} :
    shape.scalar?.isSome → Q Slot (take (·.assign name shape))
  place (name : String) {count : Nat} {shape : Slot → Shape} :
    (∀ base, (shape base).cells base = base.run count) → Q Slot (take (·.place name count shape))
  hidden : Q Slot (take (·.hidden))
  enum (name : String) (cases : List String) : Q Code (Lower.declareEnum name cases)

end Lowering

namespace Lowering.Declaring

open Lower

variable {Q : ∀ α : Type, Lowering α → Prop} (hQ : Declaring Q)

include hQ

theorem accept {α : Type} (x : Except Construct α) : Q α (accept x) := by
  cases x with
  | error c => exact hQ.refuse c
  | ok a => exact hQ.pure a

theorem stage (values : List Expr) : Q (List Scalar × Code) (stage values) := by
  induction values with
  | nil => exact hQ.pure _
  | cons e rest ih => exact hQ.value e fun _ => hQ.bind ih fun _ => hQ.pure _

theorem bindComposite (name : String) (kinds : List Scalar) {shape : Slot → Shape}
    (hshape : ∀ base, (shape base).cells base = base.run kinds.length) :
    Q Code (bindComposite name kinds shape) := by
  rw [bindComposite_eq]
  exact hQ.bind (hQ.place name hshape) fun _ => hQ.pure _

theorem declareArray (name : String) (items : List Expr) : Q Code (declareArray name items) := by
  refine hQ.seq (hQ.accept _) ?_
  rintro ⟨values, inner⟩ ⟨_, _, haccept⟩
  obtain ⟨hvalues, -⟩ := (accept_ok _ _ _ _).mp haccept
  refine hQ.seq (hQ.stage values) ?_
  rintro ⟨kinds, code⟩ ⟨_, _, hstage⟩
  have hlength : items.length * inner.getD 1 = kinds.length := by
    rw [length_arrayElements hvalues, length_stage hstage]
  cases hkind : commonKind kinds with
  | none =>
    simp only [hkind]
    exact hQ.refuse _
  | some kind =>
    simp only [hkind]
    refine hQ.bind (hQ.bindComposite name kinds fun base => ?_) fun _ => hQ.pure _
    rw [Shape.cells, hlength]

theorem declareTuple (name : String) (items : List Expr) : Q Code (declareTuple name items) := by
  unfold Lower.declareTuple
  split
  · exact hQ.refuse _
  · refine hQ.bind (hQ.stage items) ?_
    rintro ⟨kinds, code⟩
    exact hQ.bind (hQ.bindComposite name kinds fun base => cells_tuple base kinds) fun _ =>
      hQ.pure _

theorem declareDict (name : String) (entries : List (Expr × Expr)) :
    Q Code (declareDict name entries) := by
  refine hQ.bind (hQ.accept _) fun fields => hQ.seq (hQ.stage _) ?_
  rintro ⟨kinds, code⟩ ⟨_, _, hstage⟩
  refine hQ.seq (hQ.accept _) ?_
  rintro shapes ⟨_, _, haccept⟩
  obtain ⟨hshapes, -⟩ := (accept_ok _ _ _ _).mp haccept
  refine hQ.bind (hQ.bindComposite name kinds fun base => ?_) fun _ => hQ.pure _
  rw [cells_placeFields, span_fieldShapes hshapes, length_stage hstage]

theorem declareScalar (name : String) (e : Expr) : Q Code (declareScalar name e) := by
  refine hQ.get fun s => hQ.value e fun value => ?_
  refine hQ.bind (hQ.assign name ?_) fun _ => hQ.pure _
  cases enumOf? s e with
  | none => rfl
  | some enum => rfl

theorem declare (name : String) (e : Expr) : Q Code (declare name e) := by
  cases e with
  | array items => exact hQ.declareArray name items
  | tuple items => exact hQ.declareTuple name items
  | dict entries => exact hQ.declareDict name entries
  | _ => exact hQ.declareScalar name _

theorem integer (e : Expr) (otherwise : Scalar → Construct) : Q Code (integer e otherwise) := by
  refine hQ.value e fun value => ?_
  split
  · exact hQ.pure _
  · exact hQ.refuse _

theorem loop (var : String) (start stop : Expr) {body : Lowering Code} (h : Q Code body) :
    Q Code (loop var start stop body) :=
  hQ.bind (hQ.integer start _) fun _ => hQ.bind (hQ.assign var rfl) fun _ =>
    hQ.bind (hQ.integer stop _) fun _ => hQ.bind hQ.hidden fun _ =>
      hQ.bind (hQ.countedLoop _ _ h) fun _ => hQ.pure _

theorem jumpIfFalse (e : Expr) (target : Asm.Label) : Q Code (jumpIfFalse e target) :=
  hQ.value e fun _ => hQ.pure _

/-- Only comparisons are lowered as such. -/
theorem jumpUnless (target : Asm.Label) (e : Expr) : Q Code (jumpUnless target e) := by
  cases e with
  | binary op lhs rhs =>
    rw [Lower.jumpUnless]
    split
    · rename_i hop
      refine hQ.value lhs fun left => hQ.value rhs fun right => ?_
      split
      · rename_i e he
        exact hQ.fail ((faultless_comparison hop left right).ne_internal he)
      · exact hQ.pure _
    · exact hQ.jumpIfFalse _ target
  | _ => exact hQ.jumpIfFalse _ target

theorem ret (e : Expr) : Q Code (ret e) := by
  refine hQ.get fun s => ?_
  split
  · exact hQ.refuse _
  · exact hQ.bind (hQ.integer e _) fun _ => hQ.pure _

mutual

theorem stmt (st : Stmt) : Q Code (stmt st) := by
  match st with
  | .print e =>
    rw [Lower.stmt]
    exact hQ.print e
  | .decl name e =>
    rw [Lower.stmt]
    exact hQ.declare name e
  | .loop var (.counted start stop) body =>
    rw [Lower.stmt]
    exact hQ.loop var start stop (block body)
  | .cond test thenBody none =>
    rw [Lower.stmt]
    exact hQ.newLabel _ fun _ => hQ.bind (hQ.jumpUnless _ test) fun _ =>
      hQ.bind (block thenBody) fun _ => hQ.pure _
  | .cond test thenBody (some elseBody) =>
    rw [Lower.stmt]
    exact hQ.newLabel _ fun _ => hQ.bind (hQ.jumpUnless _ test) fun _ =>
      hQ.bind (block thenBody) fun _ => hQ.newLabel _ fun _ =>
        hQ.bind (block elseBody) fun _ => hQ.pure _
  | .ret e =>
    rw [Lower.stmt]
    exact hQ.ret e
  | .enum name cases =>
    rw [Lower.stmt]
    exact hQ.enum name cases
  | .expr e =>
    rw [Lower.stmt]
    exact hQ.value e fun _ => hQ.pure _
  | .loop _ (.collection _) _ | .loop _ (.condition _) _ | .func .. | .tryCatch .. | .throw _ =>
    rw [Lower.stmt]
    exact hQ.refuse _

theorem block (body : List Stmt) : Q Code (block body) := by
  match body with
  | [] =>
    rw [Lower.block]
    exact hQ.pure _
  | st :: rest =>
    rw [Lower.block]
    exact hQ.bind (stmt st) fun _ => hQ.bind (block rest) fun _ => hQ.pure _

end

theorem parameters (i : Nat) (params : List String) : Q Code (parameters i params) := by
  induction params generalizing i with
  | nil => exact hQ.pure _
  | cons param rest ih =>
    exact hQ.bind (hQ.assign param rfl) fun _ => hQ.bind (ih (i + 1)) fun _ => hQ.pure _

end Lowering.Declaring

end Armature
