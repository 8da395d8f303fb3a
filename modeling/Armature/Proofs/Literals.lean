import Armature.Proofs.Kinds

/-!
# Values that variables are bound to

What shape a declaration gives to its variable, and that the value it binds is of that shape.
-/

namespace Armature

namespace Lower

open Asm (Code)

/-! ## Shapes of declared variables -/

/-- The kind of the code of an expression. -/
def kindOf (s : Scope) (e : Expr) : Option Scalar :=
  match expr s 0 e with
  | .ok c => some c.kind
  | .error _ => none

theorem kindOf_eq {s : Scope} {e : Expr} {kind : Scalar} :
    kindOf s e = some kind ↔ ∃ c, expr s 0 e = .ok c ∧ c.kind = kind := by
  unfold kindOf
  cases expr s 0 e with
  | ok c => simp
  | error e => simp

def FieldShaped (s : Scope) (e : Expr) : FieldShape → Prop
  | .scalar kind => kindOf s e = some kind
  | .array count kind =>
    ∃ items, e = .array items ∧ items.map (kindOf s) = List.replicate count (some kind)

/-- The fields of a dict literal, each with its key as it is written. -/
inductive FieldsShaped (s : Scope) : List (Expr × Expr) → List Field → Prop
  | nil : FieldsShaped s [] []
  | cons {e : Expr} {f : Field} {entries : List (Expr × Expr)} {fields : List Field} :
    FieldShaped s e f.shape → FieldsShaped s entries fields →
      FieldsShaped s ((.str f.key, e) :: entries) (f :: fields)

/-- How the shape of a variable follows from the expression that it is bound to. -/
inductive Shaped (s : Scope) : Expr → Shape → Prop
  | value {e : Expr} {kind : Scalar} {shape : Shape} :
    kindOf s e = some kind → shape.scalar? = some kind → Shaped s e shape
  | array {items : List Expr} {base : Slot} {count : Nat} {kind : Scalar} :
    items.map (kindOf s) = List.replicate count (some kind) →
      Shaped s (.array items) (.array ⟨base, count, kind, none⟩)
  | rows {rows : List (List Expr)} {base : Slot} {columns : Nat} {kind : Scalar} :
    (∀ row ∈ rows, row.map (kindOf s) = List.replicate columns (some kind)) →
      Shaped s (.array (rows.map .array)) (.array ⟨base, rows.length, kind, some columns⟩)
  | tuple {items : List Expr} {elements : List (Slot × Scalar)} :
    items.map (kindOf s) = (elements.map (·.2)).map some → Shaped s (.tuple items) (.tuple elements)
  | dict {entries : List (Expr × Expr)} {fields : List Field} :
    FieldsShaped s entries fields → Shaped s (.dict entries) (.dict fields)

theorem stage_kinds {values : List Expr} {kinds : List Scalar} {code : Code} {s s' : Scope}
    (h : stage values s = .ok ((kinds, code), s')) : values.map (kindOf s) = kinds.map some := by
  induction values generalizing kinds code with
  | nil =>
    obtain ⟨heq, -⟩ := (Lowering.pure_ok _ _ _ _).mp h
    cases heq
    rfl
  | cons e rest ih =>
    simp only [stage, Lowering.bind_ok, Lowering.value_ok, Lowering.pure_ok] at h
    obtain ⟨c, _, ⟨hc, rfl⟩, ⟨kinds', code'⟩, s₁, hrest, heq, rfl⟩ := h
    cases heq
    rw [List.map_cons, List.map_cons, ih hrest, kindOf_eq.mpr ⟨c, hc, rfl⟩]

theorem commonKind_eq {kinds : List Scalar} {kind : Scalar} (h : commonKind kinds = some kind) :
    kinds = List.replicate kinds.length kind := by
  cases kinds with
  | nil => rfl
  | cons first rest =>
    simp only [commonKind] at h
    split at h
    · rename_i hall
      cases h
      rw [List.eq_replicate_iff]
      refine ⟨rfl, ?_⟩
      intro k hk
      rcases List.mem_cons.mp hk with rfl | hk
      · rfl
      · simpa using List.all_eq_true.mp hall k hk
    · cases h

theorem kinds_replicate {values : List Expr} {kinds : List Scalar} {kind : Scalar} {s : Scope}
    (h : values.map (kindOf s) = kinds.map some) (hkind : commonKind kinds = some kind) :
    values.map (kindOf s) = List.replicate values.length (some kind) := by
  have hlen : values.length = kinds.length := by simpa using congrArg List.length h
  rw [h, commonKind_eq hkind, List.map_replicate, hlen]

theorem gridElements_ok {name : String} {columns : Nat} {items values : List Expr}
    (h : gridElements name columns items = .ok values) (hall : items.all Expr.isArray = true) :
    ∃ rows : List (List Expr), items = rows.map .array ∧ values = rows.flatten ∧
      ∀ row ∈ rows, row.length = columns := by
  induction items generalizing values with
  | nil =>
    cases h
    exact ⟨[], rfl, rfl, by simp⟩
  | cons item rest ih =>
    rw [List.all_cons, Bool.and_eq_true] at hall
    cases item with
    | array row =>
      simp only [gridElements] at h
      split at h
      · cases h
      · rename_i hlen
        split at h
        · cases h
        · simp only [bind_eq_ok] at h
          obtain ⟨values', hrest, h⟩ := h
          cases h
          obtain ⟨rows, rfl, rfl, hrows⟩ := ih hrest hall.2
          refine ⟨row :: rows, rfl, rfl, ?_⟩
          intro row' hrow'
          rcases List.mem_cons.mp hrow' with rfl | hrow'
          · exact Decidable.not_not.mp hlen
          · exact hrows row' hrow'
    | _ => cases hall.1

theorem arrayElements_ok {name : String} {items values : List Expr} {inner : Option Nat}
    (h : arrayElements name items = .ok (values, inner)) :
    (inner = none ∧ values = items) ∨ ∃ columns, inner = some columns ∧
      items.all Expr.isArray = true ∧ gridElements name columns items = .ok values := by
  unfold arrayElements at h
  split at h
  · split at h
    · rename_i row _ hall
      simp only [bind_eq_ok, pure, Except.pure, Except.ok.injEq] at h
      obtain ⟨grid, hgrid, _, rfl, h⟩ := h
      split at h
      · cases h
      · cases h
        exact .inr ⟨row.length, rfl, hall, hgrid⟩
    · simp [bind_eq_ok] at h
  · simp only [bind_eq_ok, pure, Except.pure, Except.ok.injEq] at h
    obtain ⟨_, rfl, h⟩ := h
    split at h
    · cases h
    · cases h
      exact .inl ⟨rfl, rfl⟩

theorem array_shaped {name : String} {items values : List Expr} {inner : Option Nat}
    {kinds : List Scalar} {kind : Scalar} {s : Scope} (base : Slot)
    (hvalues : arrayElements name items = .ok (values, inner))
    (hkinds : values.map (kindOf s) = kinds.map some) (hkind : commonKind kinds = some kind) :
    Shaped s (.array items) (.array ⟨base, items.length, kind, inner⟩) := by
  have hone := kinds_replicate hkinds hkind
  rcases arrayElements_ok hvalues with ⟨rfl, rfl⟩ | ⟨columns, rfl, hall, hgrid⟩
  · exact .array hone
  · obtain ⟨rows, rfl, rfl, hrows⟩ := gridElements_ok hgrid hall
    rw [List.length_map]
    refine .rows fun row hrow => ?_
    rw [List.eq_replicate_iff] at hone ⊢
    refine ⟨by rw [List.length_map, hrows row hrow], ?_⟩
    intro k hk
    obtain ⟨e, he, rfl⟩ := List.mem_map.mp hk
    exact hone.2 _ (List.mem_map_of_mem (List.mem_flatten.mpr ⟨row, hrow, he⟩))

theorem dictFields_cons {name key : String} {seen : List String} {e : Expr}
    {rest : List (Expr × Expr)} {fields : List FieldLiteral}
    (h : dictFields name seen ((.str key, e) :: rest) = .ok fields) :
    ∃ value fields', fields = ⟨key, value⟩ :: fields' ∧
      dictFields name (key :: seen) rest = .ok fields' ∧
      (value = .inl e ∨ ∃ items, value = .inr items ∧ e = .array items) := by
  simp only [dictFields] at h
  split at h
  · cases h
  · split at h
    · rename_i items
      split at h
      · cases h
      · simp only [bind_eq_ok, pure, Except.pure, Except.ok.injEq] at h
        obtain ⟨_, rfl, fields', hrest, rfl⟩ := h
        exact ⟨_, fields', rfl, hrest, .inr ⟨items, rfl, rfl⟩⟩
    · cases h
    · cases h
    · simp only [bind_eq_ok, pure, Except.pure, Except.ok.injEq] at h
      obtain ⟨_, rfl, fields', hrest, rfl⟩ := h
      exact ⟨_, fields', rfl, hrest, .inl rfl⟩

theorem fieldShapes_cons {name : String} {kinds : List Scalar} {f : FieldLiteral}
    {rest : List FieldLiteral} {shapes : List (String × FieldShape)}
    (h : fieldShapes name kinds (f :: rest) = .ok shapes) :
    ∃ kind shapes', commonKind (kinds.take f.values.length) = some kind ∧
      fieldShapes name (kinds.drop f.values.length) rest = .ok shapes' ∧
      shapes = (f.key, if f.value.isLeft then .scalar kind else .array f.values.length kind)
        :: shapes' := by
  simp only [fieldShapes] at h
  split at h
  · rename_i hvalue hkind
    simp only [bind_eq_ok, pure, Except.pure, Except.ok.injEq] at h
    obtain ⟨_, rfl, shapes', hrest, rfl⟩ := h
    exact ⟨_, shapes', hkind, hrest, by simp [hvalue]⟩
  · rename_i hvalue hkind
    simp only [bind_eq_ok, pure, Except.pure, Except.ok.injEq] at h
    obtain ⟨_, rfl, shapes', hrest, rfl⟩ := h
    exact ⟨_, shapes', hkind, hrest, by simp [hvalue]⟩
  · cases h

theorem fields_shaped {name : String} {entries : List (Expr × Expr)} {seen : List String}
    {fields : List FieldLiteral} {kinds : List Scalar} {shapes : List (String × FieldShape)}
    {s : Scope} (base : Slot) (hfields : dictFields name seen entries = .ok fields)
    (hkinds : (fields.flatMap FieldLiteral.values).map (kindOf s) = kinds.map some)
    (hshapes : fieldShapes name kinds fields = .ok shapes) :
    FieldsShaped s entries (placeFields base shapes) := by
  induction entries generalizing seen fields kinds shapes base with
  | nil =>
    cases hfields
    cases hshapes
    exact .nil
  | cons entry rest ih =>
    obtain ⟨key, e⟩ := entry
    cases key with
    | str key =>
      obtain ⟨value, fields', rfl, hrest, hvalue⟩ := dictFields_cons hfields
      obtain ⟨kind, shapes', hkind, hshapes', rfl⟩ := fieldShapes_cons hshapes
      generalize hf : FieldLiteral.mk key value = f at *
      rw [List.flatMap_cons, List.map_append] at hkinds
      have hlen : (f.values.map (kindOf s)).length = f.values.length := List.length_map _
      have hfirst := congrArg (List.take f.values.length) hkinds
      have hothers := congrArg (List.drop f.values.length) hkinds
      rw [List.take_left' hlen, ← List.map_take] at hfirst
      rw [List.drop_left' hlen, ← List.map_drop] at hothers
      have hone := kinds_replicate hfirst hkind
      subst hf
      rw [placeFields]
      refine .cons (f := ⟨key, base, _⟩) ?_ (ih _ hrest hothers hshapes')
      rcases hvalue with rfl | ⟨items, rfl, rfl⟩
      · simpa [FieldShaped, FieldLiteral.values] using hone
      · exact ⟨items, rfl, hone⟩
    | _ => cases hfields

theorem enumOf?_kind {s : Scope} {e : Expr} {enum : String} {c : ValueCode}
    (h : enumOf? s e = some enum) (hc : expr s 0 e = .ok c) : c.kind = .string := by
  unfold enumOf? at h
  split at h
  · rename_i name case
    split at h
    · rename_i henum
      unfold Scope.enum? at henum
      split at henum
      · cases henum
      · rename_i hshape
        rw [expr, elementOf] at hc
        rw [Bool.not_eq_true, Option.isSome_eq_false_iff, Option.isNone_iff_eq_none] at hshape
        simp only [hshape] at hc
        split at hc
        · simp only [enumCase] at hc
          split at hc
          · cases hc
            rfl
          · cases hc
        · cases hc
    · cases h
  · rename_i name
    split at h
    · rename_i slot enum' hshape
      rw [expr] at hc
      simp only [varValue, hshape, Shape.scalar?] at hc
      cases hc
      rfl
    · cases h
  · cases h

theorem scalar?_scalarShape {s : Scope} {e : Expr} {c : ValueCode} (hc : expr s 0 e = .ok c) :
    (scalarShape s e c.kind).scalar? = some c.kind := by
  unfold scalarShape
  split
  · rename_i enum henum
    rw [enumOf?_kind henum hc]
    rfl
  · rfl

theorem scalar_shaped {s : Scope} {e : Expr} {c : ValueCode} (hc : expr s 0 e = .ok c) :
    Shaped s e (scalarShape s e c.kind) :=
  .value (kindOf_eq.mpr ⟨c, hc, rfl⟩) (scalar?_scalarShape hc)

theorem declare_shaped {name : String} {e : Expr} {c : Code} {s s' : Scope}
    (h : declare name e s = .ok (c, s')) :
    ∃ frame symbol, s' = { s with frame } ∧ Shaped s e symbol.shape ∧
      ∀ other, frame.lookup other = if name = other then some symbol else s.frame.lookup other := by
  have hcomposite (kinds : List Scalar) (shape : Slot → Shape) (d : Code)
      (hshape : ∀ base, Shaped s e (shape base))
      (hd : bindComposite name kinds shape s = .ok (d, s')) :
      ∃ frame symbol, s' = { s with frame } ∧ Shaped s e symbol.shape ∧
        ∀ other, frame.lookup other =
          if name = other then some symbol else s.frame.lookup other := by
    obtain ⟨base, span, frame, hframe, rfl, -⟩ := bindComposite_ok _ _ _ _ _ _ hd
    refine ⟨_, ⟨base, span, shape base⟩, rfl, hshape base, fun other => ?_⟩
    rw [Frame.lookup_bind, Frame.lookup, Frame.spanFor_symbols hframe]
    rfl
  cases e with
  | array items =>
    obtain ⟨values, inner, kinds, kind, code, d, hvalues, hstage, hkind, hd, -⟩ :=
      declareArray_ok name items c s s' h
    exact hcomposite kinds _ d (fun base => array_shaped base hvalues (stage_kinds hstage) hkind) hd
  | tuple items =>
    obtain ⟨kinds, code, d, -, hstage, hd, -⟩ := declareTuple_ok name items c s s' h
    refine hcomposite kinds _ d (fun base => .tuple ?_) hd
    rw [stage_kinds hstage, List.map_map (l := kinds.zipIdx)]
    exact congrArg (List.map some) (List.zipIdx_map_fst 0 kinds).symm
  | dict entries =>
    obtain ⟨fields, shapes, kinds, code, d, hfields, hstage, hshapes, hd, -⟩ :=
      declareDict_ok name entries c s s' h
    exact hcomposite kinds _ d
      (fun base => .dict (fields_shaped base hfields (stage_kinds hstage) hshapes)) hd
  | _ =>
    obtain ⟨v, slot, frame, hv, hassign, rfl, -⟩ := declareScalar_ok name _ c s s' h
    obtain ⟨symbol, -, hshape, hlookup⟩ := Frame.assign_lookup hassign
    exact ⟨frame, symbol, rfl, hshape ▸ scalar_shaped hv, hlookup⟩

end Lower

/-! ## Values of declared variables -/

theorem Bindings.setAll_of_nodup {α : Type} (b : Bindings α) (xs : List (String × α))
    (h : (b.map (·.1) ++ xs.map (·.1)).Nodup) : b.setAll xs = b ++ xs := by
  induction xs generalizing b with
  | nil => exact (List.append_nil b).symm
  | cons e rest ih =>
    have hnone : b.get? e.1 = none := by
      rw [← Option.not_isSome_iff_eq_none, Option.isSome_iff_exists, ← mem_names]
      intro hmem
      exact (List.nodup_append.mp h).2.2 _ hmem _ List.mem_cons_self rfl
    rw [setAll_cons, set_of_none b _ _ hnone, ih, List.append_assoc]
    · rfl
    · simpa using h

/-- The values of fields, each under its key. -/
def FieldsHold : List Field → List (String × Value) → Prop
  | [], [] => True
  | f :: fields, (key, v) :: found =>
    key = Escape.text f.key ∧ f.shape.admits v = true ∧ FieldsHold fields found
  | _, _ => False

namespace FieldsHold

theorem keys {fields : List Field} {found : List (String × Value)} (h : FieldsHold fields found) :
    found.map (·.1) = fields.map (Escape.text ·.key) := by
  induction fields generalizing found with
  | nil =>
    cases found with
    | nil => rfl
    | cons => exact h.elim
  | cons f fields ih =>
    cases found with
    | nil => exact h.elim
    | cons e found =>
      obtain ⟨hkey, -, hrest⟩ := h
      rw [List.map_cons, List.map_cons, hkey, ih hrest]

theorem get? {fields : List Field} {found : List (String × Value)} (h : FieldsHold fields found)
    (hnodup : (found.map (·.1)).Nodup) (f : Field) (hf : f ∈ fields) :
    ∃ v, Bindings.get? found (Escape.text f.key) = some v ∧ f.shape.admits v = true := by
  induction fields generalizing found with
  | nil => cases hf
  | cons first fields ih =>
    cases found with
    | nil => exact h.elim
    | cons e found =>
      obtain ⟨hkey, hadmits, hrest⟩ := h
      rw [List.map_cons, List.nodup_cons] at hnodup
      rcases List.mem_cons.mp hf with rfl | hf
      · exact ⟨e.2, by rw [Bindings.get?, if_pos hkey], hadmits⟩
      · obtain ⟨v, hv, hadmits'⟩ := ih hrest hnodup.2 hf
        refine ⟨v, ?_, hadmits'⟩
        rw [Bindings.get?, if_neg, hv]
        intro heq
        exact hnodup.1 (heq ▸ (Bindings.mem_names _ _).mpr ⟨v, hv⟩)

theorem admits {fields : List Field} {found : List (String × Value)} (h : FieldsHold fields found)
    (hnodup : (fields.map (Escape.text ·.key)).Nodup) :
    (Shape.dict fields).admits (.dict found) = true := by
  rw [← h.keys] at hnodup
  rw [Shape.admits, h.keys, decide_eq_true rfl, Bool.true_and, List.all_eq_true]
  intro f hf
  obtain ⟨v, hv, hadmits⟩ := h.get? hnodup f hf
  rw [hv]
  exact hadmits

end FieldsHold

section Values

variable {isEnum : String → Bool} {table : Bindings Function} {callees : Bindings Callee}
  {rounds depth : Nat} (hexprs : ∀ n ≤ depth, ExprsHaveKinds isEnum table callees rounds n)
  {scope : Scope} (hcallees : scope.functions = callees) (hnamed : scope.Named isEnum)
  {s s' : State} (hs : scope.Tells isEnum table s)

include hexprs hcallees hnamed hs

theorem mapAll_admits {items : List Expr} {kinds : List Scalar} {vs : List Value}
    (hkinds : items.map (Lower.kindOf scope) = kinds.map some)
    (hvs : Run.mapAll (Run.evalWithin rounds depth) items s = .done vs s') :
    Scalar.admitsAll kinds vs = true ∧ scope.Tells isEnum table s' := by
  induction items generalizing kinds vs s with
  | nil =>
    obtain ⟨rfl, rfl⟩ := (Run.pure_done _ _ _ _).mp hvs
    cases kinds with
    | nil => exact ⟨rfl, hs⟩
    | cons => cases hkinds
  | cons e rest ih =>
    cases kinds with
    | nil => cases hkinds
    | cons kind kinds =>
      rw [List.map_cons, List.map_cons, List.cons.injEq] at hkinds
      obtain ⟨c, hc, rfl⟩ := Lower.kindOf_eq.mp hkinds.1
      simp only [Run.mapAll, Run.bind_done, Run.pure_done] at hvs
      obtain ⟨v, s₁, hv, vs, s₂, hvs, rfl, rfl⟩ := hvs
      obtain ⟨hadmits, hs₁⟩ := (hexprs depth (Nat.le_refl _)).tells hc hcallees hnamed hs hv
      obtain ⟨hall, hs₂⟩ := ih hs₁ hkinds.2 hvs
      exact ⟨by rw [Scalar.admitsAll, hadmits, hall]; rfl, hs₂⟩

theorem row_admits {items : List Expr} {count : Nat} {kind : Scalar} {v : Value}
    (hkinds : items.map (Lower.kindOf scope) = List.replicate count (some kind))
    (hv : Run.evalWithin rounds depth (.array items) s = .done v s') :
    v.isRow count kind = true ∧ scope.Tells isEnum table s' := by
  cases depth with
  | zero => cases hv
  | succ depth =>
    simp only [Run.evalWithin, Run.bind_done, Run.pure_done] at hv
    obtain ⟨vs, _, hvs, rfl, rfl⟩ := hv
    rw [← List.map_replicate] at hkinds
    obtain ⟨hall, hs'⟩ := mapAll_admits (fun n hn => hexprs n (Nat.le_succ_of_le hn)) hcallees hnamed
      hs hkinds hvs
    rw [Scalar.admitsAll_replicate] at hall
    exact ⟨by rw [Value.isRow, hall.2, decide_eq_true hall.1]; rfl, hs'⟩

theorem rows_admit {rows : List (List Expr)} {columns : Nat} {kind : Scalar} {vs : List Value}
    (hrows : ∀ row ∈ rows, row.map (Lower.kindOf scope) = List.replicate columns (some kind))
    (hvs : Run.mapAll (Run.evalWithin rounds depth) (rows.map .array) s = .done vs s') :
    vs.all (·.isRow columns kind) = true ∧ scope.Tells isEnum table s' := by
  induction rows generalizing vs s with
  | nil =>
    obtain ⟨rfl, rfl⟩ := (Run.pure_done _ _ _ _).mp hvs
    exact ⟨rfl, hs⟩
  | cons row rest ih =>
    simp only [List.map_cons, Run.mapAll, Run.bind_done, Run.pure_done] at hvs
    obtain ⟨v, s₁, hv, vs, s₂, hvs, rfl, rfl⟩ := hvs
    obtain ⟨hrow, hs₁⟩ := row_admits hexprs hcallees hnamed hs (hrows row List.mem_cons_self) hv
    obtain ⟨hall, hs₂⟩ := ih hs₁ (fun row' h => hrows row' (List.mem_cons_of_mem _ h)) hvs
    exact ⟨by rw [List.all_cons, hrow, hall]; rfl, hs₂⟩

theorem field_admits {e : Expr} {shape : FieldShape} {v : Value}
    (hshape : Lower.FieldShaped scope e shape)
    (hv : Run.evalWithin rounds depth e s = .done v s') :
    shape.admits v = true ∧ scope.Tells isEnum table s' := by
  cases shape with
  | scalar kind =>
    obtain ⟨c, hc, rfl⟩ := Lower.kindOf_eq.mp hshape
    exact (hexprs depth (Nat.le_refl _)).tells hc hcallees hnamed hs hv
  | array count kind =>
    obtain ⟨items, rfl, hkinds⟩ := hshape
    exact row_admits hexprs hcallees hnamed hs hkinds hv

theorem fields_admit {entries : List (Expr × Expr)} {fields : List Field}
    {given result : Bindings Value} (hfields : Lower.FieldsShaped scope entries fields)
    (hv : Run.dictFields (Run.evalWithin rounds depth) given entries s = .done result s') :
    ∃ found, result = given.setAll found ∧ FieldsHold fields found ∧
      scope.Tells isEnum table s' := by
  induction hfields generalizing given s with
  | nil =>
    obtain ⟨rfl, rfl⟩ := (Run.pure_done _ _ _ _).mp hv
    exact ⟨[], rfl, trivial, hs⟩
  | @cons e f entries fields hshape _ ih =>
    simp only [Run.dictFields, Run.bind_done] at hv
    obtain ⟨key, s₁, hkey, text, s₂, htext, v, s₃, hv, hrest⟩ := hv
    obtain ⟨hstring, hs₁⟩ := (hexprs depth (Nat.le_refl _)).tells (d := 0) (by rw [Lower.expr])
      hcallees hnamed hs hkey
    obtain rfl := Run.eval_literal hkey _ rfl
    obtain ⟨rfl, rfl⟩ := (Run.pure_done _ _ _ _).mp htext
    obtain ⟨hadmits, hs₃⟩ := field_admits hexprs hcallees hnamed hs₁ hshape hv
    obtain ⟨found, rfl, hhold, hs'⟩ := ih hs₃ hrest
    exact ⟨(Escape.text f.key, v) :: found, rfl, ⟨rfl, hadmits, hhold⟩, hs'⟩

omit hexprs hcallees hnamed hs in
theorem keys_of_shaped {entries : List (Expr × Expr)} {fields : List Field}
    (h : Lower.FieldsShaped scope entries fields) :
    entries.filterMap (·.1.keyText?) = fields.map (Escape.text ·.key) := by
  induction h with
  | nil => rfl
  | cons hshape _ ih =>
    rw [List.filterMap_cons, ih]
    rfl

theorem shaped_admits {e : Expr} {shape : Shape} {v : Value} (hshape : Lower.Shaped scope e shape)
    (hkeys : e.distinctKeys = true) (hv : Run.evalWithin rounds depth e s = .done v s') :
    shape.admits v = true ∧ scope.Tells isEnum table s' := by
  cases hshape with
  | value hkind hscalar =>
    obtain ⟨c, hc, rfl⟩ := Lower.kindOf_eq.mp hkind
    obtain ⟨hadmits, hs'⟩ := (hexprs depth (Nat.le_refl _)).tells hc hcallees hnamed hs hv
    exact ⟨(Shape.admits_scalar? hscalar v).trans hadmits, hs'⟩
  | array hkinds => exact row_admits hexprs hcallees hnamed hs hkinds hv
  | rows hrows =>
    cases depth with
    | zero => cases hv
    | succ depth =>
      simp only [Run.evalWithin, Run.bind_done, Run.pure_done] at hv
      obtain ⟨vs, _, hvs, rfl, rfl⟩ := hv
      obtain ⟨hall, hs'⟩ := rows_admit (fun n hn => hexprs n (Nat.le_succ_of_le hn)) hcallees hnamed
        hs hrows hvs
      have hlen := Run.length_mapAll hvs
      rw [List.length_map] at hlen
      exact ⟨by rw [Shape.admits, hall, decide_eq_true hlen]; rfl, hs'⟩
  | tuple hkinds =>
    cases depth with
    | zero => cases hv
    | succ depth =>
      simp only [Run.evalWithin, Run.bind_done, Run.pure_done] at hv
      obtain ⟨vs, _, hvs, rfl, rfl⟩ := hv
      exact mapAll_admits (fun n hn => hexprs n (Nat.le_succ_of_le hn)) hcallees hnamed hs hkinds hvs
  | dict hfields =>
    cases depth with
    | zero => cases hv
    | succ depth =>
      simp only [Run.evalWithin, Run.bind_done, Run.pure_done] at hv
      obtain ⟨result, _, hresult, rfl, rfl⟩ := hv
      obtain ⟨found, rfl, hhold, hs'⟩ := fields_admit (fun n hn => hexprs n (Nat.le_succ_of_le hn))
        hcallees hnamed hs hfields hresult
      have hnodup := of_decide_eq_true hkeys
      rw [keys_of_shaped hfields] at hnodup
      rw [Bindings.setAll_of_nodup [] found (by rw [hhold.keys]; exact hnodup)]
      exact ⟨hhold.admits hnodup, hs'⟩

end Values

end Armature
