import Armature.Proofs.Evaluation
import Armature.Proofs.Shapes

/-!
# Kinds of expressions

An expression evaluates to a value of the kind that its code has, as long as the values of variables
are of the shapes that are known for them, and calls return integers.
-/

namespace Armature

/-! ## Operators -/

namespace Value

theorem number_of_admits {kind : Scalar} {v : Value} (h : kind.admits v = true)
    (hkind : kind ≠ .string) :
    (kind = .float ∧ ∃ x, v.number? = some (.float x)) ∨
      (kind ≠ .float ∧ ∃ i, v.number? = some (.int i)) := by
  unfold Scalar.admits at h
  split at h
  · exact .inr ⟨by decide, _, rfl⟩
  · exact .inl ⟨rfl, _, rfl⟩
  · exact .inr ⟨by decide, _, rfl⟩
  · exact absurd rfl hkind
  · cases h

theorem str_of_admits {v : Value} (h : Scalar.string.admits v = true) : ∃ text, v = .str text := by
  cases v with
  | str text => exact ⟨text, rfl⟩
  | _ => cases h

theorem binary_numbers {op : BinaryOp} {v w r : Value} {a b : Number} (hop : op.isLogical = false)
    (hv : v.number? = some a) (hw : w.number? = some b) (h : binary op v w = .ok r) :
    r = numberOp op a b := by
  unfold binary at h
  split at h
  · cases hop
  · cases hop
  · cases hv
  · rw [hv, hw] at h
    cases h
    rfl

theorem comparison_admits {op : BinaryOp} (hop : op.isComparison = true) (a b : Number) :
    Scalar.bool.admits (numberOp op a b) = true := by
  cases op with
  | eq | ne | lt | gt | le | ge => cases a <;> cases b <;> rfl
  | add | sub | mul | div | mod | and | or => cases hop

theorem arithmetic_admits {op : BinaryOp} (hcomparison : op.isComparison = false)
    (hlogical : op.isLogical = false) :
    (∀ i j, Scalar.int.admits (numberOp op (.int i) (.int j)) = true) ∧
      (∀ x n, Scalar.float.admits (numberOp op (.float x) n) = true) ∧
        ∀ x n, Scalar.float.admits (numberOp op n (.float x)) = true := by
  cases op with
  | add | sub | mul | div | mod =>
    refine ⟨fun _ _ => rfl, fun x n => ?_, fun x n => ?_⟩ <;> cases n <;> rfl
  | eq | ne | lt | gt | le | ge => cases hcomparison
  | and | or => cases hlogical

end Value

namespace Lower

theorem comparison_kind {op : BinaryOp} {left right : ValueCode} {v w r : Value}
    {cond : A64.Cond} {code : Asm.Code} (h : comparison op left right = .ok (cond, code))
    (hv : left.kind.admits v = true) (hw : right.kind.admits w = true)
    (hr : Value.binary op v w = .ok r) : Scalar.bool.admits r = true := by
  obtain ⟨test, _, htest, hoperands, -⟩ := comparison_ok h
  have hop : op.isComparison = true ∧ op.isLogical = false := by
    cases op with
    | add | sub | mul | div | mod | and | or => cases htest
    | _ => exact ⟨rfl, rfl⟩
  rcases checkOperands_ok (operands_ok hoperands).1 with ⟨hleft, hright, heq⟩ | ⟨hleft, hright⟩
  · rw [hleft] at hv
    rw [hright] at hw
    obtain ⟨a, rfl⟩ := Value.str_of_admits hv
    obtain ⟨b, rfl⟩ := Value.str_of_admits hw
    rcases heq with rfl | rfl <;> cases hr <;> rfl
  · obtain ⟨a, ha⟩ : ∃ n, v.number? = some n := by
      rcases Value.number_of_admits hv hleft with ⟨-, x, hx⟩ | ⟨-, i, hi⟩
      · exact ⟨_, hx⟩
      · exact ⟨_, hi⟩
    obtain ⟨b, hb⟩ : ∃ n, w.number? = some n := by
      rcases Value.number_of_admits hw hright with ⟨-, x, hx⟩ | ⟨-, i, hi⟩
      · exact ⟨_, hx⟩
      · exact ⟨_, hi⟩
    rw [Value.binary_numbers hop.2 ha hb hr]
    exact Value.comparison_admits hop.1 a b

theorem arithmetic_kind {op : BinaryOp} {left right c : ValueCode} {v w r : Value}
    (hop : op.isLogical = false) (htest : test? op = none) (h : arithmetic op left right = .ok c)
    (hv : left.kind.admits v = true) (hw : right.kind.admits w = true)
    (hr : Value.binary op v w = .ok r) : c.kind.admits r = true := by
  obtain ⟨⟨float, code⟩, instrs, hoperands, -, rfl⟩ := arithmetic_ok h
  obtain ⟨hcheck, hfloat⟩ := operands_ok hoperands
  obtain ⟨hints, hfirst, hsecond⟩ := Value.arithmetic_admits (test?_eq_none.mp htest) hop
  rcases checkOperands_ok hcheck with ⟨-, -, rfl | rfl⟩ | ⟨hleft, hright⟩
  · cases htest
  · cases htest
  rw [show float = _ from hfloat]
  rcases Value.number_of_admits hv hleft with ⟨hl, x, hx⟩ | ⟨hl, i, hi⟩
  · rcases Value.number_of_admits hw hright with ⟨-, y, hy⟩ | ⟨-, j, hj⟩
    · rw [Value.binary_numbers hop hx hy hr]
      simpa [hl] using hfirst x _
    · rw [Value.binary_numbers hop hx hj hr]
      simpa [hl] using hfirst x _
  · rcases Value.number_of_admits hw hright with ⟨hr', y, hy⟩ | ⟨hr', j, hj⟩
    · rw [Value.binary_numbers hop hi hy hr]
      simpa [hr'] using hsecond y _
    · rw [Value.binary_numbers hop hi hj hr]
      simpa [hl, hr'] using hints i j

theorem binary_admits {op : BinaryOp} {left right c : ValueCode} {v w r : Value}
    (h : binary op left right = .ok c) (hv : left.kind.admits v = true)
    (hw : right.kind.admits w = true) (hr : Value.binary op v w = .ok r) :
    c.kind.admits r = true := by
  obtain ⟨hop, rfl⟩ | ⟨-, test, cond, code, -, hcode, rfl⟩ | ⟨hop, htest, h⟩ := binary_ok h
  · cases op with
    | and | or =>
      cases hr
      rfl
    | _ => cases hop
  · exact comparison_kind hcode hv hw hr
  · exact arithmetic_kind hop htest h hv hw hr

theorem unary_admits {op : UnaryOp} {operand c : ValueCode} {v r : Value}
    (h : unary op operand = .ok c) (hv : operand.kind.admits v = true)
    (hr : Value.unary op v = .ok r) : c.kind.admits r = true := by
  cases op with
  | not =>
    cases h
    cases hr
    rfl
  | neg =>
    obtain ⟨kind, code⟩ := operand
    cases kind with
    | string => cases h
    | float =>
      cases h
      obtain ⟨-, x, hx⟩ | ⟨hne, -⟩ := Value.number_of_admits hv nofun
      · simp only [Value.unary, hx, Except.ok.injEq] at hr
        rw [← hr]
        rfl
      · exact absurd rfl hne
    | int | bool =>
      cases h
      obtain ⟨heq, -⟩ | ⟨-, i, hi⟩ := Value.number_of_admits hv nofun
      · cases heq
      · simp only [Value.unary, hi, Except.ok.injEq] at hr
        rw [← hr]
        rfl

end Lower

/-! ## Elements -/

namespace Value

theorem itemAt_ok {items : List Value} {i : Int64} {v : Value} (h : itemAt items i = .ok v) :
    0 ≤ i.toInt ∧ items[i.toInt.toNat]? = some v := by
  unfold itemAt at h
  split at h
  · rename_i w hw
    cases h
    split at hw
    · cases hw
    · rename_i hneg
      refine ⟨?_, hw⟩
      rw [Int64.lt_iff_toInt_lt] at hneg
      exact Int.not_lt.mp hneg
  · cases h

theorem at?_array {items : List Value} {p v : Value} (h : at? (.array items) p = .ok v) :
    v ∈ items := by
  cases p with
  | int i => exact List.mem_of_getElem? (itemAt_ok h).2
  | _ => cases h

theorem at?_row {row p v : Value} {count : Nat} {element : Scalar}
    (hrow : row.isRow count element = true) (h : at? row p = .ok v) : element.admits v = true := by
  cases row with
  | array items =>
    rw [isRow, Bool.and_eq_true] at hrow
    exact List.all_eq_true.mp hrow.2 v (at?_array h)
  | _ => cases hrow

theorem at?_enum {name : String} {cases : List String} {p v : Value}
    (h : at? (.enum name cases) p = .ok v) : Scalar.string.admits v = true := by
  cases p with
  | str case =>
    simp only [at?] at h
    split at h
    · cases h
      rfl
    · cases h
  | _ => cases h

end Value

namespace Shape

theorem admits_scalar? {shape : Shape} {kind : Scalar} (h : shape.scalar? = some kind) (v : Value) :
    shape.admits v = kind.admits v := by
  cases shape with
  | scalar | enumCase =>
    cases h
    rfl
  | _ => cases h

theorem dict_admits {fields : List Field} {a p v : Value} {f : Field} {key : String}
    (h : (dict fields).admits a = true) (hf : field? fields key = some f)
    (hp : p = .str (Escape.text key)) (hat : Value.at? a p = .ok v) : f.shape.admits v = true := by
  cases a with
  | dict entries =>
    rw [admits, Bool.and_eq_true] at h
    have hkey : f.key = key := by simpa using List.find?_some hf
    have hany := List.all_eq_true.mp h.2 f (List.mem_of_find?_eq_some hf)
    subst hp
    simp only [Value.at?] at hat
    rw [hkey] at hany
    cases hget : Bindings.get? entries (Escape.text key) with
    | none =>
      rw [hget] at hat
      cases hat
    | some w =>
      rw [hget] at hat hany
      cases hat
      simpa using hany
  | _ => cases h

theorem tuple_admits {elements : List (Slot × Scalar)} {a v : Value} {i : Int64} {slot : Slot}
    {kind : Scalar} (h : (tuple elements).admits a = true)
    (hi : elements[i.toInt.toNat]? = some (slot, kind)) (hat : Value.at? a (.int i) = .ok v) :
    kind.admits v = true := by
  cases a with
  | tuple items =>
    have hkind : (elements.map (·.2))[i.toInt.toNat]? = some kind := by
      rw [List.getElem?_map, hi]
      rfl
    exact Scalar.admitsAll_getElem? h _ kind v hkind (Value.itemAt_ok hat).2
  | _ => cases h

theorem rows_admit {base : Slot} {count columns : Nat} {element : Scalar} {a p row : Value}
    (h : (array ⟨base, count, element, some columns⟩).admits a = true)
    (hat : Value.at? a p = .ok row) : row.isRow columns element = true := by
  cases a with
  | array rows =>
    rw [admits, Bool.and_eq_true] at h
    exact List.all_eq_true.mp h.2 row (Value.at?_array hat)
  | _ => cases h

end Shape

/-! ## States that a scope tells of -/

/-- The functions of a state, and which names its enums may have. -/
structure State.Known (isEnum : String → Bool) (table : Bindings Function) (s : State) : Prop where
  functions : s.functions = table
  enums : ∀ name cases, s.enums.get? name = some cases → isEnum name = true

/-- Variables of the scope have values of their shapes, as far as they have values. -/
structure Scope.Tells (isEnum : String → Bool) (table : Bindings Function) (scope : Scope)
    (s : State) : Prop where
  known : s.Known isEnum table
  names : ∀ name v, s.locals.get? name = some v → isEnum name = false
  shapes : ∀ name v symbol, s.locals.get? name = some v → scope.frame.lookup name = some symbol →
    symbol.shape.admits v = true

namespace Scope

theorem lookup_of_shape? {s : Scope} {name : String} {slot : Slot} {shape : Shape}
    (h : s.shape? name = some (slot, shape)) :
    ∃ symbol, s.frame.lookup name = some symbol ∧ symbol.shape = shape := by
  obtain ⟨symbol, hs, heq⟩ := Option.map_eq_some_iff.mp h
  exact ⟨symbol, hs, (Prod.mk.inj heq).2⟩

variable {isEnum : String → Bool} {table : Bindings Function} {scope : Scope} {s s' : State}
  {name : String} {v : Value}

theorem Tells.of_locals (h : scope.Tells isEnum table s) (hknown : s'.Known isEnum table)
    (hlocals : s'.locals = s.locals) : scope.Tells isEnum table s' where
  known := hknown
  names := by rw [hlocals]; exact h.names
  shapes := by rw [hlocals]; exact h.shapes

theorem Tells.getVar {slot : Slot} {shape : Shape} (h : scope.Tells isEnum table s)
    (hnamed : scope.Named isEnum) (hshape : scope.shape? name = some (slot, shape))
    (hv : Run.getVar name s = .done v s') : shape.admits v = true := by
  obtain ⟨symbol, hs, rfl⟩ := lookup_of_shape? hshape
  obtain ⟨-, hlocal | ⟨-, cases, hcases, -⟩⟩ := (Run.getVar_done _ _ _ _).mp hv
  · exact h.shapes name v symbol hlocal hs
  · have hfalse := hnamed.symbols name symbol hs
    rw [h.known.enums name cases hcases] at hfalse
    cases hfalse

theorem Tells.getEnum {cases : List String} (h : scope.Tells isEnum table s)
    (hnamed : scope.Named isEnum) (hcases : scope.enums.get? name = some cases)
    (hv : Run.getVar name s = .done v s') : ∃ cases', v = .enum name cases' := by
  obtain ⟨-, hlocal | ⟨-, cases', -, rfl⟩⟩ := (Run.getVar_done _ _ _ _).mp hv
  · have hfalse := h.names name v hlocal
    rw [hnamed.enums name cases hcases] at hfalse
    cases hfalse
  · exact ⟨cases', rfl⟩

end Scope

/-- The value of a literal that can name an element. -/
def Expr.literal? : Expr → Option Value
  | int i => some (.int i)
  | str source => some (.str (Escape.text source))
  | _ => none

namespace Lower

variable {isEnum : String → Bool} {table : Bindings Function} {scope : Scope} {s : State}
  {name : String} {a b v : Value} {c : ValueCode}

theorem expr_literal {position : Expr} {w : Value} (depth : Nat) (h : position.literal? = some w) :
    ∃ p, expr scope depth position = .ok p := by
  cases position with
  | int | str => exact ⟨_, by rw [expr]⟩
  | _ => cases h

theorem varValue_admits (h : scope.Tells isEnum table s) (hnamed : scope.Named isEnum)
    (hc : varValue scope name = .ok c) {s' : State} (hv : Run.getVar name s = .done v s') :
    c.kind.admits v = true := by
  unfold varValue at hc
  split at hc
  · rename_i slot shape hshape
    split at hc
    · rename_i kind hkind
      cases hc
      exact (Shape.admits_scalar? hkind v).symm.trans (h.getVar hnamed hshape hv)
    · cases hc
  · split at hc <;> cases hc

theorem element_ok {view : ArrayView} {position : Expr} {value : Except LowerError ValueCode}
    (h : element view position value = .ok c) :
    c.kind = view.element ∧ ((∃ w, position.literal? = some w) ∨ ∃ p, value = .ok p) := by
  unfold element at h
  split at h
  · split at h
    · cases h
      exact ⟨rfl, .inl ⟨_, rfl⟩⟩
    · cases h
  · simp only [bind_eq_ok] at h
    obtain ⟨p, hp, _, -, h⟩ := h
    cases h
    exact ⟨rfl, .inr ⟨p, hp⟩⟩

theorem cell_ok {layout : ArrayLayout} {columns : Nat} {row column : Expr}
    {rowValue columnValue : Except LowerError ValueCode}
    (h : cell layout columns row column rowValue columnValue = .ok c) :
    c.kind = layout.element ∧ (((∃ w, row.literal? = some w) ∧ ∃ w, column.literal? = some w) ∨
      ((∃ p, rowValue = .ok p) ∧ ∃ p, columnValue = .ok p)) := by
  unfold cell at h
  split at h
  · split at h
    · cases h
      exact ⟨rfl, .inl ⟨⟨_, rfl⟩, _, rfl⟩⟩
    · cases h
  · simp only [bind_eq_ok] at h
    obtain ⟨p, hp, _, -, q, hq, _, -, h⟩ := h
    cases h
    exact ⟨rfl, .inr ⟨⟨p, hp⟩, q, hq⟩⟩

theorem elementOf_admits {position : Expr} {value : Except LowerError ValueCode} {s' : State}
    (h : scope.Tells isEnum table s) (hnamed : scope.Named isEnum)
    (hc : elementOf scope name position value = .ok c) (ha : Run.getVar name s = .done a s')
    (hb : ∀ w, position.literal? = some w → b = w) (hat : Value.at? a b = .ok v) :
    c.kind.admits v = true ∧ ((∃ w, position.literal? = some w) ∨ ∃ p, value = .ok p) := by
  unfold elementOf at hc
  split at hc
  · split at hc
    · rename_i cases hcases
      obtain ⟨cases', rfl⟩ := h.getEnum hnamed hcases ha
      cases position with
      | str case =>
        simp only [enumCase] at hc
        split at hc
        · cases hc
          exact ⟨Value.at?_enum hat, .inl ⟨_, rfl⟩⟩
        · cases hc
      | _ => cases hc
    · cases hc
  · rename_i slot layout hshape
    obtain ⟨base, count, kind, inner⟩ := layout
    cases inner with
    | some columns => cases hc
    | none =>
      obtain ⟨hkind, hposition⟩ := element_ok hc
      have hrow : a.isRow count kind = true := h.getVar hnamed hshape ha
      rw [hkind]
      exact ⟨Value.at?_row hrow hat, hposition⟩
  · rename_i slot elements hshape
    cases position with
    | int i =>
      obtain rfl := hb _ rfl
      simp only [tupleElement] at hc
      split at hc
      · rename_i slot' kind hi
        cases hc
        split at hi
        · exact ⟨Shape.tuple_admits (h.getVar hnamed hshape ha) hi hat, .inl ⟨_, rfl⟩⟩
        · cases hi
      · cases hc
    | _ => cases hc
  · rename_i slot fields hshape
    cases position with
    | str key =>
      obtain rfl := hb _ rfl
      simp only [dictElement] at hc
      split at hc
      · rename_i hfield
        cases hc
        exact ⟨Shape.dict_admits (h.getVar hnamed hshape ha) hfield rfl hat, .inl ⟨_, rfl⟩⟩
      · cases hc
      · cases hc
    | _ => cases hc
  · cases hc

theorem arrayView_admits {position : Expr} {view : ArrayView} {s' : State}
    (h : scope.Tells isEnum table s) (hnamed : scope.Named isEnum)
    (hview : arrayView scope name position = .ok (some view))
    (ha : Run.getVar name s = .done a s') (hb : ∀ w, position.literal? = some w → b = w)
    (hat : Value.at? a b = .ok v) :
    v.isRow view.count view.element = true ∧ ∃ w, position.literal? = some w := by
  unfold arrayView at hview
  split at hview
  · rename_i slot fields key hshape
    split at hview
    · rename_i hfield
      cases hview
      exact ⟨Shape.dict_admits (h.getVar hnamed hshape ha) hfield (hb _ rfl) hat, _, rfl⟩
    · cases hview
  · rename_i slot base count kind columns row hshape
    split at hview
    · cases hview
      exact ⟨Shape.rows_admit (h.getVar hnamed hshape ha) hat, _, rfl⟩
    · cases hview
  · cases hview

theorem elementOfElement_admits {row column : Expr}
    {rowValue columnValue : Except LowerError ValueCode} {s' : State} {r b' : Value}
    (h : scope.Tells isEnum table s) (hnamed : scope.Named isEnum)
    (hc : elementOfElement scope name row column rowValue columnValue = .ok c)
    (ha : Run.getVar name s = .done a s') (hb : ∀ w, row.literal? = some w → b = w)
    (hrow : Value.at? a b = .ok r) (hat : Value.at? r b' = .ok v) :
    c.kind.admits v = true ∧ ((∃ w, row.literal? = some w) ∨ ∃ p, rowValue = .ok p) ∧
      ((∃ w, column.literal? = some w) ∨ ∃ p, columnValue = .ok p) := by
  unfold elementOfElement at hc
  split at hc
  · rename_i slot layout hshape
    obtain ⟨base, count, kind, inner⟩ := layout
    cases inner with
    | none => cases hc
    | some columns =>
      obtain ⟨hkind, hindices⟩ := cell_ok hc
      have hr := Shape.rows_admit (h.getVar hnamed hshape ha) hrow
      rw [hkind]
      refine ⟨Value.at?_row hr hat, ?_⟩
      rcases hindices with ⟨hw, hw'⟩ | ⟨hp, hp'⟩
      · exact ⟨.inl hw, .inl hw'⟩
      · exact ⟨.inr hp, .inr hp'⟩
  · simp only [bind_eq_ok] at hc
    obtain ⟨view, hview, hc⟩ := hc
    cases view with
    | none => cases hc
    | some view =>
      obtain ⟨hr, hliteral⟩ := arrayView_admits h hnamed hview ha hb hrow
      obtain ⟨hkind, hcolumn⟩ := element_ok hc
      rw [hkind]
      exact ⟨Value.at?_row hr hat, .inl hliteral, hcolumn⟩
  · cases hc

end Lower

/-! ## Evaluation -/

namespace Run

theorem eval_var {rounds depth : Nat} {name : String} {v : Value} {s s' : State}
    (h : evalWithin rounds depth (.var name) s = .done v s') : getVar name s = .done v s' := by
  cases depth with
  | zero => cases h
  | succ depth => exact h

theorem eval_index {rounds depth : Nat} {target position : Expr} {v : Value} {s s' : State}
    (h : evalWithin rounds (depth + 1) (.index target position) s = .done v s') :
    ∃ a s₁ b, evalWithin rounds depth target s = .done a s₁ ∧
      evalWithin rounds depth position s₁ = .done b s' ∧ Value.at? a b = .ok v := by
  simp only [evalWithin, bind_done, lift_done] at h
  obtain ⟨a, s₁, ha, b, _, hb, hat, rfl⟩ := h
  exact ⟨a, s₁, b, ha, hb, hat⟩

theorem eval_literal {rounds depth : Nat} {e : Expr} {v : Value} {s s' : State}
    (h : evalWithin rounds depth e s = .done v s') (w : Value) (hw : e.literal? = some w) :
    v = w := by
  cases depth with
  | zero => cases h
  | succ depth =>
    cases e with
    | int | str =>
      cases hw
      exact ((pure_done _ _ _ _).mp h).1.symm
    | _ => cases hw

theorem locals_of_eval {rounds depth : Nat} {e : Expr} {v : Value} {s s' : State}
    (h : evalWithin rounds depth e s = .done v s') : s'.locals = s.locals :=
  ((frames_kept rounds depth).1 e s s' (by rw [h]; rfl)).locals

end Run

section Depth

variable (isEnum : String → Bool) (table : Bindings Function) (callees : Bindings Callee)
  (rounds depth : Nat)

/-- Functions that are called with integers return integers. -/
def CallsReturnInts : Prop :=
  ∀ name g callee args flow s s', table.get? name = some g → callees.get? name = some callee →
    g.params.length = args.length → args.all Scalar.int.admits = true → s.Known isEnum table →
    Run.inFrame (Bindings.setAll [] (g.params.zip args))
      (Run.forEach (Run.execWithin rounds depth) g.body) s = .done flow s' →
    Scalar.int.admits (Run.result flow) = true ∧ s'.Known isEnum table

/-- Expressions that nest no deeper have values of the kinds of their code. -/
def ExprsHaveKinds : Prop :=
  ∀ e scope d c s v s', Lower.expr scope d e = .ok c → scope.functions = callees →
    scope.Named isEnum → scope.Tells isEnum table s →
    Run.evalWithin rounds depth e s = .done v s' →
    c.kind.admits v = true ∧ s'.Known isEnum table

end Depth

section Level

variable {isEnum : String → Bool} {table : Bindings Function} {callees : Bindings Callee}
  {rounds depth : Nat} {scope : Scope} {s s' : State} {v : Value} {d : Nat} {c : Lower.ValueCode}

theorem ExprsHaveKinds.tells (h : ExprsHaveKinds isEnum table callees rounds depth) {e : Expr}
    (hc : Lower.expr scope d e = .ok c) (hcallees : scope.functions = callees)
    (hnamed : scope.Named isEnum) (hs : scope.Tells isEnum table s)
    (hv : Run.evalWithin rounds depth e s = .done v s') :
    c.kind.admits v = true ∧ scope.Tells isEnum table s' := by
  obtain ⟨hkind, hknown⟩ := h e scope d c s v s' hc hcallees hnamed hs hv
  exact ⟨hkind, hs.of_locals hknown (Run.locals_of_eval hv)⟩

theorem ExprsHaveKinds.position (h : ExprsHaveKinds isEnum table callees rounds depth)
    {position : Expr} (hcallees : scope.functions = callees) (hnamed : scope.Named isEnum)
    (hs : scope.Tells isEnum table s) (hv : Run.evalWithin rounds depth position s = .done v s')
    (hposition : (∃ w, position.literal? = some w) ∨ ∃ p, Lower.expr scope d position = .ok p) :
    scope.Tells isEnum table s' := by
  obtain ⟨p, hp⟩ : ∃ p, Lower.expr scope d position = .ok p := by
    rcases hposition with ⟨w, hw⟩ | hp
    · exact Lower.expr_literal d hw
    · exact hp
  exact (h.tells hp hcallees hnamed hs hv).2

theorem arguments_ints (h : ExprsHaveKinds isEnum table callees rounds depth) {name : String}
    {args : List Expr} {code : Asm.Code} {vs : List Value}
    (hc : Lower.arguments scope d name args = .ok code) (hcallees : scope.functions = callees)
    (hnamed : scope.Named isEnum) (hs : scope.Tells isEnum table s)
    (hvs : Run.mapAll (Run.evalWithin rounds depth) args s = .done vs s') :
    vs.all Scalar.int.admits = true ∧ scope.Tells isEnum table s' := by
  induction args generalizing d code vs s with
  | nil =>
    obtain ⟨rfl, rfl⟩ := (Run.pure_done _ _ _ _).mp hvs
    exact ⟨rfl, hs⟩
  | cons arg rest ih =>
    obtain ⟨value, restCode, hvalue, hkind, hrest, -⟩ := Lower.arguments_cons hc
    simp only [Run.mapAll, Run.bind_done, Run.pure_done] at hvs
    obtain ⟨v, s₁, hv, vs, s₂, hvs, rfl, rfl⟩ := hvs
    obtain ⟨hadmits, hs₁⟩ := h.tells hvalue hcallees hnamed hs hv
    obtain ⟨hall, hs₂⟩ := ih hrest hs₁ hvs
    rw [hkind] at hadmits
    exact ⟨by rw [List.all_cons, hadmits, hall]; rfl, hs₂⟩

theorem exprsHaveKinds_succ (hexprs : ∀ n ≤ depth, ExprsHaveKinds isEnum table callees rounds n)
    (hcalls : CallsReturnInts isEnum table callees rounds depth) :
    ExprsHaveKinds isEnum table callees rounds (depth + 1) := by
  have hexprs' := hexprs depth (Nat.le_refl _)
  intro e scope d c s v s' hc hcallees hnamed hs hv
  cases e with
  | int | float | str | bool =>
    rw [Lower.expr] at hc
    cases hc
    obtain ⟨rfl, rfl⟩ := (Run.pure_done _ _ _ _).mp hv
    exact ⟨rfl, hs.known⟩
  | nil | interpolation | input | array | tuple | dict =>
    rw [Lower.expr] at hc
    cases hc
  | var name =>
    rw [Lower.expr] at hc
    have hv := Run.eval_var hv
    obtain ⟨rfl, -⟩ := (Run.getVar_done _ _ _ _).mp hv
    exact ⟨Lower.varValue_admits hs hnamed hc hv, hs.known⟩
  | binary op lhs rhs =>
    simp only [Lower.expr, bind_eq_ok] at hc
    obtain ⟨left, hleft, right, hright, hc⟩ := hc
    simp only [Run.evalWithin, Run.bind_done, Run.lift_done] at hv
    obtain ⟨a, s₁, ha, b, _, hb, hr, rfl⟩ := hv
    obtain ⟨hleft', hs₁⟩ := hexprs'.tells hleft hcallees hnamed hs ha
    obtain ⟨hright', hs₂⟩ := hexprs'.tells hright hcallees hnamed hs₁ hb
    exact ⟨Lower.binary_admits hc hleft' hright' hr, hs₂.known⟩
  | unary op operand =>
    simp only [Lower.expr, bind_eq_ok] at hc
    obtain ⟨value, hvalue, hc⟩ := hc
    simp only [Run.evalWithin, Run.bind_done, Run.lift_done] at hv
    obtain ⟨a, _, ha, hr, rfl⟩ := hv
    obtain ⟨hvalue', hs₁⟩ := hexprs'.tells hvalue hcallees hnamed hs ha
    exact ⟨Lower.unary_admits hc hvalue' hr, hs₁.known⟩
  | call name args =>
    simp only [Lower.expr, bind_eq_ok] at hc
    obtain ⟨callee, hcallee, code, hcode, hc⟩ := hc
    cases hc
    simp only [Run.evalWithin, Run.bind_done, Run.getFunction_done, Run.checkArity_done,
      Run.pure_done] at hv
    obtain ⟨g, _, ⟨hg, rfl⟩, _, _, ⟨harity, rfl⟩, vs, s₁, hvs, flow, _, hrun, rfl, rfl⟩ := hv
    obtain ⟨hints, hs₁⟩ := arguments_ints hexprs' hcode hcallees hnamed hs hvs
    rw [hs.known.functions] at hg
    refine hcalls name g callee vs flow s₁ _ hg ?_ ?_ hints hs₁.known hrun
    · rw [← hcallees]
      exact (Lower.callee_ok hcallee).1
    · rw [harity, Run.length_mapAll hvs]
  | index target position =>
    obtain ⟨a, s₁, b, ha, hb, hat⟩ := Run.eval_index hv
    cases target with
    | var name =>
      rw [Lower.expr] at hc
      have ha := Run.eval_var ha
      obtain ⟨rfl, -⟩ := (Run.getVar_done _ _ _ _).mp ha
      obtain ⟨hkind, hposition⟩ :=
        Lower.elementOf_admits hs hnamed hc ha (Run.eval_literal hb) hat
      exact ⟨hkind, (hexprs'.position hcallees hnamed hs hb hposition).known⟩
    | index target row =>
      cases target with
      | var name =>
        rw [Lower.expr] at hc
        cases depth with
        | zero => cases ha
        | succ depth =>
          obtain ⟨a', s₂, b', ha', hb', hrow⟩ := Run.eval_index ha
          have ha' := Run.eval_var ha'
          obtain ⟨rfl, -⟩ := (Run.getVar_done _ _ _ _).mp ha'
          obtain ⟨hkind, hrow', hcolumn⟩ :=
            Lower.elementOfElement_admits hs hnamed hc ha' (Run.eval_literal hb') hrow hat
          have hs₁ := (hexprs depth (Nat.le_succ _)).position hcallees hnamed hs hb' hrow'
          exact ⟨hkind, (hexprs'.position hcallees hnamed hs₁ hb hcolumn).known⟩
      | _ => simp [Lower.expr] at hc
    | _ => simp [Lower.expr] at hc

end Level

end Armature
