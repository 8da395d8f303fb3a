import Armature.Proofs.Kinds
import Armature.Proofs.Straight
import Armature.Proofs.Texts

/-!
# Soundness of kinds

An expression that has code also has a value, and the value is of the kind of the code. Only one
error is left to evaluation: a position that is out of range, since no code checks those. For this,
the scope and the state must know the same variables and the same enums. Expressions with calls are
left out, because what a function does is not known from its scope.
-/

namespace Armature

/-! ## Safe runs -/

namespace Run

variable {α β : Type} {x : Run α} {P Q : α → Prop} {s : State}

/-- From the state on, the run changes nothing. It gives a result with the property, or it fails
because a position is out of range. -/
def Safe (x : Run α) (P : α → Prop) (s : State) : Prop :=
  (∃ a, x s = .done a s ∧ P a) ∨ ∃ i n, x s = .failed (.outOfRange i n) s

theorem Safe.of_done {a : α} (h : x s = .done a s) (ha : P a) : x.Safe P s := .inl ⟨a, h, ha⟩

theorem safe_lift {r : Except RuntimeError α} {a : α} (h : r = .ok a) (ha : P a) :
    (lift r).Safe P s :=
  .of_done ((lift_done r a s s).mpr ⟨h, rfl⟩) ha

theorem Safe.mono (h : x.Safe P s) (hPQ : ∀ a, P a → Q a) : x.Safe Q s := by
  rcases h with ⟨a, hx, ha⟩ | hfailed
  · exact .inl ⟨a, hx, hPQ a ha⟩
  · exact .inr hfailed

theorem Safe.bind {f : α → Run β} {R : β → Prop} (h : x.Safe P s)
    (hf : ∀ a, P a → (f a).Safe R s) : (x >>= f).Safe R s := by
  rcases h with ⟨a, hx, ha⟩ | ⟨i, n, hx⟩
  · have hbind : (x >>= f) s = f a s := by
      change Run.bind x f s = _
      rw [Run.bind, hx]
    rcases hf a ha with ⟨b, hb, hR⟩ | ⟨i, n, hfailed⟩
    · exact .inl ⟨b, hbind.trans hb, hR⟩
    · exact .inr ⟨i, n, hbind.trans hfailed⟩
  · refine .inr ⟨i, n, ?_⟩
    change Run.bind x f s = _
    rw [Run.bind, hx]

end Run

/-! ## Operators -/

namespace Value

theorem exists_number {kind : Scalar} {v : Value} (h : kind.admits v = true)
    (hkind : kind ≠ .string) : ∃ n, v.number? = some n := by
  rcases number_of_admits h hkind with ⟨-, x, hx⟩ | ⟨-, i, hi⟩
  · exact ⟨_, hx⟩
  · exact ⟨_, hi⟩

theorem binary_of_numbers {op : BinaryOp} {v w : Value} {a b : Number}
    (hv : v.number? = some a) (hw : w.number? = some b) : ∃ r, binary op v w = .ok r := by
  unfold binary
  split
  · exact ⟨_, rfl⟩
  · exact ⟨_, rfl⟩
  · cases hv
  · rw [hv, hw]
    exact ⟨_, rfl⟩

end Value

namespace Lower

theorem exists_binary {op : BinaryOp} {left right c : ValueCode} {v w : Value}
    (h : binary op left right = .ok c) (hv : left.kind.admits v = true)
    (hw : right.kind.admits w = true) : ∃ r, Value.binary op v w = .ok r := by
  have hchecked (hcheck : checkOperands op left.kind right.kind = .ok ()) :
      ∃ r, Value.binary op v w = .ok r := by
    rcases checkOperands_ok hcheck with ⟨hleft, hright, heq⟩ | ⟨hleft, hright⟩
    · rw [hleft] at hv
      rw [hright] at hw
      obtain ⟨a, rfl⟩ := Value.str_of_admits hv
      obtain ⟨b, rfl⟩ := Value.str_of_admits hw
      rcases heq with rfl | rfl <;> exact ⟨_, rfl⟩
    · obtain ⟨a, ha⟩ := Value.exists_number hv hleft
      obtain ⟨b, hb⟩ := Value.exists_number hw hright
      exact Value.binary_of_numbers ha hb
  obtain ⟨hop, -⟩ | ⟨-, test, cond, code, -, hcode, -⟩ | ⟨-, -, h⟩ := binary_ok h
  · cases op with
    | and | or => exact ⟨_, rfl⟩
    | _ => cases hop
  · obtain ⟨-, _, -, hoperands, -⟩ := comparison_ok hcode
    exact hchecked (operands_ok hoperands).1
  · obtain ⟨_, _, hoperands, -⟩ := arithmetic_ok h
    exact hchecked (operands_ok hoperands).1

theorem exists_unary {op : UnaryOp} {operand c : ValueCode} {v : Value}
    (h : unary op operand = .ok c) (hv : operand.kind.admits v = true) :
    ∃ r, Value.unary op v = .ok r := by
  cases op with
  | not => exact ⟨_, rfl⟩
  | neg =>
    have hkind : operand.kind ≠ .string := by
      intro hstring
      simp [unary, hstring] at h
    obtain ⟨n, hn⟩ := Value.exists_number hv hkind
    cases n <;> exact ⟨_, by rw [Value.unary, hn]⟩

end Lower

/-! ## Elements -/

section Elements

variable {s : State} {v : Value} {i : Int64} {count columns : Nat} {element : Scalar}

theorem Value.int_of_admits (h : Scalar.int.admits v = true) : ∃ i, v = .int i := by
  cases v with
  | int i => exact ⟨i, rfl⟩
  | _ => cases h

theorem safe_itemAt {items : List Value} {P : Value → Prop} (h : ∀ item ∈ items, P item) :
    (Run.lift (Value.itemAt items i)).Safe P s := by
  unfold Value.itemAt
  split
  · rename_i item hitem
    split at hitem
    · cases hitem
    · exact Run.safe_lift rfl (h item (List.mem_of_getElem? hitem))
  · exact .inr ⟨i, items.length, rfl⟩

theorem Value.at?_row_safe (h : v.isRow count element = true) :
    (Run.lift (Value.at? v (.int i))).Safe (element.admits · = true) s := by
  cases v with
  | array items =>
    rw [Value.isRow, Bool.and_eq_true] at h
    exact safe_itemAt (List.all_eq_true.mp h.2)
  | _ => cases h

namespace Shape

theorem rows_safe {base : Slot} (h : (array ⟨base, count, element, some columns⟩).admits v = true) :
    (Run.lift (Value.at? v (.int i))).Safe (·.isRow columns element = true) s := by
  cases v with
  | array rows =>
    rw [admits, Bool.and_eq_true] at h
    exact safe_itemAt (List.all_eq_true.mp h.2)
  | _ => cases h

theorem tuple_safe {elements : List (Slot × Scalar)} {slot : Slot} {kind : Scalar}
    (h : (tuple elements).admits v = true) (hi : elements[i.toInt.toNat]? = some (slot, kind)) :
    (Run.lift (Value.at? v (.int i))).Safe (kind.admits · = true) s := by
  cases hat : Value.at? v (.int i) with
  | ok item => exact Run.safe_lift rfl (tuple_admits h hi hat)
  | error e =>
    cases v with
    | tuple items =>
      simp only [Value.at?, Value.itemAt] at hat
      split at hat
      · cases hat
      · cases hat
        exact .inr ⟨_, _, rfl⟩
    | _ => cases h

theorem dict_safe {fields : List Field} {f : Field} {key : String}
    (h : (dict fields).admits v = true) (hf : field? fields key = some f) :
    (Run.lift (Value.at? v (.str (Escape.text key)))).Safe (f.shape.admits · = true) s := by
  cases hat : Value.at? v (.str (Escape.text key)) with
  | ok item => exact Run.safe_lift rfl (dict_admits h hf rfl hat)
  | error e =>
    cases v with
    | dict entries =>
      rw [admits, Bool.and_eq_true] at h
      have hkey : f.key = key := by simpa using List.find?_some hf
      have hany := List.all_eq_true.mp h.2 f (List.mem_of_find?_eq_some hf)
      rw [hkey] at hany
      cases hget : Bindings.get? entries (Escape.text key) with
      | none => simp [hget] at hany
      | some w => simp [Value.at?, hget] at hat
    | _ => cases h

end Shape

end Elements

/-! ## A scope and a state that know the same -/

namespace Scope

/-- The scope and the state have the same variables, with values of the known shapes, and the same
enums. -/
structure Mirrors (scope : Scope) (s : State) : Prop where
  bound : ∀ name, (scope.frame.lookup name).isSome = (s.locals.get? name).isSome
  shapes : ∀ name symbol v, scope.frame.lookup name = some symbol →
    s.locals.get? name = some v → symbol.shape.admits v = true
  enums : ∀ name, scope.enums.get? name = s.enums.get? name

/-- No case of an enum is written with an escape. -/
def PlainCases (scope : Scope) : Prop :=
  ∀ name cases, scope.enums.get? name = some cases → ∀ case ∈ cases, Escape.Plain case

def mirrors (scope : Scope) (s : State) : Bool :=
  scope.frame.symbols.map (·.1) = s.locals.map (·.1) && scope.enums = s.enums &&
    scope.frame.symbols.all fun entry => (s.locals.get? entry.1).any entry.2.shape.admits

def plainCases (scope : Scope) : Bool := scope.enums.all (·.2.all (Escape.Plain ·))

variable {scope : Scope} {s : State} {name : String}

theorem mirrors_of_mirrors (h : scope.mirrors s = true) : scope.Mirrors s := by
  simp only [mirrors, Bool.and_eq_true, decide_eq_true_eq] at h
  obtain ⟨⟨hnames, henums⟩, hshapes⟩ := h
  refine ⟨fun name => ?_, fun name symbol v hsymbol hv => ?_, fun name => by rw [henums]⟩
  · rw [Bool.eq_iff_iff, Option.isSome_iff_exists, Option.isSome_iff_exists, Frame.lookup,
      ← Bindings.mem_names, ← Bindings.mem_names, hnames]
  · have hmem := Bindings.mem_of_get? _ _ _ hsymbol
    have := List.all_eq_true.mp hshapes _ hmem
    simpa [hv] using this

theorem plainCases_of_plainCases (h : scope.plainCases = true) : scope.PlainCases := by
  intro name cases hcases case hcase
  have hall := List.all_eq_true.mp h _ (Bindings.mem_of_get? _ _ _ hcases)
  simpa using List.all_eq_true.mp hall case hcase

theorem Mirrors.getVar {slot : Slot} {shape : Shape} (h : scope.Mirrors s)
    (hshape : scope.shape? name = some (slot, shape)) :
    ∃ v, Run.getVar name s = .done v s ∧ shape.admits v = true := by
  obtain ⟨symbol, hlookup, rfl⟩ := lookup_of_shape? hshape
  have hbound := h.bound name
  rw [hlookup] at hbound
  obtain ⟨v, hv⟩ := Option.isSome_iff_exists.mp hbound.symm
  exact ⟨v, (Run.getVar_done _ _ _ _).mpr ⟨rfl, .inl hv⟩, h.shapes name symbol v hlookup hv⟩

theorem Mirrors.getEnum {cases : List String} (h : scope.Mirrors s)
    (hshape : scope.shape? name = none) (hcases : scope.enums.get? name = some cases) :
    Run.getVar name s = .done (.enum name cases) s := by
  have hnone : s.locals.get? name = none := by
    have hbound := h.bound name
    rw [Option.map_eq_none_iff.mp hshape] at hbound
    simpa using hbound.symm
  rw [h.enums] at hcases
  exact (Run.getVar_done _ _ _ _).mpr ⟨rfl, .inr ⟨hnone, cases, hcases, rfl⟩⟩

end Scope

namespace Lower

variable {scope : Scope} {s : State} {name : String} {c : ValueCode} {x y : Run Value}

theorem varValue_safe (h : scope.Mirrors s) (hc : varValue scope name = .ok c) :
    (Run.getVar name).Safe (c.kind.admits · = true) s := by
  unfold varValue at hc
  split at hc
  · rename_i slot shape hshape
    split at hc
    · rename_i kind hkind
      cases hc
      obtain ⟨v, hv, hadmits⟩ := h.getVar hshape
      exact .of_done hv ((Shape.admits_scalar? hkind v).symm.trans hadmits)
    · cases hc
  · split at hc <;> cases hc

/-- What is known of the run of a position: it gives the value of a literal, and a value of the kind
of the code, if there is any. -/
structure Position (position : Expr) (value : Except LowerError ValueCode) (x : Run Value)
    (s : State) : Prop where
  literal : ∀ w, position.literal? = some w → x.Safe (· = w) s
  value : ∀ p, value = .ok p → x.Safe (p.kind.admits · = true) s

theorem indexCode_int {p : ValueCode} {code : Asm.Code} (h : indexCode p = .ok code) :
    p.kind = .int := by
  unfold indexCode at h
  split at h
  · assumption
  · cases h

variable {position row column : Expr} {value rowValue columnValue : Except LowerError ValueCode}

theorem Position.index {p : ValueCode} {code : Asm.Code} (h : Position position value x s)
    (hp : value = .ok p) (hcode : indexCode p = .ok code) : x.Safe (∃ i, · = .int i) s := by
  refine (h.value p hp).mono fun b hb => ?_
  rw [indexCode_int hcode] at hb
  exact Value.int_of_admits hb

theorem Position.element {view : ArrayView} (h : Position position value x s)
    (hc : element view position value = .ok c) : x.Safe (∃ i, · = .int i) s := by
  unfold Lower.element at hc
  split at hc
  · exact (h.literal _ rfl).mono fun b hb => ⟨_, hb⟩
  · simp only [bind_eq_ok] at hc
    obtain ⟨p, hp, code, hcode, -⟩ := hc
    exact h.index hp hcode

theorem Position.cell {layout : ArrayLayout} {columns : Nat} (hrow : Position row rowValue x s)
    (hcolumn : Position column columnValue y s)
    (hc : cell layout columns row column rowValue columnValue = .ok c) :
    x.Safe (∃ i, · = .int i) s ∧ y.Safe (∃ i, · = .int i) s := by
  unfold Lower.cell at hc
  split at hc
  · exact ⟨(hrow.literal _ rfl).mono fun b hb => ⟨_, hb⟩,
      (hcolumn.literal _ rfl).mono fun b hb => ⟨_, hb⟩⟩
  · simp only [bind_eq_ok] at hc
    obtain ⟨p, hp, code, hcode, q, hq, code', hcode', -⟩ := hc
    exact ⟨hrow.index hp hcode, hcolumn.index hq hcode'⟩

theorem elementOf_safe (h : scope.Mirrors s) (hplain : scope.PlainCases)
    (hc : elementOf scope name position value = .ok c) (hx : Position position value x s) :
    ∃ a, Run.getVar name s = .done a s ∧
      x.Safe (fun b => (Run.lift (Value.at? a b)).Safe (c.kind.admits · = true) s) s := by
  unfold elementOf at hc
  split at hc
  · rename_i hshape
    split at hc
    · rename_i cases hcases
      refine ⟨_, h.getEnum hshape hcases, ?_⟩
      cases position with
      | str case =>
        simp only [enumCase] at hc
        split at hc
        · rename_i hmem
          cases hc
          refine (hx.literal _ rfl).mono fun b hb => ?_
          have hcase : case ∈ cases := by simpa using hmem
          rw [hb, (hplain name cases hcases case hcase).text_eq]
          exact Run.safe_lift (if_pos hcase) rfl
        · cases hc
      | _ => cases hc
    · cases hc
  · rename_i slot layout hshape
    obtain ⟨base, count, kind, inner⟩ := layout
    cases inner with
    | some columns => cases hc
    | none =>
      obtain ⟨a, ha, hrow⟩ := h.getVar hshape
      refine ⟨a, ha, (hx.element hc).mono fun b hb => ?_⟩
      obtain ⟨i, rfl⟩ := hb
      rw [(element_ok hc).1]
      exact Value.at?_row_safe hrow
  · rename_i slot elements hshape
    obtain ⟨a, ha, htuple⟩ := h.getVar hshape
    refine ⟨a, ha, ?_⟩
    cases position with
    | int i =>
      simp only [tupleElement] at hc
      split at hc
      · rename_i slot' kind hi
        cases hc
        split at hi
        · refine (hx.literal _ rfl).mono fun b hb => ?_
          rw [hb]
          exact Shape.tuple_safe htuple hi
        · cases hi
      · cases hc
    | _ => cases hc
  · rename_i slot fields hshape
    obtain ⟨a, ha, hdict⟩ := h.getVar hshape
    refine ⟨a, ha, ?_⟩
    cases position with
    | str key =>
      simp only [dictElement] at hc
      split at hc
      · rename_i hfield
        cases hc
        refine (hx.literal _ rfl).mono fun b hb => ?_
        rw [hb]
        exact Shape.dict_safe hdict hfield
      · cases hc
      · cases hc
    | _ => cases hc
  · cases hc

theorem elementOfElement_safe (h : scope.Mirrors s)
    (hc : elementOfElement scope name row column rowValue columnValue = .ok c)
    (hx : Position row rowValue x s) (hy : Position column columnValue y s) :
    ∃ a, Run.getVar name s = .done a s ∧
      x.Safe (fun b => (Run.lift (Value.at? a b)).Safe (fun r =>
        y.Safe (fun b' => (Run.lift (Value.at? r b')).Safe (c.kind.admits · = true) s) s) s) s := by
  unfold elementOfElement at hc
  split at hc
  · rename_i slot layout hshape
    obtain ⟨base, count, kind, inner⟩ := layout
    cases inner with
    | none => cases hc
    | some columns =>
      obtain ⟨a, ha, hrows⟩ := h.getVar hshape
      obtain ⟨hrow, hcolumn⟩ := hx.cell hy hc
      refine ⟨a, ha, hrow.mono fun b hb => ?_⟩
      obtain ⟨i, rfl⟩ := hb
      refine (Shape.rows_safe hrows).mono fun r hr => hcolumn.mono fun b' hb' => ?_
      obtain ⟨j, rfl⟩ := hb'
      rw [(cell_ok hc).1]
      exact Value.at?_row_safe hr
  · rename_i slot fields hshape
    simp only [bind_eq_ok] at hc
    obtain ⟨view, hview, hc⟩ := hc
    cases view with
    | none => cases hc
    | some view =>
      obtain ⟨a, ha, hdict⟩ := h.getVar hshape
      refine ⟨a, ha, ?_⟩
      unfold arrayView at hview
      rw [hshape] at hview
      cases row with
      | str key =>
        simp only at hview
        split at hview
        · rename_i hfield
          cases hview
          refine (hx.literal _ rfl).mono fun b hb => ?_
          rw [hb]
          refine (Shape.dict_safe hdict hfield).mono fun r hr => ?_
          refine (hy.element hc).mono fun b' hb' => ?_
          obtain ⟨j, rfl⟩ := hb'
          rw [(element_ok hc).1]
          exact Value.at?_row_safe hr
        · cases hview
      | _ => cases hview
  · cases hc

end Lower

/-! ## Expressions -/

/-- How deep operators and elements nest. No other expression without calls has both code and
parts. -/
def Expr.height : Expr → Nat
  | binary _ lhs rhs => max lhs.height rhs.height + 1
  | unary _ operand => operand.height + 1
  | index target position => max target.height position.height + 1
  | _ => 1

section Expressions

variable {scope : Scope} {s : State} {rounds depth d : Nat}

theorem Run.safe_literal {e : Expr} {w : Value} (h : e.literal? = some w)
    (hdepth : e.height ≤ depth) : (Run.evalWithin rounds depth e).Safe (· = w) s := by
  cases depth with
  | zero => cases e <;> simp [Expr.height] at hdepth
  | succ depth =>
    cases e with
    | int | str =>
      cases h
      exact .of_done rfl rfl
    | _ => cases h

theorem Run.safe_var {name : String} {a : Value} (h : Run.getVar name s = .done a s)
    (hdepth : (Expr.var name).height ≤ depth) :
    (Run.evalWithin rounds depth (.var name)).Safe (· = a) s := by
  cases depth with
  | zero => simp [Expr.height] at hdepth
  | succ depth => exact .of_done h rfl

theorem Run.safe_index {target position : Expr} {P Q : Value → Prop}
    (htarget : (Run.evalWithin rounds depth target).Safe P s)
    (hposition : ∀ a, P a → (Run.evalWithin rounds depth position).Safe
      (fun b => (Run.lift (Value.at? a b)).Safe Q s) s) :
    (Run.evalWithin rounds (depth + 1) (.index target position)).Safe Q s :=
  htarget.bind fun a ha => (hposition a ha).bind fun _ hb => hb

theorem evalWithin_safe (e : Expr) (c : Lower.ValueCode) (hc : Lower.expr scope d e = .ok c)
    (hcalls : e.calls = []) (hs : scope.Mirrors s) (hplain : scope.PlainCases)
    (hdepth : e.height ≤ depth) :
    (Run.evalWithin rounds depth e).Safe (c.kind.admits · = true) s := by
  -- on the depth, since a row of an element is two levels down
  induction depth using Nat.strong_induction_on generalizing e c with
  | _ depth ih =>
    have hposition : ∀ n < depth, ∀ position : Expr, position.calls = [] →
        position.height ≤ n → Lower.Position position (Lower.expr scope d position)
          (Run.evalWithin rounds n position) s := by
      intro n hn position hcalls hheight
      exact ⟨fun w hw => Run.safe_literal hw hheight,
        fun p hp => ih n hn position p hp hcalls hheight⟩
    cases depth with
    | zero => cases e <;> simp [Expr.height] at hdepth
    | succ depth =>
      have hlt := Nat.lt_succ_self depth
      cases e with
      | int | float | str | bool =>
        rw [Lower.expr] at hc
        cases hc
        exact .of_done rfl rfl
      | nil | interpolation | input | array | tuple | dict =>
        rw [Lower.expr] at hc
        cases hc
      | var name =>
        rw [Lower.expr] at hc
        exact Lower.varValue_safe hs hc
      | call name args => simp [Expr.calls] at hcalls
      | unary op operand =>
        simp only [Lower.expr, bind_eq_ok] at hc
        obtain ⟨value, hvalue, hc⟩ := hc
        have hheight : operand.height ≤ depth := Nat.le_of_succ_le_succ hdepth
        refine (ih depth hlt operand value hvalue hcalls hheight).bind fun v hv => ?_
        obtain ⟨r, hr⟩ := Lower.exists_unary hc hv
        exact Run.safe_lift hr (Lower.unary_admits hc hv hr)
      | binary op lhs rhs =>
        simp only [Lower.expr, bind_eq_ok] at hc
        obtain ⟨left, hleft, right, hright, hc⟩ := hc
        simp only [Expr.calls, List.append_eq_nil_iff] at hcalls
        obtain ⟨hl, hr⟩ := Nat.max_le.mp (Nat.le_of_succ_le_succ hdepth)
        refine (ih depth hlt lhs left hleft hcalls.1 hl).bind fun v hv => ?_
        refine (ih depth hlt rhs right hright hcalls.2 hr).bind fun w hw => ?_
        obtain ⟨r, hr⟩ := Lower.exists_binary hc hv hw
        exact Run.safe_lift hr (Lower.binary_admits hc hv hw hr)
      | index target position =>
        simp only [Expr.calls, List.append_eq_nil_iff] at hcalls
        obtain ⟨ht, hp⟩ := Nat.max_le.mp (Nat.le_of_succ_le_succ hdepth)
        have hcolumn := hposition depth hlt position hcalls.2 hp
        cases target with
        | var name =>
          rw [Lower.expr] at hc
          obtain ⟨a, ha, hat⟩ := Lower.elementOf_safe hs hplain hc hcolumn
          refine Run.safe_index (Run.safe_var ha ht) fun v hv => ?_
          rw [hv]
          exact hat
        | index target row =>
          cases target with
          | var name =>
            rw [Lower.expr] at hc
            simp only [Expr.calls, List.nil_append] at hcalls
            cases depth with
            | zero => simp [Expr.height] at ht
            | succ depth =>
              obtain ⟨hn, hr⟩ := Nat.max_le.mp (Nat.le_of_succ_le_succ ht)
              have hrow := hposition depth (by omega) row hcalls.1 hr
              obtain ⟨a, ha, hat⟩ := Lower.elementOfElement_safe hs hc hrow hcolumn
              refine Run.safe_index (Run.safe_index (Run.safe_var ha hn) fun v hv => ?_)
                fun _ h => h
              rw [hv]
              exact hat
          | _ => simp [Lower.expr] at hc
        | _ => simp [Lower.expr] at hc

end Expressions

/-- Kinds are sound: an expression without calls that has code evaluates to a value of exactly the
kind of the code. The only other outcome is a position that is out of range. -/
theorem Lower.expr_sound (scope : Scope) (s : State) (d : Nat) (e : Expr) (c : Lower.ValueCode)
    (fuel : Fuel) (hc : Lower.expr scope d e = .ok c) (hcalls : e.calls = [])
    (hs : scope.Mirrors s) (hplain : scope.PlainCases) (hfuel : e.height ≤ fuel.depth) :
    (∃ v, Run.eval fuel e s = .done v s ∧ c.kind.admits v = true) ∨
      ∃ i n, Run.eval fuel e s = .failed (.outOfRange i n) s :=
  evalWithin_safe e c hc hcalls hs hplain hfuel

/-- Rows of counts, a dict with a price and a row, a variable and an enum. -/
def shelfScope : Scope where
  inFunction := false
  done := ⟨0⟩
  functions := []
  enums := [("Size", ["small", "large"])]
  frame :=
    { symbols :=
        [("counts", ⟨⟨0⟩, 4, .array ⟨⟨0⟩, 2, .int, some 2⟩⟩),
          ("item", ⟨⟨4⟩, 3, .dict [⟨"price", ⟨4⟩, .scalar .float⟩, ⟨"sold", ⟨5⟩, .array 2 .int⟩]⟩),
          ("i", ⟨⟨7⟩, 1, .scalar .int⟩)]
      used := 8
      scratch := [] }
  labels := .empty

def shelfState : State where
  functions := []
  enums := [("Size", ["small", "large"])]
  locals :=
    [("counts", .array [.array [.int 1, .int 2], .array [.int 3, .int 4]]),
      ("item", .dict [("price", .float (.ofInt 1)), ("sold", .array [.int 5, .int 6])]),
      ("i", .int 1)]
  callers := []
  output := ""

/-- The price of some items against what was sold, and whether the size is the small one. -/
def shelfTest : Expr :=
  .binary .and
    (.binary .lt
      (.binary .mul (.index (.index (.var "counts") (.var "i")) (.int 0))
        (.index (.var "item") (.str "price")))
      (.index (.index (.var "item") (.str "sold")) (.var "i")))
    (.binary .eq (.index (.var "Size") (.str "small")) (.str "small"))

theorem shelfTest_sound :
    ∃ c, Lower.expr shelfScope 0 shelfTest = .ok c ∧ c.kind = .bool ∧ shelfTest.calls = [] ∧
      shelfScope.Mirrors shelfState ∧ shelfScope.PlainCases ∧ shelfTest.height ≤ 6 ∧
      ((∃ v, Run.eval ⟨6, 0⟩ shelfTest shelfState = .done v shelfState ∧
          c.kind.admits v = true) ∨
        ∃ i n, Run.eval ⟨6, 0⟩ shelfTest shelfState = .failed (.outOfRange i n) shelfState) := by
  obtain ⟨c, hc, hkind⟩ : ∃ c, Lower.expr shelfScope 0 shelfTest = .ok c ∧ c.kind = .bool :=
    ⟨_, rfl, rfl⟩
  have hs : shelfScope.Mirrors shelfState := Scope.mirrors_of_mirrors (by decide +kernel)
  have hplain : shelfScope.PlainCases := Scope.plainCases_of_plainCases (by decide +kernel)
  exact ⟨c, hc, hkind, by decide +kernel, hs, hplain, by decide +kernel,
    Lower.expr_sound shelfScope shelfState 0 shelfTest c ⟨6, 0⟩ hc (by decide +kernel) hs hplain
      (by decide +kernel)⟩

end Armature
