import Armature.Proofs.Inversion

/-!
# Checks that lowering makes of itself

An expression is never lowered with an operator that the code for its kind does not have. So what
keeps an expression from being lowered is always a fault of the program.
-/

namespace Armature.Lower

variable {α β : Type}

/-- No check that lowering makes of itself fails. -/
def Faultless (x : Except LowerError α) : Prop := ∀ defect, x ≠ .error (.internal defect)

theorem faultless_ok (a : α) : Faultless (.ok a) := by
  intro defect h
  cases h

theorem faultless_unsupported (c : Construct) :
    Faultless (.error (.unsupported c) : Except LowerError α) := by
  intro defect h
  cases h

theorem faultless_exhausted (r : Resource) :
    Faultless (.error (.exhausted r) : Except LowerError α) := by
  intro defect h
  cases h

theorem Faultless.ne_internal {x : Except LowerError α} {e : LowerError} (hx : Faultless x)
    (h : x = .error e) (defect : Asm.Defect) : e ≠ .internal defect := by
  rintro rfl
  exact hx defect h

theorem Faultless.bind {x : Except LowerError α} {f : α → Except LowerError β} (hx : Faultless x)
    (hf : ∀ a, x = .ok a → Faultless (f a)) : Faultless (x >>= f) := by
  cases x with
  | error e =>
    intro defect h
    exact hx defect (congrArg Except.error (Except.error.inj h))
  | ok a => exact hf a rfl

/-! ## Operators -/

theorem faultless_operands (op : BinaryOp) (left right : ValueCode) :
    Faultless (operands op left right) := by
  refine Faultless.bind ?_ fun _ _ => faultless_ok _
  unfold checkOperands
  split
  · exact faultless_unsupported _
  · split
    · exact faultless_unsupported _
    · exact faultless_ok _

theorem faultless_comparison {op : BinaryOp} (hop : op.isComparison = true)
    (left right : ValueCode) : Faultless (comparison op left right) := by
  obtain ⟨test, htest⟩ := exists_test hop
  refine (faultless_operands op left right).bind ?_
  rintro ⟨float, code⟩ -
  rw [htest]
  cases float <;> exact faultless_ok _

theorem faultless_arithmetic {op : BinaryOp} (hlogical : op.isLogical = false)
    (hcomparison : op.isComparison = false) (left right : ValueCode) :
    Faultless (arithmetic op left right) := by
  refine (faultless_operands op left right).bind ?_
  rintro ⟨float, code⟩ -
  cases op with
  | eq | ne | lt | gt | le | ge => cases hcomparison
  | and | or => cases hlogical
  | add | sub | mul | div | mod => cases float <;> exact faultless_ok _

/-- The code of each operator is looked for where it is. -/
theorem faultless_binary (op : BinaryOp) (left right : ValueCode) :
    Faultless (binary op left right) := by
  unfold binary
  split
  · exact faultless_ok _
  · rename_i hlogical
    split
    · rename_i hcomparison
      exact (faultless_comparison hcomparison left right).bind fun _ _ => faultless_ok _
    · rename_i hcomparison
      exact faultless_arithmetic ((Bool.not_eq_true _).mp hlogical)
        ((Bool.not_eq_true _).mp hcomparison) left right

theorem faultless_unary (op : UnaryOp) (operand : ValueCode) : Faultless (unary op operand) := by
  cases op with
  | not => exact faultless_ok _
  | neg =>
    unfold unary
    cases operand.kind with
    | string => exact faultless_unsupported _
    | _ => exact faultless_ok _

/-! ## Elements -/

theorem faultless_varValue (s : Scope) (name : String) : Faultless (varValue s name) := by
  unfold varValue
  split
  · split
    · exact faultless_ok _
    · exact faultless_unsupported _
  · split
    · exact faultless_unsupported _
    · exact faultless_unsupported _

theorem faultless_arrayView (s : Scope) (name : String) (position : Expr) :
    Faultless (arrayView s name position) := by
  unfold arrayView
  split
  · split
    · exact faultless_ok _
    · exact faultless_ok _
  · split
    · exact faultless_ok _
    · exact faultless_unsupported _
  · exact faultless_ok _

theorem faultless_indexCode (value : ValueCode) : Faultless (indexCode value) := by
  unfold indexCode
  split
  · exact faultless_ok _
  · exact faultless_unsupported _

section Elements

variable {value rowValue : Except LowerError ValueCode} (hvalue : Faultless value)
  (hrow : Faultless rowValue)

include hvalue

theorem faultless_element (view : ArrayView) (position : Expr) :
    Faultless (element view position value) := by
  unfold element
  split
  · split
    · exact faultless_ok _
    · exact faultless_unsupported _
  · exact hvalue.bind fun _ _ => (faultless_indexCode _).bind fun _ _ => faultless_ok _

theorem faultless_elementOf (s : Scope) (name : String) (position : Expr) :
    Faultless (elementOf s name position value) := by
  unfold elementOf
  split
  · split
    · unfold enumCase
      split
      · split
        · exact faultless_ok _
        · exact faultless_unsupported _
      · exact faultless_unsupported _
    · exact faultless_unsupported _
  · split
    · exact faultless_unsupported _
    · exact faultless_element hvalue _ _
  · unfold tupleElement
    split
    · split
      · exact faultless_ok _
      · exact faultless_unsupported _
    · exact faultless_unsupported _
  · unfold dictElement
    split
    · split
      · exact faultless_ok _
      · exact faultless_unsupported _
      · exact faultless_unsupported _
    · exact faultless_unsupported _
  · exact faultless_unsupported _

include hrow

theorem faultless_cell (layout : ArrayLayout) (columns : Nat) (row column : Expr) :
    Faultless (cell layout columns row column rowValue value) := by
  unfold cell
  split
  · split
    · exact faultless_ok _
    · exact faultless_unsupported _
  · exact hrow.bind fun _ _ => (faultless_indexCode _).bind fun _ _ => hvalue.bind fun _ _ =>
      (faultless_indexCode _).bind fun _ _ => faultless_ok _

theorem faultless_elementOfElement (s : Scope) (name : String) (row column : Expr) :
    Faultless (elementOfElement s name row column rowValue value) := by
  unfold elementOfElement
  split
  · split
    · exact faultless_cell hvalue hrow _ _ _ _
    · exact faultless_unsupported _
  · refine (faultless_arrayView s name row).bind fun view? _ => ?_
    cases view? with
    | some view => exact faultless_element hvalue view column
    | none => exact faultless_unsupported _
  · exact faultless_unsupported _

end Elements

/-! ## Expressions -/

theorem faultless_callee (s : Scope) (depth : Nat) (name : String) (count : Nat) :
    Faultless (callee s depth name count) := by
  unfold callee
  split
  · exact faultless_unsupported _
  · split
    · exact faultless_exhausted _
    · split
      · exact faultless_unsupported _
      · split
        · exact faultless_exhausted _
        · exact faultless_ok _

mutual

theorem faultless_expr (s : Scope) (depth : Nat) (e : Expr) : Faultless (expr s depth e) := by
  match e with
  | .int _ | .float _ | .bool _ | .str _ =>
    rw [expr]
    exact faultless_ok _
  | .var name =>
    rw [expr]
    exact faultless_varValue s name
  | .binary op lhs rhs =>
    rw [expr]
    exact (faultless_expr s depth lhs).bind fun _ _ => (faultless_expr s depth rhs).bind fun _ _ =>
      faultless_binary op _ _
  | .unary op operand =>
    rw [expr]
    exact (faultless_expr s depth operand).bind fun _ _ => faultless_unary op _
  | .call name args =>
    rw [expr]
    exact (faultless_callee s depth name args.length).bind fun _ _ =>
      (faultless_arguments s depth name args).bind fun _ _ => faultless_ok _
  | .index target position =>
    have hposition := faultless_expr s depth position
    cases target with
    | var name =>
      rw [expr]
      exact faultless_elementOf hposition s name position
    | index inner row =>
      have hrow := faultless_expr s depth row
      cases inner with
      | var name =>
        rw [expr]
        exact faultless_elementOfElement hposition hrow s name row position
      | _ => exact faultless_unsupported _
    | _ => exact faultless_unsupported _
  | .nil | .input _ | .interpolation _ | .array _ | .tuple _ | .dict _ =>
    rw [expr]
    exact faultless_unsupported _

theorem faultless_arguments (s : Scope) (depth : Nat) (name : String) (args : List Expr) :
    Faultless (arguments s depth name args) := by
  match args with
  | [] =>
    rw [arguments]
    exact faultless_ok _
  | arg :: rest =>
    rw [arguments]
    refine (faultless_expr s depth arg).bind fun value _ => ?_
    split
    · exact faultless_unsupported _
    · exact (faultless_arguments s (depth + 1) name rest).bind fun _ _ => faultless_ok _

end

end Armature.Lower
