import Armature.Proofs.Inversion
import Armature.Proofs.Layout

/-!
# Straight code

The code of an expression has no labels and no branches but calls, and it calls the functions that
the expression names, in the order in which they are needed.
-/

namespace Armature

/-! ## Calls that are written in a program -/

namespace Expr

mutual

/-- The functions that an expression calls, arguments before the call that needs them. -/
def calls : Expr → List String
  | int _ | float _ | str _ | bool _ | nil | var _ | interpolation _ => []
  | binary _ lhs rhs => lhs.calls ++ rhs.calls
  | unary _ operand => operand.calls
  | call name args => allCalls args ++ [name]
  | array items | tuple items => allCalls items
  | dict entries => entryCalls entries
  | index target position => target.calls ++ position.calls
  | input prompt => prompt.calls

def allCalls : List Expr → List String
  | [] => []
  | e :: rest => e.calls ++ allCalls rest

def entryCalls : List (Expr × Expr) → List String
  | [] => []
  | (key, value) :: rest => key.calls ++ value.calls ++ entryCalls rest

end

theorem allCalls_append (xs ys : List Expr) : allCalls (xs ++ ys) = allCalls xs ++ allCalls ys := by
  induction xs with
  | nil => rfl
  | cons e rest ih => simp [allCalls, ih]

theorem allCalls_eq (items : List Expr) : allCalls items = items.flatMap calls := by
  induction items with
  | nil => rfl
  | cons e rest ih => simp [allCalls, ih]

theorem entryCalls_eq (entries : List (Expr × Expr)) :
    entryCalls entries = entries.flatMap fun entry => entry.1.calls ++ entry.2.calls := by
  induction entries with
  | nil => rfl
  | cons entry rest ih => simp [entryCalls, ih]

end Expr

def Range.calls : Range → List String
  | counted start stop => start.calls ++ stop.calls
  | collection items => items.calls
  | condition test => test.calls

namespace Stmt

mutual

def calls : Stmt → List String
  | print value | decl _ value | ret value | throw value | expr value => value.calls
  | loop _ range body => range.calls ++ allCalls body
  | cond test thenBody none => test.calls ++ allCalls thenBody
  | cond test thenBody (some elseBody) => test.calls ++ allCalls thenBody ++ allCalls elseBody
  | func _ _ body => allCalls body
  | enum _ _ => []
  | tryCatch body handler => allCalls body ++ allCalls handler

def allCalls : List Stmt → List String
  | [] => []
  | s :: rest => s.calls ++ allCalls rest

end

end Stmt

/-- The label of a function. -/
def Scope.entryOf (s : Scope) (name : String) : Option Asm.Label :=
  (s.functions.get? name).map (·.entry)

/-! ## Lines without labels -/

namespace Asm.Line

/-- The line has no label and does not branch, except that it may be a call. -/
def linear : Line → Bool
  | instr i => i.displacement?.isNone
  | call _ | address .. | double .. | callImport _ | reserve _ => true
  | mark _ | jump _ | jumpIf .. | jumpIfZero .. | entry => false

/-- The line has no label and does not branch. -/
def plain (l : Line) : Bool := l.linear && l.callTarget?.isNone

end Asm.Line

namespace Lower

open A64 (Cond Instr XReg)
open Asm (Code Line)

/-- Code without labels and branches, which calls the named functions one after the other. -/
structure Straight (s : Scope) (names : List String) (c : Code) : Prop where
  linear : c.all Line.linear = true
  calls : (Code.calls c).map some = names.map s.entryOf

theorem Straight.append {s : Scope} {m n : List String} {c d : Code} (hc : Straight s m c)
    (hd : Straight s n d) : Straight s (m ++ n) (c ++ d) where
  linear := by simp [hc.linear, hd.linear]
  calls := by simp [hc.calls, hd.calls]

theorem straight_of_plain (s : Scope) (c : Code) (h : c.all Line.plain = true) :
    Straight s [] c := by
  rw [List.all_eq_true] at h
  constructor
  · rw [List.all_eq_true]
    intro l hl
    exact (Bool.and_eq_true_iff.mp (h l hl)).1
  · have : Code.calls c = [] := by
      rw [Code.calls, List.filterMap_eq_nil_iff]
      intro l hl
      simpa using (Bool.and_eq_true_iff.mp (h l hl)).2
    rw [this]
    rfl

theorem Straight.andThen {s : Scope} {names : List String} {c d : Code} (hc : Straight s names c)
    (hd : d.all Line.plain = true) : Straight s names (c ++ d) := by
  have := hc.append (straight_of_plain s d hd)
  rwa [List.append_nil] at this

theorem Straight.cons {s : Scope} {names : List String} {l : Line} {c : Code}
    (hl : l.plain = true) (hc : Straight s names c) : Straight s names (l :: c) := by
  have := (straight_of_plain s [l] (by simpa using hl)).append hc
  simpa using this

/-! ## Pieces of code -/

@[simp] theorem plain_instr (i : Instr) : Line.plain (.instr i) = i.displacement?.isNone := by
  simp [Line.plain, Line.linear, Line.callTarget?]

@[simp] theorem plain_address (r : XReg) (bytes : Bytes) : Line.plain (.address r bytes) = true := rfl

@[simp] theorem plain_double (r : A64.DReg) (bits : UInt64) : Line.plain (.double r bits) = true := rfl

@[simp] theorem plain_callImport (f : Asm.Import) : Line.plain (.callImport f) = true := rfl

@[simp] theorem plain_reserve (bytes : Bytes) : Line.plain (.reserve bytes) = true := rfl

@[simp] theorem plain_constant (rd : XReg) (value : BitVec 64) :
    (constant rd value).all Line.plain = true := by
  unfold constant A64.loadImm
  simp only [List.all_map, List.all_eq_true, Function.comp_apply, plain_instr]
  intro i hi
  split at hi <;> split at hi <;>
    simp only [List.mem_cons, List.not_mem_nil, or_false, List.mem_map] at hi
  · subst hi; rfl
  · rcases hi with rfl | ⟨half, -, rfl⟩ <;> rfl
  · subst hi; rfl
  · rcases hi with rfl | ⟨half, -, rfl⟩ <;> rfl

@[simp] theorem plain_loadX (rt : XReg) (slot : Slot) : (loadX rt slot).plain = true := rfl

@[simp] theorem plain_storeX (rt : XReg) (slot : Slot) : (storeX rt slot).plain = true := rfl

@[simp] theorem plain_load (kind : Scalar) (slot : Slot) : (load kind slot).plain = true := by
  cases kind <;> rfl

@[simp] theorem plain_store (kind : Scalar) (slot : Slot) : (store kind slot).plain = true := by
  cases kind <;> rfl

@[simp] theorem plain_push (kind : Scalar) : (push kind).plain = true := by
  cases kind <;> rfl

@[simp] theorem plain_popX (rt : XReg) : (popX rt).plain = true := rfl

@[simp] theorem plain_popD (rt : A64.DReg) : (popD rt).plain = true := rfl

@[simp] theorem plain_pop (kind : Scalar) : (pop kind).plain = true := by
  cases kind <;> rfl

@[simp] theorem plain_loadAt (kind : Scalar) (base : Slot) :
    (loadAt kind base).all Line.plain = true := by
  cases kind <;> rfl

@[simp] theorem plain_truth (kind : Scalar) : (truth kind).all Line.plain = true := by
  cases kind with
  | string => exact plain_constant _ _
  | _ => rfl

theorem plain_intCode {op : BinaryOp} {instrs : List Instr} (h : intCode op = .ok instrs) :
    (instrs.map Line.instr).all Line.plain = true := by
  cases op <;> cases h <;> rfl

theorem plain_floatCode {op : BinaryOp} {instrs : List Instr} (h : floatCode op = .ok instrs) :
    (instrs.map Line.instr).all Line.plain = true := by
  cases op <;> cases h <;> rfl

@[simp] theorem plain_arrange (left right : Scalar) :
    (arrange left right).2.all Line.plain = true := by
  cases left <;> cases right <;> rfl

@[simp] theorem plain_passArguments (depth count : Nat) :
    (passArguments depth count).all Line.plain = true := by
  simp [passArguments, Instr.displacement?, Function.comp_def]

/-! ## Operators -/

section

variable {s : Scope} {m n : List String} {left right : ValueCode}

theorem operands_straight (op : BinaryOp) (r : Bool × Code) (hl : Straight s m left.code)
    (hr : Straight s n right.code) (h : operands op left right = .ok r) :
    Straight s (m ++ n) r.2 := by
  simp only [operands, bind_eq_ok] at h
  obtain ⟨-, -, h⟩ := h
  cases h
  have := hl.append ((hr.andThen (plain_arrange left.kind right.kind)).cons (plain_push left.kind))
  simpa using this

theorem comparison_straight {op : BinaryOp} {cond : Cond} {code : Code}
    (hl : Straight s m left.code) (hr : Straight s n right.code)
    (h : comparison op left right = .ok (cond, code)) : Straight s (m ++ n) code := by
  obtain ⟨-, ⟨float, code⟩, -, hcode, -, rfl⟩ := comparison_ok h
  have hstraight := operands_straight op _ hl hr hcode
  cases float <;> exact hstraight.andThen rfl

theorem arithmetic_straight (op : BinaryOp) (v : ValueCode) (hl : Straight s m left.code)
    (hr : Straight s n right.code) (h : arithmetic op left right = .ok v) :
    Straight s (m ++ n) v.code := by
  obtain ⟨⟨float, code⟩, instrs, hcode, hinstrs, rfl⟩ := arithmetic_ok h
  have hstraight := operands_straight op _ hl hr hcode
  cases float
  · exact hstraight.andThen (plain_intCode hinstrs)
  · exact hstraight.andThen (plain_floatCode hinstrs)

theorem logical_straight (op : BinaryOp) (hl : Straight s m left.code)
    (hr : Straight s n right.code) : Straight s (m ++ n) (logical op left right).code := by
  have hleft := hl.andThen (plain_truth left.kind)
  have hright := (hr.andThen (plain_truth right.kind)).cons (plain_push .bool)
  have hend : [.instr (.mov .x1 .x0), popX .x0, .instr (logicalInstr op)].all Line.plain =
      true := by
    unfold logicalInstr
    split <;> rfl
  have := (hleft.append hright).andThen hend
  simpa [logical] using this

theorem binary_straight (op : BinaryOp) (v : ValueCode) (hl : Straight s m left.code)
    (hr : Straight s n right.code) (h : binary op left right = .ok v) :
    Straight s (m ++ n) v.code := by
  obtain ⟨-, rfl⟩ | ⟨-, test, cond, code, -, hcode, rfl⟩ | ⟨-, -, h⟩ := binary_ok h
  · exact logical_straight op hl hr
  · exact (comparison_straight hl hr hcode).andThen rfl
  · exact arithmetic_straight op v hl hr h

theorem unary_straight (op : UnaryOp) (v : ValueCode) (hl : Straight s m left.code)
    (h : unary op left = .ok v) : Straight s m v.code := by
  cases op with
  | not =>
    cases h
    exact (hl.andThen (plain_truth left.kind)).andThen rfl
  | neg =>
    simp only [unary] at h
    split at h <;> cases h
    · exact hl.andThen rfl
    · exact hl.andThen rfl
    · exact hl.andThen rfl

end

/-! ## Variables and elements -/

theorem varValue_straight (s : Scope) (name : String) (v : ValueCode)
    (h : varValue s name = .ok v) : Straight s [] v.code := by
  unfold varValue at h
  split at h
  · split at h <;> cases h
    exact straight_of_plain s _ (by simp)
  · split at h <;> cases h

theorem indexCode_straight {s : Scope} {names : List String} {v : ValueCode} (c : Code)
    (hv : Straight s names v.code) (h : indexCode v = .ok c) : Straight s names c := by
  unfold indexCode at h
  split at h <;> cases h
  exact hv

theorem element_straight (s : Scope) (view : ArrayView) (position : Expr)
    (value : Except LowerError ValueCode) (v : ValueCode)
    (hvalue : ∀ w, value = .ok w → Straight s position.calls w.code)
    (h : element view position value = .ok v) : Straight s position.calls v.code := by
  unfold element at h
  split at h
  · split at h <;> cases h
    exact straight_of_plain s _ (by simp)
  · simp only [bind_eq_ok] at h
    obtain ⟨w, hw, c, hc, h⟩ := h
    cases h
    exact (indexCode_straight c (hvalue w hw) hc).andThen (plain_loadAt _ _)

theorem cell_straight (s : Scope) (layout : ArrayLayout) (columns : Nat) (row column : Expr)
    (rowValue columnValue : Except LowerError ValueCode) (v : ValueCode)
    (hrow : ∀ w, rowValue = .ok w → Straight s row.calls w.code)
    (hcolumn : ∀ w, columnValue = .ok w → Straight s column.calls w.code)
    (h : cell layout columns row column rowValue columnValue = .ok v) :
    Straight s (row.calls ++ column.calls) v.code := by
  unfold cell at h
  split at h
  · split at h <;> cases h
    exact straight_of_plain s _ (by simp)
  · simp only [bind_eq_ok] at h
    obtain ⟨w₁, hw₁, c₁, hc₁, w₂, hw₂, c₂, hc₂, h⟩ := h
    cases h
    have h₁ := indexCode_straight c₁ (hrow w₁ hw₁) hc₁
    have h₂ := indexCode_straight c₂ (hcolumn w₂ hw₂) hc₂
    have hend : ([Line.instr (.mov .x1 .x0), popX .x0] ++ constant .x2 (BitVec.ofNat 64 columns)
        ++ [Line.instr (.mul .x0 .x0 .x2), Line.instr (.add .x0 .x0 .x1)]
        ++ loadAt layout.element layout.base).all Line.plain = true := by
      simp [Instr.displacement?]
    have := (h₁.append (h₂.cons (plain_push .int))).andThen hend
    simpa using this

theorem elementOf_straight (s : Scope) (name : String) (position : Expr)
    (value : Except LowerError ValueCode) (v : ValueCode)
    (hvalue : ∀ w, value = .ok w → Straight s position.calls w.code)
    (h : elementOf s name position value = .ok v) : Straight s position.calls v.code := by
  unfold elementOf at h
  split at h
  · split at h
    · unfold enumCase at h
      split at h
      · split at h <;> cases h
        exact straight_of_plain s _ (by simp)
      · cases h
    · cases h
  · split at h
    · cases h
    · exact element_straight s _ position value v hvalue h
  · unfold tupleElement at h
    split at h
    · split at h <;> cases h
      exact straight_of_plain s _ (by simp)
    · cases h
  · unfold dictElement at h
    split at h
    · split at h <;> cases h
      exact straight_of_plain s _ (by simp)
    · cases h
  · cases h

theorem calls_of_arrayView (s : Scope) (name : String) (position : Expr) (view : ArrayView)
    (h : arrayView s name position = .ok (some view)) : position.calls = [] := by
  unfold arrayView at h
  split at h
  · rfl
  · rfl
  · cases h

theorem elementOfElement_straight (s : Scope) (name : String) (row column : Expr)
    (rowValue columnValue : Except LowerError ValueCode) (v : ValueCode)
    (hrow : ∀ w, rowValue = .ok w → Straight s row.calls w.code)
    (hcolumn : ∀ w, columnValue = .ok w → Straight s column.calls w.code)
    (h : elementOfElement s name row column rowValue columnValue = .ok v) :
    Straight s (row.calls ++ column.calls) v.code := by
  unfold elementOfElement at h
  split at h
  · split at h
    · exact cell_straight s _ _ row column _ _ v hrow hcolumn h
    · cases h
  · simp only [bind_eq_ok] at h
    obtain ⟨view?, hview, h⟩ := h
    split at h
    · rw [calls_of_arrayView s name row _ hview]
      exact element_straight s _ column _ v hcolumn h
    · cases h
  · cases h

/-! ## Expressions -/

theorem entry_of_callee (s : Scope) (depth : Nat) (name : String) (count : Nat) (f : Callee)
    (h : callee s depth name count = .ok f) : s.entryOf name = some f.entry := by
  rw [Scope.entryOf, (callee_ok h).1]
  rfl

mutual

theorem expr_straight (s : Scope) (depth : Nat) (e : Expr) (v : ValueCode)
    (h : expr s depth e = .ok v) : Straight s e.calls v.code := by
  match e with
  | .int _ | .bool _ =>
    rw [expr] at h
    cases h
    exact straight_of_plain s _ (by simp)
  | .float _ | .str _ =>
    rw [expr] at h
    cases h
    exact straight_of_plain s _ rfl
  | .var name =>
    rw [expr] at h
    exact varValue_straight s name v h
  | .binary op lhs rhs =>
    simp only [expr, bind_eq_ok] at h
    obtain ⟨left, hleft, right, hright, h⟩ := h
    exact binary_straight op v (expr_straight s depth lhs left hleft)
      (expr_straight s depth rhs right hright) h
  | .unary op operand =>
    simp only [expr, bind_eq_ok] at h
    obtain ⟨w, hw, h⟩ := h
    exact unary_straight op v (expr_straight s depth operand w hw) h
  | .call name args =>
    simp only [expr, bind_eq_ok] at h
    obtain ⟨f, hf, c, hc, h⟩ := h
    cases h
    have hargs := (arguments_straight s depth name args c hc).andThen
      (plain_passArguments depth args.length)
    have hcall : Straight s [name] [.call f.entry] :=
      ⟨rfl, by simp [Code.calls, Line.callTarget?, entry_of_callee s depth name _ f hf]⟩
    exact hargs.append hcall
  | .index (.var name) position =>
    simp only [expr] at h
    exact elementOf_straight s name position _ v
      (fun w hw => expr_straight s depth position w hw) h
  | .index (.index (.var name) row) column =>
    simp only [expr] at h
    exact elementOfElement_straight s name row column _ _ v
      (fun w hw => expr_straight s depth row w hw)
      (fun w hw => expr_straight s depth column w hw) h

theorem arguments_straight (s : Scope) (depth : Nat) (name : String) (args : List Expr) (c : Code)
    (h : arguments s depth name args = .ok c) : Straight s (Expr.allCalls args) c := by
  match args with
  | [] =>
    cases h
    exact straight_of_plain s [] rfl
  | arg :: rest =>
    obtain ⟨v, c', hv, -, hc', rfl⟩ := arguments_cons h
    have hrest := arguments_straight s (depth + 1) name rest c' hc'
    exact (expr_straight s depth arg v hv).append (hrest.cons rfl)

end

end Lower

end Armature
