import Armature.Proofs.Discipline
import Armature.Proofs.Frames

/-!
# Balanced code of expressions

The code of an expression pops what it pushes. So it leaves the stack pointer where it was, and it
leaves the arguments that calls around it have staged.
-/

namespace Armature

open A64 (DReg Instr XReg decode)
open Asm (Code Label Line)

/-- A slot that holds a value of some variable. -/
def Scope.Cell (s : Scope) (slot : Slot) : Prop :=
  ∃ name first shape, s.shape? name = some (first, shape) ∧ slot ∈ shape.cells first

namespace Lower

/-! ## Code of expressions -/

/-- The forms that the code of an expression has, where `depth` arguments are staged. -/
inductive Evaluates (s : Scope) : Nat → Code → Prop
  | nil {depth : Nat} : Evaluates s depth []
  | calm {depth : Nat} {i : Instr} : i.calm = true → Evaluates s depth [.instr i]
  | load {depth : Nat} {slot : Slot} (kind : Scalar) :
    s.Cell slot → Evaluates s depth [load kind slot]
  | base {depth : Nat} (slot : Slot) :
    Evaluates s depth [.instr (.addImm .x16 .frameBase slot.offset)]
  | text {depth : Nat} (bytes : Bytes) : Evaluates s depth [.address .x0 bytes]
  | double {depth : Nat} (bits : UInt64) : Evaluates s depth [.double .d0 bits]
  | call {depth : Nat} (label : Label) : Evaluates s depth [.call label]
  | append {depth : Nat} {c d : Code} :
    Evaluates s depth c → Evaluates s depth d → Evaluates s depth (c ++ d)
  /-- A value waits on the stack. -/
  | saved {depth : Nat} {c : Code} (kind kind' : Scalar) :
    Evaluates s depth c → Evaluates s depth ([push kind] ++ c ++ [pop kind'])
  /-- A value waits in a register. -/
  | staged {depth : Nat} {c : Code} : depth < 9 → Evaluates s (depth + 1) c →
    Evaluates s depth ([.instr (.mov (.staging depth) .x0)] ++ c)

section

variable {s : Scope} {depth : Nat} {c d : Code}

theorem Evaluates.andThen (h : Evaluates s depth c) (is : List Instr)
    (his : is.all Instr.calm = true) : Evaluates s depth (c ++ is.map .instr) := by
  refine h.append ?_
  clear h
  induction is with
  | nil => exact .nil
  | cons i rest ih =>
    rw [List.all_cons, Bool.and_eq_true] at his
    exact (Evaluates.calm his.1).append (ih his.2)

theorem evaluates_calm (is : List Instr) (his : is.all Instr.calm = true) :
    Evaluates s depth (is.map .instr) := Evaluates.nil.andThen is his

theorem shift_of_mem {value : BitVec 64} {half : BitVec 16} {shift : BitVec 8}
    (h : (half, shift) ∈ A64.halfwords value) :
    shift = 0 ∨ shift = 16 ∨ shift = 32 ∨ shift = 48 := by
  simp only [A64.halfwords, List.mem_cons, Prod.mk.injEq, List.not_mem_nil, or_false] at h
  rcases h with ⟨-, rfl⟩ | ⟨-, rfl⟩ | ⟨-, rfl⟩ | ⟨-, rfl⟩ <;> simp

theorem calm_halfwords {rd : XReg} (hrd : Instr.isTemporary rd = true) {value : BitVec 64}
    {keep : BitVec 16 × BitVec 8 → Bool} {half : BitVec 16} {shift : BitVec 8}
    {rest : List (BitVec 16 × BitVec 8)}
    (h : (A64.halfwords value).filter keep = (half, shift) :: rest) :
    (shift = 0 ∨ shift = 16 ∨ shift = 32 ∨ shift = 48) ∧
      (rest.map fun (h, s) => Instr.movk rd h s).all Instr.calm = true := by
  have hmem (pair) (hpair : pair ∈ (half, shift) :: rest) : pair ∈ A64.halfwords value := by
    rw [← h] at hpair
    exact (List.mem_filter.mp hpair).1
  refine ⟨shift_of_mem (hmem _ List.mem_cons_self), ?_⟩
  rw [List.all_map, List.all_eq_true]
  rintro ⟨half', shift'⟩ hpair
  have := shift_of_mem (hmem _ (List.mem_cons_of_mem _ hpair))
  simpa [Instr.calm, hrd, or_assoc] using this

theorem calm_loadImm (rd : XReg) (hrd : Instr.isTemporary rd = true) (value : BitVec 64) :
    (A64.loadImm rd value).all Instr.calm = true := by
  unfold A64.loadImm
  simp only
  split <;> split
  · simpa [Instr.calm] using hrd
  · rename_i half shift rest h
    obtain ⟨hfirst, hcalm⟩ := calm_halfwords hrd h
    rw [List.all_cons, hcalm]
    simpa [Instr.calm, hrd, or_assoc] using hfirst
  · simpa [Instr.calm] using hrd
  · rename_i half shift rest h
    obtain ⟨hfirst, hcalm⟩ := calm_halfwords hrd h
    rw [List.all_cons, hcalm]
    simpa [Instr.calm, hrd, or_assoc] using hfirst

theorem evaluates_constant (rd : XReg) (hrd : Instr.isTemporary rd = true) (value : BitVec 64) :
    Evaluates s depth (constant rd value) := evaluates_calm _ (calm_loadImm rd hrd value)

theorem evaluates_truth (kind : Scalar) : Evaluates s depth (truth kind) := by
  cases kind with
  | bool => exact .nil
  | int => exact evaluates_calm [.cmpImm .x0 0, .cset .x0 .ne] rfl
  | float => exact evaluates_calm [.fcmpZero .d0, .cset .x0 .ne] rfl
  | string => exact evaluates_constant _ rfl _

theorem calm_intCode {op : BinaryOp} {instrs : List Instr} (h : intCode op = .ok instrs) :
    instrs.all Instr.calm = true := by
  cases op <;> cases h <;> rfl

theorem calm_floatCode {op : BinaryOp} {instrs : List Instr} (h : floatCode op = .ok instrs) :
    instrs.all Instr.calm = true := by
  cases op <;> cases h <;> rfl

theorem calm_logicalInstr (op : BinaryOp) : [logicalInstr op].all Instr.calm = true := by
  unfold logicalInstr
  split <;> rfl

theorem evaluates_loadAt (kind : Scalar) (base : Slot) : Evaluates s depth (loadAt kind base) := by
  have hload : Evaluates s depth
      [if kind = .float then .instr (.ldrDAt .d0 .x16 .x0) else .instr (.ldrXAt .x0 .x16 .x0)] := by
    split <;> exact .calm rfl
  exact (Evaluates.base base).append hload

/-- One operand is popped when the other has been moved out of its way. -/
theorem arrange_eq (left right : Scalar) : ∃ (before : List Instr) (kind : Scalar)
    (after : List Instr),
    (arrange left right).2 = before.map .instr ++ [pop kind] ++ after.map .instr ∧
      before.all Instr.calm = true ∧ after.all Instr.calm = true := by
  unfold arrange
  split
  · refine ⟨[if right = .float then .fmov .d1 .d0 else .scvtf .d1 .x0],
      if left = .float then .float else .int, if left = .float then [] else [.scvtf .d0 .x0],
      ?_, ?_, ?_⟩ <;> cases left <;> cases right <;> rfl
  · exact ⟨[.mov .x1 .x0], .int, [], rfl, rfl, rfl⟩

variable {left right : ValueCode}

theorem operands_evaluates {op : BinaryOp} {r : Bool × Code} (hl : Evaluates s depth left.code)
    (hr : Evaluates s depth right.code) (h : operands op left right = .ok r) :
    Evaluates s depth r.2 := by
  simp only [operands, bind_eq_ok] at h
  obtain ⟨-, -, h⟩ := h
  cases h
  obtain ⟨before, kind, after, harrange, hbefore, hafter⟩ := arrange_eq left.kind right.kind
  have := hl.append (((hr.andThen before hbefore).saved left.kind kind).andThen after hafter)
  simpa [harrange] using this

theorem comparison_evaluates {op : BinaryOp} {cond : A64.Cond} {code : Code}
    (hl : Evaluates s depth left.code) (hr : Evaluates s depth right.code)
    (h : comparison op left right = .ok (cond, code)) : Evaluates s depth code := by
  obtain ⟨-, ⟨float, code⟩, -, hcode, -, rfl⟩ := comparison_ok h
  have hoperands := operands_evaluates hl hr hcode
  cases float
  · exact hoperands.andThen [.cmp .x0 .x1] rfl
  · exact hoperands.andThen [.fcmp .d0 .d1] rfl

theorem arithmetic_evaluates {op : BinaryOp} {v : ValueCode} (hl : Evaluates s depth left.code)
    (hr : Evaluates s depth right.code) (h : arithmetic op left right = .ok v) :
    Evaluates s depth v.code := by
  obtain ⟨⟨float, code⟩, instrs, hcode, hinstrs, rfl⟩ := arithmetic_ok h
  have hoperands := operands_evaluates hl hr hcode
  cases float
  · exact hoperands.andThen _ (calm_intCode hinstrs)
  · exact hoperands.andThen _ (calm_floatCode hinstrs)

theorem logical_evaluates (op : BinaryOp) (hl : Evaluates s depth left.code)
    (hr : Evaluates s depth right.code) : Evaluates s depth (logical op left right).code := by
  have hright := ((hr.append (evaluates_truth right.kind)).andThen [.mov .x1 .x0] rfl).saved
    .bool .int
  have := ((hl.append (evaluates_truth left.kind)).append hright).andThen _ (calm_logicalInstr op)
  simpa [logical, pop] using this

theorem binary_evaluates {op : BinaryOp} {v : ValueCode} (hl : Evaluates s depth left.code)
    (hr : Evaluates s depth right.code) (h : binary op left right = .ok v) :
    Evaluates s depth v.code := by
  obtain ⟨-, rfl⟩ | ⟨-, test, cond, code, -, hcode, rfl⟩ | ⟨-, -, h⟩ := binary_ok h
  · exact logical_evaluates op hl hr
  · exact (comparison_evaluates hl hr hcode).andThen [.cset .x0 cond] rfl
  · exact arithmetic_evaluates hl hr h

theorem unary_evaluates {op : UnaryOp} {v : ValueCode} (hl : Evaluates s depth left.code)
    (h : unary op left = .ok v) : Evaluates s depth v.code := by
  cases op with
  | not =>
    cases h
    exact (hl.append (evaluates_truth left.kind)).andThen [.cmpImm .x0 0, .cset .x0 .eq] rfl
  | neg =>
    simp only [unary] at h
    split at h <;> cases h
    · exact hl.andThen [.neg .x0 .x0] rfl
    · exact hl.andThen [.neg .x0 .x0] rfl
    · exact hl.andThen [.fneg .d0 .d0] rfl

/-! ## Elements of variables -/

theorem lt_of_inRange {i : Int64} {count : Nat} (h : inRange i count = true) :
    i.toInt.toNat < count := by
  simp only [inRange, Bool.decide_and, Bool.and_eq_true, decide_eq_true_eq] at h
  omega

theorem indexCode_evaluates {v : ValueCode} {c : Code} (hv : Evaluates s depth v.code)
    (h : indexCode v = .ok c) : Evaluates s depth c := by
  unfold indexCode at h
  split at h <;> cases h
  exact hv

theorem element_evaluates {view : ArrayView} {position : Expr}
    {value : Except LowerError ValueCode} {v : ValueCode}
    (hcells : ∀ k < view.count, s.Cell (view.base.nth k))
    (hvalue : ∀ w, value = .ok w → Evaluates s depth w.code)
    (h : element view position value = .ok v) : Evaluates s depth v.code := by
  unfold element at h
  split at h
  · rename_i i
    split at h <;> cases h
    rename_i hrange
    exact .load _ (hcells _ (lt_of_inRange hrange))
  · simp only [bind_eq_ok] at h
    obtain ⟨w, hw, c, hc, h⟩ := h
    cases h
    exact (indexCode_evaluates (hvalue w hw) hc).append (evaluates_loadAt _ _)

theorem cell_evaluates {layout : ArrayLayout} {columns : Nat} {row column : Expr}
    {rowValue columnValue : Except LowerError ValueCode} {v : ValueCode}
    (hcells : ∀ k < layout.count * columns, s.Cell (layout.base.nth k))
    (hrow : ∀ w, rowValue = .ok w → Evaluates s depth w.code)
    (hcolumn : ∀ w, columnValue = .ok w → Evaluates s depth w.code)
    (h : cell layout columns row column rowValue columnValue = .ok v) :
    Evaluates s depth v.code := by
  unfold cell at h
  split at h
  · rename_i r c
    split at h <;> cases h
    rename_i hrange
    rw [Bool.and_eq_true] at hrange
    have hr := lt_of_inRange hrange.1
    have hc := lt_of_inRange hrange.2
    refine .load _ (hcells _ ?_)
    calc r.toInt.toNat * columns + c.toInt.toNat
      _ < r.toInt.toNat * columns + columns := Nat.add_lt_add_left hc _
      _ = (r.toInt.toNat + 1) * columns := (Nat.succ_mul _ _).symm
      _ ≤ layout.count * columns := Nat.mul_le_mul_right _ hr
  · simp only [bind_eq_ok] at h
    obtain ⟨w₁, hw₁, c₁, hc₁, w₂, hw₂, c₂, hc₂, h⟩ := h
    cases h
    have h₁ := indexCode_evaluates (hrow w₁ hw₁) hc₁
    have h₂ := indexCode_evaluates (hcolumn w₂ hw₂) hc₂
    have hsaved := (h₂.andThen [.mov .x1 .x0] rfl).saved .int .int
    have := (((h₁.append hsaved).append (evaluates_constant .x2 rfl (BitVec.ofNat 64 columns))).andThen
      [.mul .x0 .x0 .x2, .add .x0 .x0 .x1] rfl).append (evaluates_loadAt layout.element layout.base)
    simpa [pop] using this

theorem varValue_evaluates {name : String} {v : ValueCode} (h : varValue s name = .ok v) :
    Evaluates s depth v.code := by
  unfold varValue at h
  split at h
  · rename_i slot shape hshape
    cases shape with
    | scalar kind | enumCase enum =>
      cases h
      exact .load _ ⟨name, slot, _, hshape, List.mem_singleton_self slot⟩
    | _ => cases h
  · split at h <;> cases h

theorem elementOf_evaluates {name : String} {position : Expr}
    {value : Except LowerError ValueCode} {v : ValueCode}
    (hvalue : ∀ w, value = .ok w → Evaluates s depth w.code)
    (h : elementOf s name position value = .ok v) : Evaluates s depth v.code := by
  unfold elementOf at h
  split at h
  · split at h
    · unfold enumCase at h
      split at h
      · split at h <;> cases h
        exact .text _
      · cases h
    · cases h
  · rename_i slot layout hshape
    split at h
    · cases h
    · rename_i hinner
      refine element_evaluates (fun k hk => ⟨name, slot, _, hshape, ?_⟩) hvalue h
      have hnone : layout.inner = none := by simpa using hinner
      rw [Shape.cells, hnone]
      exact Slot.nth_mem_run (by simpa [flatView] using hk)
  · rename_i slot elements hshape
    unfold tupleElement at h
    split at h
    · split at h <;> cases h
      rename_i cell kind hget
      refine .load _ ⟨name, slot, _, hshape, ?_⟩
      split at hget
      · exact List.mem_map.mpr ⟨_, List.mem_of_getElem? hget, rfl⟩
      · cases hget
    · cases h
  · rename_i slot fields hshape
    unfold dictElement at h
    split at h
    · split at h <;> cases h
      rename_i cell kind hget
      refine .load _ ⟨name, slot, _, hshape, ?_⟩
      refine List.mem_flatMap.mpr ⟨_, List.mem_of_find?_eq_some hget, ?_⟩
      simp [FieldShape.span, Slot.run, Slot.nth]
    · cases h
  · cases h

theorem elementOfElement_evaluates {name : String} {row column : Expr}
    {rowValue columnValue : Except LowerError ValueCode} {v : ValueCode}
    (hrow : ∀ w, rowValue = .ok w → Evaluates s depth w.code)
    (hcolumn : ∀ w, columnValue = .ok w → Evaluates s depth w.code)
    (h : elementOfElement s name row column rowValue columnValue = .ok v) :
    Evaluates s depth v.code := by
  unfold elementOfElement at h
  split at h
  · rename_i slot layout hshape
    split at h
    · rename_i columns hinner
      refine cell_evaluates (fun k hk => ⟨name, slot, _, hshape, ?_⟩) hrow hcolumn h
      rw [Shape.cells, hinner]
      exact Slot.nth_mem_run hk
    · cases h
  · rename_i slot fields hshape
    simp only [bind_eq_ok] at h
    obtain ⟨view?, hview, h⟩ := h
    cases view? with
    | none => cases h
    | some view =>
      refine element_evaluates (fun k hk => ⟨name, slot, _, hshape, ?_⟩) hcolumn h
      simp only [arrayView, hshape] at hview
      split at hview
      · rename_i heq
        cases heq
        split at hview <;> cases hview
        rename_i hget
        exact List.mem_flatMap.mpr ⟨_, List.mem_of_find?_eq_some hget, Slot.nth_mem_run hk⟩
      · rename_i heq
        cases heq
      · cases hview
  · cases h

/-! ## Expressions -/

theorem evaluates_passArguments {count : Nat} (h : count ≤ 8) :
    Evaluates s depth (passArguments depth count) := by
  have hmap : passArguments depth count =
      ((List.range count).map fun i => Instr.mov (.argument i) (.staging (depth + i))).map .instr := by
    simp [passArguments]
  have htemporary : ∀ i < 8, Instr.isTemporary (.argument i) = true := by decide
  rw [hmap]
  apply evaluates_calm
  rw [List.all_map, List.all_eq_true]
  intro i hi
  exact htemporary i (Nat.lt_of_lt_of_le (List.mem_range.mp hi) h)

end

mutual

theorem expr_evaluates (s : Scope) (depth : Nat) (e : Expr) (v : ValueCode)
    (h : expr s depth e = .ok v) : Evaluates s depth v.code := by
  match e with
  | .int _ | .bool _ =>
    rw [expr] at h
    cases h
    exact evaluates_constant _ rfl _
  | .float _ =>
    rw [expr] at h
    cases h
    exact .double _
  | .str _ =>
    rw [expr] at h
    cases h
    exact .text _
  | .var name =>
    rw [expr] at h
    exact varValue_evaluates h
  | .binary op lhs rhs =>
    simp only [expr, bind_eq_ok] at h
    obtain ⟨left, hleft, right, hright, h⟩ := h
    exact binary_evaluates (expr_evaluates s depth lhs left hleft)
      (expr_evaluates s depth rhs right hright) h
  | .unary op operand =>
    simp only [expr, bind_eq_ok] at h
    obtain ⟨w, hw, h⟩ := h
    exact unary_evaluates (expr_evaluates s depth operand w hw) h
  | .call name args =>
    simp only [expr, bind_eq_ok] at h
    obtain ⟨f, hf, c, hc, h⟩ := h
    cases h
    obtain ⟨-, hcount, hdepth⟩ := callee_ok hf
    exact ((arguments_evaluates s depth name args c hdepth hc).append
      (evaluates_passArguments hcount)).append (.call f.entry)
  | .index (.var name) position =>
    simp only [expr] at h
    exact elementOf_evaluates (fun w hw => expr_evaluates s depth position w hw) h
  | .index (.index (.var name) row) column =>
    simp only [expr] at h
    exact elementOfElement_evaluates (fun w hw => expr_evaluates s depth row w hw)
      (fun w hw => expr_evaluates s depth column w hw) h

theorem arguments_evaluates (s : Scope) (depth : Nat) (name : String) (args : List Expr) (c : Code)
    (hdepth : depth + args.length ≤ 9) (h : arguments s depth name args = .ok c) :
    Evaluates s depth c := by
  match args with
  | [] =>
    cases h
    exact .nil
  | arg :: rest =>
    obtain ⟨v, c', hv, -, hc', rfl⟩ := arguments_cons h
    rw [List.length_cons] at hdepth
    have hrest := arguments_evaluates s (depth + 1) name rest c' (by omega) hc'
    exact (expr_evaluates s depth arg v hv).append (.staged (by omega) hrest)

end

end Lower

/-! ## Staged arguments -/

namespace A64.Instr

variable {depth : Nat} {i : Instr}

/-- The first `depth` of the registers in which arguments wait are not changed. -/
def Spares (depth : Nat) (i : Instr) : Prop := ∀ k < depth, k < 9 → XReg.staging k ∉ i.written

/-- A register in which no argument waits. -/
def isLoose (r : XReg) : Bool := isTemporary r || r = .x30 || r = .sp

theorem spares_of_loose (h : i.written.all isLoose = true) : i.Spares depth := by
  have hstaging : ∀ k < 9, isLoose (.staging k) = false := by decide
  intro k _ hk hmem
  have hloose := List.all_eq_true.mp h _ hmem
  rw [hstaging k hk] at hloose
  cases hloose

theorem loose_of_calm (h : i.calm = true) : i.written.all isLoose = true := by
  rw [List.all_eq_true]
  intro r hr
  rw [isLoose, written_of_calm h r hr]
  rfl

theorem spares_staging (h : depth < 9) (rm : XReg) : (mov (.staging depth) rm).Spares depth := by
  have hstaging : ∀ k < 9, ∀ k' < 9, XReg.staging k = .staging k' → k = k' := by decide
  intro k hlt hk hmem
  have := hstaging k hk depth h (mem_general hmem)
  omega

theorem Spares.mono {depth' : Nat} (h : i.Spares depth') (hle : depth ≤ depth') : i.Spares depth :=
  fun k hk => h k (Nat.lt_of_lt_of_le hk hle)

end A64.Instr

namespace Lower

/-- Every word is an instruction that leaves the staged arguments. -/
def WordsSpare (depth : Nat) (c : Code) : Prop :=
  ∀ w ∈ c.words, ∃ i, decode w = some i ∧ i.Spares depth

section

variable {s : Scope} {depth : Nat} {c d : Code}

theorem WordsSpare.append (hc : WordsSpare depth c) (hd : WordsSpare depth d) :
    WordsSpare depth (c ++ d) := by
  intro w hw
  rw [Code.words_append, List.mem_append] at hw
  exact hw.elim (hc w) (hd w)

theorem WordsSpare.mono {depth' : Nat} (h : WordsSpare depth' c) (hle : depth ≤ depth') :
    WordsSpare depth c := by
  intro w hw
  obtain ⟨i, hi, hspares⟩ := h w hw
  exact ⟨i, hi, hspares.mono hle⟩

theorem wordsSpare_instr {i j : Instr} (hi : decode i.encode = some j) (hj : j.Spares depth) :
    WordsSpare depth [.instr i] := by
  intro w hw
  rw [List.mem_singleton.mp hw]
  exact ⟨j, hi, hj⟩

theorem wordsSpare_line {l : Line} (hfits : ∀ i ∈ l.body, i.Fits)
    (hloose : (l.body.all fun i => i.written.all Instr.isLoose) = true) :
    WordsSpare depth [l] := by
  intro w hw
  obtain ⟨i, hi, rfl⟩ := List.mem_map.mp hw
  have hmem : i ∈ l.body := by simpa using hi
  refine ⟨_, A64.decode_encode i (hfits i hmem), Instr.spares_of_loose ?_⟩
  rw [Instr.written_unaliased]
  exact List.all_eq_true.mp hloose i hmem

theorem wordsSpare_load (kind : Scalar) (slot : Slot) : WordsSpare depth [load kind slot] := by
  unfold load loadX
  split
  · obtain ⟨offset, h⟩ := A64.exists_decode_ldrD .d0 .frameBase slot.offset
    exact wordsSpare_instr h (Instr.spares_of_loose rfl)
  · obtain ⟨offset, h⟩ := A64.exists_decode_ldrX .x0 .frameBase slot.offset
    exact wordsSpare_instr h (Instr.spares_of_loose rfl)

theorem wordsSpare_push (kind : Scalar) : WordsSpare depth [push kind] := by
  unfold push
  split <;> exact wordsSpare_line (by simp [Line.body, Instr.Fits]) rfl

theorem wordsSpare_pop (kind : Scalar) : WordsSpare depth [pop kind] := by
  unfold pop popD popX
  split <;> exact wordsSpare_line (by simp [Line.body, Instr.Fits]) rfl

theorem Evaluates.spares (h : Evaluates s depth c) : WordsSpare depth c := by
  induction h with
  | nil => exact nofun
  | calm hi =>
    apply wordsSpare_line
    · simpa [Line.body] using Instr.fits_of_calm hi
    · simpa [Line.body] using Instr.loose_of_calm hi
  | load kind => exact wordsSpare_load kind _
  | base slot =>
    obtain ⟨imm, h⟩ := A64.exists_decode_addImm .x16 .frameBase slot.offset
    exact wordsSpare_instr h (Instr.spares_of_loose rfl)
  | text | double | call => exact wordsSpare_line (by simp [Line.body, Instr.Fits]) rfl
  | append _ _ ihc ihd => exact ihc.append ihd
  | saved kind kind' _ ih => exact ((wordsSpare_push kind).append ih).append (wordsSpare_pop kind')
  | staged hlt _ ih =>
    exact (wordsSpare_instr (A64.decode_encode (.mov _ _) trivial)
      (Instr.spares_staging hlt .x0)).append (ih.mono (Nat.le_succ _))

end

/-! ## The stack pointer -/

section

variable {d : Int} {slot : Slot}

theorem keeps_slot {i : Instr} (hd : d ≤ 0) (hslot : slot.index.toNat < 256)
    (hbase : i.base? = some .frameBase) (hoffset : i.offset? = some slot.offset)
    (hwritten : i.written.all Instr.isFree = true) : (Line.instr i).Keeps d := by
  have hfits := slot.fits_offset hslot
  have hnot (r : XReg) (hr : Instr.isFree r = false) : r ∉ i.written := by
    intro hmem
    rw [List.all_eq_true.mp hwritten r hmem] at hr
    cases hr
  have hdisciplined : i.Disciplined d := by
    refine ⟨fun h => absurd h (hnot _ rfl), ?_, ?_, ⟨hnot _ rfl, hnot _ rfl⟩, ?_, ?_⟩
    · cases i with
      | pushX | pushD | popX | popD => cases hoffset
      | _ => simpa [Instr.move] using hd
    · cases i with
      | b | bCond | cbz | blr => cases hoffset
      | _ => rintro (h | h) <;> cases h
    · intro _
      refine ⟨_, hoffset, hfits.1, ?_⟩
      rw [slot.toNat_offset hslot, Slot.distance]
      omega
    · intro offset h
      cases i with
      | strX | strD =>
        cases h
        cases hbase
      | _ => cases h
  cases i with
  | ldrX | strX | ldrD | strD =>
    cases hoffset
    exact Line.keeps_of_fits rfl hfits hdisciplined
  | _ => cases hoffset

theorem keeps_load (kind : Scalar) (hd : d ≤ 0) (hslot : slot.index.toNat < 256) :
    (load kind slot).Keeps d := by
  unfold load loadX
  split <;> exact keeps_slot hd hslot rfl rfl rfl

theorem move_load (kind : Scalar) : (load kind slot).move = 0 := by cases kind <;> rfl

theorem keeps_store (kind : Scalar) (hd : d ≤ 0) (hslot : slot.index.toNat < 256) :
    (store kind slot).Keeps d := by
  unfold store storeX
  split <;> exact keeps_slot hd hslot rfl rfl rfl

theorem move_store (kind : Scalar) : (store kind slot).move = 0 := by cases kind <;> rfl

theorem keeps_stack {i : Instr} (hfits : i.Fits) (hbase : i.base? = some .sp)
    (hmove : i.move = -16 ∨ i.move = 16) (hd : d + i.move ≤ 0)
    (hwritten : .frameBase ∉ i.written ∧ .x29 ∉ i.written) : (Line.instr i).Keeps d := by
  have hdisciplined : i.Disciplined d := by
    refine ⟨fun _ => hmove, hd, ?_, hwritten, ?_, ?_⟩
    · cases i with
      | b | bCond | cbz | blr => cases hbase
      | _ => rintro (h | h) <;> cases h
    · rw [hbase]
      intro h
      exact absurd (Option.some.inj h) (by decide)
    · cases i with
      | strX | strD => simp [Instr.move] at hmove
      | _ => nofun
  cases i with
  | pushX | pushD | popX | popD => exact Line.keeps_of_fits rfl hfits hdisciplined
  | _ => simp [Instr.move] at hmove

theorem keeps_push (kind : Scalar) (hd : d ≤ 0) : (push kind).Keeps d := by
  unfold push
  split
  · exact keeps_stack (by simp [Instr.Fits]) rfl (.inl rfl) (show d + -16 ≤ 0 by omega) (by decide)
  · exact keeps_stack (by simp [Instr.Fits]) rfl (.inl rfl) (show d + -16 ≤ 0 by omega) (by decide)

theorem move_push (kind : Scalar) : (push kind).move = -16 := by cases kind <;> rfl

theorem keeps_pop (kind : Scalar) (hd : d ≤ -16) : (pop kind).Keeps d := by
  unfold pop popD popX
  split
  · exact keeps_stack (by simp [Instr.Fits]) rfl (.inr rfl) (show d + 16 ≤ 0 by omega) (by decide)
  · exact keeps_stack (by simp [Instr.Fits]) rfl (.inr rfl) (show d + 16 ≤ 0 by omega) (by decide)

theorem move_pop (kind : Scalar) : (pop kind).move = 16 := by cases kind <;> rfl

theorem moves_line {l : Line} (h : l.Keeps d) (hmove : l.move = 0) : Code.Moves d [l] d :=
  ⟨h, by rw [hmove, Int.add_zero]; rfl⟩

theorem moves_push (kind : Scalar) (hd : d ≤ 0) : Code.Moves d [push kind] (d - 16) :=
  ⟨keeps_push kind hd, by rw [move_push]; rfl⟩

theorem moves_pop (kind : Scalar) (hd : d ≤ 0) : Code.Moves (d - 16) [pop kind] d :=
  ⟨keeps_pop kind (by omega), by rw [move_pop]; exact Int.sub_add_cancel d 16⟩

theorem moves_calm (is : List Instr) (h : is.all Instr.calm = true) (hd : d ≤ 0) :
    Code.Moves d (is.map .instr) d := by
  induction is with
  | nil => rfl
  | cons i rest ih =>
    rw [List.all_cons, Bool.and_eq_true] at h
    exact (moves_line (Line.keeps_of_calm hd h.1) (Line.move_of_calm h.1)).append (ih h.2)

theorem moves_base (slot : Slot) (hd : d ≤ 0) :
    Code.Moves d [.instr (.addImm .x16 .frameBase slot.offset)] d := by
  obtain ⟨imm, h⟩ := A64.exists_decode_addImm .x16 .frameBase slot.offset
  exact moves_line ⟨rfl, _, h, Instr.disciplined_of_free hd rfl nofun rfl rfl, rfl⟩ rfl

theorem Evaluates.moves {s : Scope} {depth : Nat} {c : Code} (h : Evaluates s depth c)
    (hcells : ∀ slot, s.Cell slot → slot.index.toNat < 256) (hd : d ≤ 0) : Code.Moves d c d := by
  induction h generalizing d with
  | nil => rfl
  | calm hi => exact moves_calm [_] (by simpa using hi) hd
  | load kind hcell => exact moves_line (keeps_load kind hd (hcells _ hcell)) (move_load kind)
  | base slot => exact moves_base slot hd
  | text => exact moves_line ⟨hd, rfl⟩ rfl
  | double | call => exact moves_line hd rfl
  | append _ _ ihc ihd => exact (ihc hd).append (ihd hd)
  | saved kind kind' _ ih =>
    exact ((moves_push kind hd).append (ih (by omega))).append (moves_pop kind' hd)
  | staged hlt _ ih =>
    have hfree : ∀ k < 9, Instr.isFree (.staging k) = true := by decide
    refine Code.Moves.append (moves_line (Line.keeps_of_fits rfl trivial ?_) rfl) (ih hd)
    refine Instr.disciplined_of_free hd rfl nofun ?_ rfl
    rw [List.all_eq_true]
    intro r hr
    rw [Instr.mem_general hr]
    exact hfree _ hlt

end

end Lower

end Armature
