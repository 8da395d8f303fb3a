import Armature.Eval.Operators
import Armature.Lower.Expr
import Armature.Proofs.Machine

/-!
# Operators on machine words

The instructions of an operator give the machine word of the operator's result, whatever the two
operands are.
-/

namespace Armature

open A64 (Cond Flags)

/-! ## Arithmetic -/

theorem srem_eq_sub (a b : BitVec 64) : a.srem b = a - a.sdiv b * b := by
  have hquot : a.sdiv b = BitVec.ofInt 64 (a.toInt.tdiv b.toInt) := by
    apply BitVec.eq_of_toInt_eq
    rw [BitVec.toInt_sdiv, BitVec.toInt_ofInt]
  have hrem : a.srem b = BitVec.ofInt 64 (a.toInt.tmod b.toInt) := by
    rw [← BitVec.toInt_srem, BitVec.ofInt_toInt]
  have hmod := Int.tmod_def a.toInt b.toInt
  rw [hrem, hquot, hmod, Int.sub_eq_add_neg, BitVec.ofInt_add, BitVec.ofInt_toInt,
    BitVec.sub_eq_add_neg, BitVec.ofInt_neg, BitVec.ofInt_mul, BitVec.ofInt_toInt, BitVec.mul_comm]

/-! ## Comparisons -/

/-- The sign of a difference, corrected by its overflow, tells which operand is smaller. -/
theorem negative_ne_overflow (a b : BitVec 64) :
    ((Flags.ofWords a b).negative != (Flags.ofWords a b).overflow) = decide (a.toInt < b.toInt) := by
  have ha := a.toInt_lt
  have ha' := a.le_toInt
  have hb := b.toInt_lt
  have hb' := b.le_toInt
  simp only [Flags.ofWords, BitVec.msb_eq_toInt, BitVec.ssubOverflow, BitVec.toInt_sub,
    Int.bmod_def] at *
  rw [Bool.eq_iff_iff]
  simp only [← Bool.decide_or, bne_iff_ne, ne_eq, decide_eq_decide, decide_eq_true_eq]
  split <;> omega

theorem negative_eq_overflow (a b : BitVec 64) :
    ((Flags.ofWords a b).negative == (Flags.ofWords a b).overflow) = decide (b.toInt ≤ a.toInt) := by
  have h := negative_ne_overflow a b
  rw [bne, Bool.not_eq_eq_eq_not, ← decide_not] at h
  simpa using h

theorem zero_ofWords (a b : BitVec 64) : (Flags.ofWords a b).zero = decide (a.toInt = b.toInt) := by
  rw [Bool.eq_iff_iff]
  simp [Flags.ofWords, BitVec.toInt_inj]

theorem holds_invert (f : Flags) (c : Cond) (hal : c ≠ .al) (hnv : c ≠ .nv) :
    c.invert.holds f = !c.holds f := by
  obtain ⟨n, z, c', v⟩ := f
  cases c with
  | al | nv => contradiction
  | _ => cases n <;> cases v <;> simp [Cond.invert, Cond.holds]

theorem holds_test (op : BinaryOp) (test : Lower.Test) (h : Lower.test? op = some test)
    (a b : Int64) :
    Value.intOp op a b = .bool (test.ints.holds (.ofWords a.toBitVec b.toBitVec)) := by
  have hlt := negative_ne_overflow a.toBitVec b.toBitVec
  have hge := negative_eq_overflow a.toBitVec b.toBitVec
  have hzero := zero_ofWords a.toBitVec b.toBitVec
  have heq : (a == b) = decide (a.toInt = b.toInt) := by
    rw [Bool.eq_iff_iff]
    simp [Int64.toInt_inj]
  simp only [Int64.toInt_toBitVec] at hlt hge hzero
  cases op with
  | add | sub | mul | div | mod | and | or => cases h
  | eq | ne =>
    cases h
    simp only [Value.intOp, Cond.holds, hzero, heq, bne]
  | lt | ge =>
    cases h
    simp only [Value.intOp, Cond.holds, hlt, hge, Int64.lt_iff_toInt_lt, Int64.le_iff_toInt_le]
  | gt | le =>
    cases h
    simp only [Value.intOp, Cond.holds, hzero, hlt, hge, Int64.lt_iff_toInt_lt,
      Int64.le_iff_toInt_le, ← decide_not, ← Bool.decide_and, ← Bool.decide_or, Value.bool.injEq,
      decide_eq_decide]
    omega

/-! ## Values in a register -/

namespace Value

/-- The machine word of an integer or a boolean. -/
def word : Value → BitVec 64
  | int i => i.toBitVec
  | bool true => 1
  | _ => 0

/-- The value is an integer or a boolean, as the kind says. -/
def HasWord : Value → Scalar → Prop
  | int _, .int => True
  | bool _, .bool => True
  | _, _ => False

theorem HasWord.int {v : Value} (h : v.HasWord .int) : ∃ i, v = .int i := by
  cases v with
  | int i => exact ⟨i, rfl⟩
  | _ => exact h.elim

theorem HasWord.ne_float {v : Value} {kind : Scalar} (h : v.HasWord kind) : kind ≠ .float := by
  rintro rfl
  cases v <;> exact h

theorem HasWord.number {v : Value} {kind : Scalar} (h : v.HasWord kind) :
    ∃ i : Int64, v.number? = some (.int i) ∧ v.word = i.toBitVec := by
  unfold HasWord at h
  split at h
  · exact ⟨_, rfl, rfl⟩
  · rename_i b
    exact ⟨if b then 1 else 0, rfl, by cases b <;> rfl⟩
  · exact h.elim

theorem HasWord.truthy {v : Value} {kind : Scalar} (h : v.HasWord kind) :
    v.truthy = (v.word != 0) := by
  unfold HasWord at h
  split at h
  · rename_i i
    rw [Value.truthy, word, bne, bne, Bool.not_inj_iff, Bool.eq_iff_iff]
    simp only [beq_iff_eq]
    exact Int64.eq_iff_toBitVec_eq
  · rename_i b
    cases b <;> rfl
  · exact h.elim

theorem word_bool (b : Bool) : (bool b).word = if b then 1 else 0 := by cases b <;> rfl

theorem hasWord_intOp {op : BinaryOp} {a b : Int64} (hop : op.isLogical = false)
    (htest : Lower.test? op = none) : (intOp op a b).HasWord .int := by
  cases op with
  | add | sub | mul | div | mod => trivial
  | and | or => cases hop
  | eq | ne | lt | gt | le | ge => cases htest

theorem binary_of_word {op : BinaryOp} {v w r : Value} {kind kind' : Scalar}
    (hop : op.isLogical = false) (hv : v.HasWord kind) (hw : w.HasWord kind')
    (h : binary op v w = .ok r) :
    ∃ a b : Int64, v.word = a.toBitVec ∧ w.word = b.toBitVec ∧ r = intOp op a b := by
  obtain ⟨a, ha, hav⟩ := hv.number
  obtain ⟨b, hb, hbw⟩ := hw.number
  refine ⟨a, b, hav, hbw, ?_⟩
  unfold binary at h
  split at h
  · cases hop
  · cases hop
  · cases ha
  · rw [ha, hb] at h
    cases h
    rfl

end Value

end Armature
