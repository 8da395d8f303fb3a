import Armature.Proofs.Emitted

/-!
# Programs on integers

All variables of these programs are integers, so that each has one slot of its own for as long as
its frame lasts. Their expressions may also be booleans.
-/

namespace Armature

/-! ## Syntax -/

namespace Expr

mutual

/-- Built from integers, booleans, variables, operators and calls. -/
def basic : Expr → Bool
  | int _ | bool _ | var _ => true
  | binary _ lhs rhs => lhs.basic && rhs.basic
  | unary _ operand => operand.basic
  | call _ args => allBasic args
  | _ => false

def allBasic : List Expr → Bool
  | [] => true
  | e :: rest => e.basic && allBasic rest

end

/-- The kind of a basic expression when all variables are integers. -/
def basicKind : Expr → Scalar
  | bool _ => .bool
  | binary op .. => if op.isComparison || op.isLogical then .bool else .int
  | unary .not _ => .bool
  | _ => .int

end Expr

namespace Stmt

mutual

/-- Declares only integers, and consists of basic expressions. -/
def basic : Stmt → Bool
  | print value | ret value | expr value => value.basic
  | decl _ value => value.basic && value.basicKind = .int
  | loop _ (.counted start stop) body => start.basic && stop.basic && allBasic body
  | cond test thenBody none => test.basic && allBasic thenBody
  | cond test thenBody (some elseBody) =>
    test.basic && allBasic thenBody && allBasic elseBody
  | _ => false

def allBasic : List Stmt → Bool
  | [] => true
  | s :: rest => s.basic && allBasic rest

end

/-- At the top level, functions may be defined. -/
def basicTop : Stmt → Bool
  | func _ _ body => allBasic body
  | s => s.basic

end Stmt

def Program.basic (p : Program) : Bool := p.statements.all Stmt.basicTop

/-! ## Frames -/

namespace Frame

/-- All variables are integers, and no two have their slot in common. -/
structure Ints (f : Frame) : Prop where
  symbol : ∀ name symbol, f.lookup name = some symbol →
    symbol.shape = .scalar .int ∧ 0 < symbol.span ∧ symbol.slot.index.toNat < f.used
  apart : ∀ name name' symbol symbol', f.lookup name = some symbol →
    f.lookup name' = some symbol' → symbol.slot = symbol'.slot → name = name'
  used_le : f.used ≤ 256

/-- Variables are added to a frame. Their slots were free. -/
structure Extends (f f' : Frame) : Prop where
  used_le : f.used ≤ f'.used
  lookup : ∀ name symbol, f.lookup name = some symbol → f'.lookup name = some symbol
  fresh : ∀ name symbol, f'.lookup name = some symbol →
    f.lookup name = some symbol ∨ f.used ≤ symbol.slot.index.toNat

theorem Extends.refl (f : Frame) : f.Extends f :=
  ⟨Nat.le_refl _, fun _ _ h => h, fun _ _ h => .inl h⟩

theorem Extends.trans {f₁ f₂ f₃ : Frame} (h : f₁.Extends f₂) (h' : f₂.Extends f₃) :
    f₁.Extends f₃ where
  used_le := Nat.le_trans h.used_le h'.used_le
  lookup name symbol hs := h'.lookup name symbol (h.lookup name symbol hs)
  fresh name symbol hs := by
    rcases h'.fresh name symbol hs with hs | hs
    · exact h.fresh name symbol hs
    · exact .inr (Nat.le_trans h.used_le hs)

theorem ints_empty : empty.Ints where
  symbol name symbol h := by cases h
  apart name name' symbol symbol' h := by cases h
  used_le := by decide

theorem Ints.reserved {f f' : Frame} (h : f.Ints) (hlookup : f'.lookup = f.lookup)
    (hle : f.used ≤ f'.used) (hle' : f'.used ≤ 256) : f'.Ints ∧ f.Extends f' := by
  constructor
  · refine ⟨?_, ?_, hle'⟩
    · intro name symbol hs
      obtain ⟨hshape, hspan, hslot⟩ := h.symbol name symbol (hlookup ▸ hs)
      exact ⟨hshape, hspan, by omega⟩
    · rw [hlookup]
      exact h.apart
  · exact ⟨hle, by rw [hlookup]; exact fun _ _ hs => hs, by rw [hlookup]; exact fun _ _ hs => .inl hs⟩

theorem Ints.hidden {f f' : Frame} {slot : Slot} (h : f.Ints) (hf : f.hidden = (.ok slot, f')) :
    f'.Ints ∧ f.Extends f' ∧ f'.lookup = f.lookup ∧ slot.index.toNat = f.used ∧
      f'.used = f.used + 1 := by
  obtain ⟨hle, rfl, rfl⟩ := reserve_ok hf
  have hused : (BitVec.ofNat 16 f.used).toNat = f.used := by
    rw [BitVec.toNat_ofNat]
    omega
  have hreserved : Ints { f with used := f.used + 1 } ∧ f.Extends _ :=
    h.reserved rfl (Nat.le_add_right _ _) hle
  exact ⟨hreserved.1, hreserved.2, rfl, hused, rfl⟩

theorem Ints.hidden_free {f f₁ f₂ : Frame} {slot : Slot} (h : f₁.Ints)
    (hf : f₁.hidden = (.ok slot, f₂)) (hextends : f₂.Extends f) (name : String) (symbol : Symbol)
    (hs : f.lookup name = some symbol) : symbol.slot ≠ slot := by
  obtain ⟨-, -, hlookup, hslot, hused⟩ := h.hidden hf
  rintro rfl
  rcases hextends.fresh name symbol hs with hs | hle
  · rw [hlookup] at hs
    have := (h.symbol name symbol hs).2.2
    omega
  · omega

theorem Ints.bind_fresh {f : Frame} {name : String} (h : f.Ints) (hnone : f.lookup name = none)
    (hle : f.used + 1 ≤ 256) :
    let f' := bind { f with used := f.used + 1 } name ⟨⟨BitVec.ofNat 16 f.used⟩, 1, .scalar .int⟩
    f'.Ints ∧ f.Extends f' := by
  have hused : (BitVec.ofNat 16 f.used).toNat = f.used := by
    rw [BitVec.toNat_ofNat]
    omega
  have hlookup (other : String) :
      (bind { f with used := f.used + 1 } name ⟨⟨BitVec.ofNat 16 f.used⟩, 1, .scalar .int⟩).lookup
        other = if name = other then some ⟨⟨BitVec.ofNat 16 f.used⟩, 1, .scalar .int⟩
          else f.lookup other := lookup_bind _ name other _
  -- the slots of older variables are below the new one
  have hold (other : String) (symbol : Symbol) (hs : f.lookup other = some symbol) :
      symbol.slot ≠ ⟨BitVec.ofNat 16 f.used⟩ := by
    intro heq
    have := (h.symbol other symbol hs).2.2
    rw [heq, hused] at this
    omega
  refine ⟨⟨?_, ?_, hle⟩, ⟨Nat.le_add_right _ _, ?_, ?_⟩⟩
  · intro other symbol hs
    rw [hlookup] at hs
    split at hs
    · cases hs
      exact ⟨rfl, Nat.one_pos, by simp only [hused]; exact Nat.lt_succ_self _⟩
    · obtain ⟨hshape, hspan, hslot⟩ := h.symbol other symbol hs
      exact ⟨hshape, hspan, Nat.lt_succ_of_lt hslot⟩
  · intro n n' symbol symbol' hs hs' heq
    rw [hlookup] at hs hs'
    split at hs <;> split at hs'
    · rename_i hn hn'
      rw [← hn, hn']
    · cases hs
      exact absurd heq.symm (hold n' symbol' hs')
    · cases hs'
      exact absurd heq (hold n symbol hs)
    · exact h.apart n n' symbol symbol' hs hs' heq
  · intro other symbol hs
    rw [hlookup, if_neg, hs]
    rintro rfl
    rw [hnone] at hs
    cases hs
  · intro other symbol hs
    rw [hlookup] at hs
    split at hs
    · cases hs
      exact .inr (by simp only [hused]; exact Nat.le_refl _)
    · exact .inl hs

theorem Ints.assign {f f' : Frame} {name : String} {slot : Slot} (h : f.Ints)
    (hf : f.assign name (.scalar .int) = (.ok slot, f')) :
    f'.Ints ∧ f.Extends f' ∧ ∃ symbol, f'.lookup name = some symbol ∧ symbol.slot = slot := by
  unfold Frame.assign at hf
  cases hlookup : f.lookup name with
  | some symbol =>
    obtain ⟨hshape, hspan, -⟩ := h.symbol name symbol hlookup
    obtain ⟨slot', span, shape⟩ := symbol
    obtain rfl : shape = .scalar .int := hshape
    simp only [hlookup, if_pos hspan, Prod.mk.injEq, Except.ok.injEq] at hf
    obtain ⟨rfl, rfl⟩ := hf
    have hsame : (f.bind name ⟨slot', span, .scalar .int⟩).lookup = f.lookup := by
      funext other
      rw [lookup_bind]
      split
      · rename_i heq
        rw [← heq, hlookup]
      · rfl
    obtain ⟨hints, hextends⟩ := h.reserved hsame (Nat.le_refl _) h.used_le
    exact ⟨hints, hextends, _, by rw [hsame]; exact hlookup, rfl⟩
  | none =>
    simp only [hlookup] at hf
    split at hf
    · rename_i hreserve
      obtain ⟨hle, rfl, rfl⟩ := reserve_ok hreserve
      cases hf
      obtain ⟨hints, hextends⟩ := h.bind_fresh hlookup hle
      exact ⟨hints, hextends, _, by rw [lookup_bind, if_pos rfl], rfl⟩
    · rename_i hfailed
      exact absurd hf (hfailed slot f')

end Frame

/-- There are only integers in scope. -/
structure Scope.Ints (s : Scope) : Prop where
  frame : s.frame.Ints
  enums : s.enums = []

namespace Lower

open Asm (Code)

/-! ## Kinds -/

theorem varValue_int {s : Scope} {name : String} {c : ValueCode} (hs : s.frame.Ints)
    (h : varValue s name = .ok c) :
    ∃ symbol, s.frame.lookup name = some symbol ∧ c = ⟨.int, [loadX .x0 symbol.slot]⟩ := by
  unfold varValue Scope.shape? at h
  cases hlookup : s.frame.lookup name with
  | some symbol =>
    simp only [hlookup, Option.map_some, (hs.symbol name symbol hlookup).1] at h
    cases h
    exact ⟨symbol, rfl, rfl⟩
  | none =>
    simp only [hlookup, Option.map_none] at h
    split at h <;> cases h

theorem operands_ints {op : BinaryOp} {left right : ValueCode} {r : Bool × Code}
    (hl : left.kind ≠ .float) (hr : right.kind ≠ .float) (h : operands op left right = .ok r) :
    r.1 = false := by
  simp only [operands, bind_eq_ok] at h
  obtain ⟨_, -, h⟩ := h
  cases h
  simp [arrange, hl, hr]

theorem binary_kind {op : BinaryOp} {left right c : ValueCode} (hl : left.kind ≠ .float)
    (hr : right.kind ≠ .float) (h : binary op left right = .ok c) :
    c.kind = if op.isComparison || op.isLogical then .bool else .int := by
  obtain ⟨hop, rfl⟩ | ⟨-, test, cond, code, htest, -, rfl⟩ | ⟨hop, htest, h⟩ := binary_ok h
  · simp [logical, hop]
  · rw [← isSome_test?, htest]
    rfl
  · obtain ⟨⟨float, code⟩, instrs, hoperands, -, rfl⟩ := arithmetic_ok h
    obtain rfl := operands_ints hl hr hoperands
    rw [← isSome_test?, htest, hop]
    rfl

theorem basicKind_eq (e : Expr) : e.basicKind = .int ∨ e.basicKind = .bool := by
  unfold Expr.basicKind
  split
  · exact .inr rfl
  · split
    · exact .inr rfl
    · exact .inl rfl
  · exact .inr rfl
  · exact .inl rfl

theorem expr_kind (s : Scope) (depth : Nat) (e : Expr) (c : ValueCode) (hs : s.frame.Ints)
    (he : e.basic = true) (h : expr s depth e = .ok c) : c.kind = e.basicKind := by
  have hne (e : Expr) : e.basicKind ≠ .float := by
    rcases basicKind_eq e with h | h <;> simp [h]
  match e with
  | .int _ | .bool _ =>
    rw [expr] at h
    cases h
    rfl
  | .var name =>
    rw [expr] at h
    obtain ⟨symbol, -, rfl⟩ := varValue_int hs h
    rfl
  | .binary op lhs rhs =>
    simp only [expr, bind_eq_ok] at h
    obtain ⟨left, hleft, right, hright, h⟩ := h
    simp only [Expr.basic, Bool.and_eq_true] at he
    refine binary_kind ?_ ?_ h
    · rw [expr_kind s depth lhs left hs he.1 hleft]
      exact hne lhs
    · rw [expr_kind s depth rhs right hs he.2 hright]
      exact hne rhs
  | .unary op operand =>
    simp only [expr, bind_eq_ok] at h
    obtain ⟨v, hv, h⟩ := h
    cases op with
    | not =>
      cases h
      rfl
    | neg =>
      have hkind := expr_kind s depth operand v hs he hv
      rcases basicKind_eq operand with hk | hk
      all_goals
        simp only [unary, hkind, hk] at h
        cases h
        rfl
  | .call name args =>
    simp only [expr, bind_eq_ok] at h
    obtain ⟨_, -, _, -, h⟩ := h
    cases h
    rfl

/-! ## Statements -/

theorem print_basic {s s' : Scope} {e : Expr} {c : Code} (hs : s.Ints) (he : e.basic = true)
    (h : print e s = .ok (c, s')) :
    ∃ v, expr s 0 e = .ok v ∧ s' = s ∧ c = v.code ++ printLine v.kind := by
  have hvalue (h : printValue e s = .ok (c, s')) :
      ∃ v, expr s 0 e = .ok v ∧ s' = s ∧ c = v.code ++ printLine v.kind := by
    simp only [printValue, Lowering.bind_ok, Lowering.value_ok, Lowering.pure_ok] at h
    obtain ⟨v, _, ⟨hv, rfl⟩, rfl, rfl⟩ := h
    exact ⟨v, hv, rfl, rfl⟩
  cases e with
  | var name =>
    simp only [print, printVariable, Lowering.bind_ok, Lowering.get_ok] at h
    obtain ⟨_, _, ⟨rfl, rfl⟩, h⟩ := h
    cases hlookup : s.frame.lookup name with
    | some symbol =>
      have hshape := (hs.frame.symbol name symbol hlookup).1
      simp only [Scope.shape?, hlookup, Option.map_some, hshape] at h
      obtain ⟨rfl, rfl⟩ := h
      refine ⟨⟨.int, [loadX .x0 symbol.slot]⟩, ?_, rfl, rfl⟩
      simp [expr, varValue, Scope.shape?, hlookup, hshape, Shape.scalar?, load]
    | none =>
      simp only [Scope.shape?, hlookup, Option.map_none, hs.enums, Bindings.get?_nil,
        Lowering.refuse_ok] at h
  | int | bool | binary | unary | call => exact hvalue h
  | _ => cases he

theorem declare_basic {s s' : Scope} {name : String} {e : Expr} {c : Code} (hs : s.Ints)
    (he : e.basic = true) (hkind : e.basicKind = .int) (h : declare name e s = .ok (c, s')) :
    ∃ code slot frame, expr s 0 e = .ok ⟨.int, code⟩ ∧
      s.frame.assign name (.scalar .int) = (.ok slot, frame) ∧ s' = { s with frame } ∧
      c = code ++ [storeX .x0 slot] := by
  have hscalar : declare name e = declareScalar name e := by
    cases e with
    | array | tuple | dict => cases he
    | _ => rfl
  rw [hscalar] at h
  obtain ⟨⟨kind, code⟩, slot, frame, hv, hassign, rfl, rfl⟩ := declareScalar_ok name e c s s' h
  obtain rfl : kind = .int := (expr_kind s 0 e _ hs.frame he hv).trans hkind
  have hshape : scalarShape s e .int = .scalar .int := by
    have hnone : enumOf? s e = none := by
      cases e with
      | var name =>
        obtain ⟨symbol, hlookup, -⟩ := varValue_int hs.frame (by simpa [expr] using hv)
        simp [enumOf?, Scope.shape?, hlookup, (hs.frame.symbol _ symbol hlookup).1]
      | index => cases he
      | _ => rfl
    rw [scalarShape, hnone]
  rw [hshape] at hassign
  exact ⟨code, slot, frame, hv, hassign, rfl, rfl⟩

theorem loop_ints {s : Scope} {var : String} {counter stop : Slot} {frame₁ frame₂ : Frame}
    (hs : s.Ints) (hcounter : s.frame.assign var (.scalar .int) = (.ok counter, frame₁))
    (hstop : frame₁.hidden = (.ok stop, frame₂)) :
    frame₁.Ints ∧ frame₂.Ints ∧ s.frame.Extends frame₁ ∧ frame₁.Extends frame₂ := by
  obtain ⟨hints₁, hextends₁, -⟩ := hs.frame.assign hcounter
  obtain ⟨hints₂, hextends₂, -⟩ := hints₁.hidden hstop
  exact ⟨hints₁, hints₂, hextends₁, hextends₂⟩

mutual

theorem stmt_ints (st : Stmt) (c : Code) (s s' : Scope) (h : stmt st s = .ok (c, s'))
    (hs : s.Ints) (hst : st.basic = true) : s'.Ints ∧ s.frame.Extends s'.frame := by
  match st with
  | .print value =>
    rw [stmt] at h
    obtain ⟨v, -, rfl, -⟩ := print_basic hs hst h
    exact ⟨hs, .refl _⟩
  | .decl name value =>
    simp only [Stmt.basic, Bool.and_eq_true, decide_eq_true_eq] at hst
    rw [stmt] at h
    obtain ⟨code, slot, frame, -, hassign, rfl, -⟩ := declare_basic hs hst.1 hst.2 h
    obtain ⟨hints, hextends, -⟩ := hs.frame.assign hassign
    exact ⟨⟨hints, hs.enums⟩, hextends⟩
  | .loop var (.counted start stop) body =>
    simp only [Stmt.basic, Bool.and_eq_true] at hst
    rw [stmt] at h
    obtain ⟨startCode, counter, frame₁, stopCode, stopSlot, frame₂, code, -, hcounter, -, hstop,
      hcode, -⟩ := loop_ok var start stop (block body) c s s' h
    obtain ⟨-, hints₂, hextends₁, hextends₂⟩ := loop_ints hs hcounter hstop
    obtain ⟨code', top, done, -, -, hbody, -⟩ := countedLoop_ok _ _ _ _ _ _ hcode
    obtain ⟨hs', hextends⟩ := block_ints body _ _ s' hbody ⟨hints₂, hs.enums⟩ hst.2
    exact ⟨hs', (hextends₁.trans hextends₂).trans hextends⟩
  | .cond test thenBody none =>
    simp only [Stmt.basic, Bool.and_eq_true] at hst
    obtain ⟨otherwise, testCode, thenCode, -, -, hthen, -⟩ := cond_none_ok test thenBody c s s' h
    obtain ⟨hs', hextends⟩ := block_ints thenBody _ _ s' hthen ⟨hs.frame, hs.enums⟩ hst.2
    exact ⟨hs', hextends⟩
  | .cond test thenBody (some elseBody) =>
    simp only [Stmt.basic, Bool.and_eq_true] at hst
    obtain ⟨otherwise, done, testCode, thenCode, elseCode, s₁, -, -, -, hthen, helse, -⟩ :=
      cond_some_ok test thenBody elseBody c s s' h
    obtain ⟨hs₁, hextends₁⟩ := block_ints thenBody _ _ s₁ hthen ⟨hs.frame, hs.enums⟩ hst.1.2
    obtain ⟨hs', hextends⟩ := block_ints elseBody _ _ s' helse ⟨hs₁.frame, hs₁.enums⟩ hst.2
    exact ⟨hs', hextends₁.trans hextends⟩
  | .ret value =>
    rw [stmt] at h
    obtain ⟨label, code, -, -, rfl, -⟩ := ret_ok value c s s' h
    exact ⟨hs, .refl _⟩
  | .expr value =>
    simp only [stmt, Lowering.bind_ok, Lowering.value_ok, Lowering.pure_ok] at h
    obtain ⟨v, _, ⟨-, rfl⟩, -, rfl⟩ := h
    exact ⟨hs, .refl _⟩

theorem block_ints (body : List Stmt) (c : Code) (s s' : Scope) (h : block body s = .ok (c, s'))
    (hs : s.Ints) (hbody : Stmt.allBasic body = true) :
    s'.Ints ∧ s.frame.Extends s'.frame := by
  match body with
  | [] =>
    obtain ⟨-, rfl⟩ := (Lowering.pure_ok _ _ _ _).mp h
    exact ⟨hs, .refl _⟩
  | st :: rest =>
    simp only [Stmt.allBasic, Bool.and_eq_true] at hbody
    obtain ⟨c₁, c₂, s₁, h₁, h₂, -⟩ := block_cons_ok st rest c s s' h
    obtain ⟨hs₁, hextends₁⟩ := stmt_ints st c₁ s s₁ h₁ hs hbody.1
    obtain ⟨hs', hextends⟩ := block_ints rest c₂ s₁ s' h₂ hs₁ hbody.2
    exact ⟨hs', hextends₁.trans hextends⟩

end

end Lower

end Armature
