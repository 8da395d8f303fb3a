import Armature.Compile

/-!
# Successful lowering, taken apart

What must have succeeded before when a step of lowering succeeds.
-/

namespace Armature

theorem bind_eq_ok {ε α β : Type} (x : Except ε α) (f : α → Except ε β) (b : β) :
    (x >>= f) = .ok b ↔ ∃ a, x = .ok a ∧ f a = .ok b := by
  cases x with
  | error e => simp [bind, Except.bind]
  | ok a => simp [bind, Except.bind]

theorem exists_ok {ε α : Type} {x : Except ε α} {p : α → Prop} [DecidablePred p]
    (h : (x.toOption.any fun a => decide (p a)) = true) : ∃ a, x = .ok a ∧ p a := by
  cases x with
  | error e => cases h
  | ok a => exact ⟨a, rfl, of_decide_eq_true h⟩

theorem exists_ok_of_isOk {ε α : Type} {x : Except ε α} (h : x.isOk = true) : ∃ a, x = .ok a := by
  cases x with
  | error e => cases h
  | ok a => exact ⟨a, rfl⟩

namespace Lowering

variable {α β : Type}

theorem bind_ok {σ : Type} (x : StateT σ (Except LowerError) α)
    (f : α → StateT σ (Except LowerError) β) (s : σ) (r : β × σ) :
    (x >>= f) s = .ok r ↔ ∃ a s', x s = .ok (a, s') ∧ f a s' = .ok r := by
  show (x s >>= fun p => f p.1 p.2) = .ok r ↔ _
  rw [bind_eq_ok]
  constructor
  · rintro ⟨⟨a, s'⟩, hx, hf⟩
    exact ⟨a, s', hx, hf⟩
  · rintro ⟨a, s', hx, hf⟩
    exact ⟨⟨a, s'⟩, hx, hf⟩

theorem pure_ok {σ : Type} (a b : α) (s s' : σ) :
    (pure a : StateT σ (Except LowerError) α) s = .ok (b, s') ↔ a = b ∧ s = s' := by
  constructor
  · intro h
    cases h
    exact ⟨rfl, rfl⟩
  · rintro ⟨rfl, rfl⟩
    rfl

theorem get_ok (a s s' : Scope) : (get : Lowering Scope) s = .ok (a, s') ↔ s = a ∧ s = s' := by
  constructor
  · intro h
    cases h
    exact ⟨rfl, rfl⟩
  · rintro ⟨rfl, rfl⟩
    rfl

theorem fail_ok (e : LowerError) (s : Scope) (r : α × Scope) :
    (fail e : Lowering α) s = .ok r ↔ False := by
  simp [fail]

theorem refuse_ok (c : Construct) (s : Scope) (r : α × Scope) :
    (refuse c : Lowering α) s = .ok r ↔ False := by
  simp [refuse, fail]

theorem value_ok (e : Expr) (v : Lower.ValueCode) (s s' : Scope) :
    value e s = .ok (v, s') ↔ Lower.expr s 0 e = .ok v ∧ s = s' := by
  unfold value
  rw [bind_eq_ok]
  constructor
  · rintro ⟨w, hw, h⟩
    cases h
    exact ⟨hw, rfl⟩
  · rintro ⟨hv, rfl⟩
    exact ⟨v, hv, rfl⟩

theorem newLabel_ok (purpose : Asm.Purpose) (label : Asm.Label) (s s' : Scope) :
    newLabel purpose s = .ok (label, s') ↔
      label = ⟨s.labels.entries.size⟩ ∧ s' = { s with labels := (s.labels.create purpose).2 } := by
  constructor
  · intro h
    cases h
    exact ⟨rfl, rfl⟩
  · rintro ⟨rfl, rfl⟩
    rfl

theorem take_ok (taking : Frame → Frame.Taking α) (a : α) (s s' : Scope) :
    take taking s = .ok (a, s') ↔
      ∃ frame, taking s.frame = (.ok a, frame) ∧ s' = { s with frame } := by
  unfold take
  constructor
  · intro h
    split at h
    · rename_i b frame hb
      cases h
      exact ⟨frame, hb, rfl⟩
    · cases h
  · rintro ⟨frame, hframe, rfl⟩
    simp [hframe]

theorem accept_ok (x : Except Construct α) (a : α) (s s' : Scope) :
    Lower.accept x s = .ok (a, s') ↔ x = .ok a ∧ s = s' := by
  cases x with
  | error c => simp [Lower.accept, refuse_ok]
  | ok b =>
    simp only [Lower.accept, pure_ok, Except.ok.injEq]

end Lowering

namespace SessionM

theorem declared_ok (name : String) (callee : Callee) (s s' : Session) :
    declared name s = .ok (callee, s') ↔ s.functions.get? name = some callee ∧ s = s' := by
  unfold declared
  constructor
  · intro h
    split at h
    · rename_i hcallee
      cases h
      exact ⟨hcallee, rfl⟩
    · cases h
  · rintro ⟨hcallee, rfl⟩
    rw [hcallee]

theorem openFrame_ok (inFunction : Bool) (u : Unit) (s s' : Session) :
    openFrame inFunction s = .ok (u, s') ↔ s' = (s.enter inFunction).session := by
  constructor
  · intro h
    cases h
    rfl
  · rintro rfl
    rfl

theorem inFrame_ok {α : Type} (step : Lowering α) (a : α) (s : Scope) (s' : Session) :
    inFrame step s.session = .ok (a, s') ↔ ∃ s₁, step s = .ok (a, s₁) ∧ s' = s₁.session := by
  show (step s >>= fun r => pure (r.1, r.2.session)) = .ok (a, s') ↔ _
  rw [bind_eq_ok]
  constructor
  · rintro ⟨⟨a, s₁⟩, hstep, h⟩
    cases h
    exact ⟨s₁, hstep, rfl⟩
  · rintro ⟨s₁, hstep, rfl⟩
    exact ⟨(a, s₁), hstep, rfl⟩

theorem closeFrame_ok (activation : Activation) (s : Scope) (s' : Session) :
    closeFrame s.session = .ok (activation, s') ↔ s.toActivation = activation ∧ s' = s.leave := by
  constructor
  · intro h
    cases h
    exact ⟨rfl, rfl⟩
  · rintro ⟨rfl, rfl⟩
    rfl

end SessionM

/-! ## Frames -/

namespace Frame

theorem reserve_ok {f f' : Frame} {count : Nat} {slot : Slot}
    (h : f.reserve count = (.ok slot, f')) :
    f.used + count ≤ 256 ∧ slot = ⟨BitVec.ofNat 16 f.used⟩ ∧
      f' = { f with used := f.used + count } := by
  unfold reserve at h
  split at h
  · cases h
  · rename_i hle
    cases h
    exact ⟨by simpa [Resource.limit] using hle, rfl, rfl⟩

theorem lookup_bind (f : Frame) (name other : String) (symbol : Symbol) :
    (f.bind name symbol).lookup other = if name = other then some symbol else f.lookup other := by
  unfold lookup bind
  split
  · rename_i h
    rw [← h, Bindings.get?_set_self]
  · rename_i h
    exact Bindings.get?_set_of_ne _ _ h

theorem assign_ok {f f' : Frame} {name : String} {shape : Shape} {slot : Slot}
    (h : f.assign name shape = (.ok slot, f')) :
    (∃ symbol, f.lookup name = some symbol ∧ slot = symbol.slot ∧
      f' = f.bind name { symbol with shape }) ∨
      ∃ f₁, f.reserve 1 = (.ok slot, f₁) ∧ f' = f₁.bind name ⟨slot, 1, shape⟩ := by
  unfold assign at h
  cases hreserve : f.reserve 1 with
  | mk r f₁ =>
    cases hlookup : f.lookup name with
    | none =>
      cases r with
      | error r => simp [hreserve, hlookup] at h
      | ok slot' =>
        simp only [hreserve, hlookup, Prod.mk.injEq, Except.ok.injEq] at h
        obtain ⟨rfl, rfl⟩ := h
        exact .inr ⟨f₁, rfl, rfl⟩
    | some symbol =>
      simp only [hreserve, hlookup] at h
      split at h
      · cases h
        exact .inl ⟨symbol, rfl, rfl, rfl⟩
      · cases r with
        | error r => simp at h
        | ok slot' =>
          cases h
          exact .inr ⟨f₁, rfl, rfl⟩

theorem assign_lookup {f f' : Frame} {name : String} {shape : Shape} {slot : Slot}
    (h : f.assign name shape = (.ok slot, f')) :
    ∃ symbol, symbol.slot = slot ∧ symbol.shape = shape ∧
      ∀ other, f'.lookup other = if name = other then some symbol else f.lookup other := by
  rcases assign_ok h with ⟨symbol, -, rfl, rfl⟩ | ⟨f₁, hreserve, rfl⟩
  · exact ⟨{ symbol with shape }, rfl, rfl, fun other => lookup_bind f name other _⟩
  · obtain ⟨-, -, rfl⟩ := reserve_ok hreserve
    exact ⟨⟨slot, 1, shape⟩, rfl, rfl, fun other => lookup_bind _ name other _⟩

theorem spanFor_symbols {f f' : Frame} {name : String} {count : Nat} {room : Slot × Nat}
    (h : f.spanFor name count = (.ok room, f')) : f'.symbols = f.symbols := by
  have hreserved (slot : Slot) (f₁ : Frame) (hreserve : f.reserve count = (.ok slot, f₁)) :
      f₁.symbols = f.symbols := by
    obtain ⟨-, -, rfl⟩ := reserve_ok hreserve
    rfl
  unfold spanFor at h
  cases hreserve : f.reserve count with
  | mk r f₁ =>
    cases hlookup : f.lookup name with
    | none =>
      cases r with
      | error r => simp [hreserve, hlookup] at h
      | ok slot =>
        simp only [hreserve, hlookup, Prod.mk.injEq] at h
        rw [← h.2]
        exact hreserved slot f₁ hreserve
    | some symbol =>
      simp only [hreserve, hlookup] at h
      split at h
      · cases h
        rfl
      · cases r with
        | error r => simp at h
        | ok slot =>
          simp only [Prod.mk.injEq] at h
          rw [← h.2]
          exact hreserved slot f₁ hreserve

end Frame

/-! ## Declarations -/

namespace Lower

open Asm (Code Label)

theorem bindComposite_ok (name : String) (kinds : List Scalar) (shape : Slot → Shape) (c : Code)
    (s s' : Scope) (h : bindComposite name kinds shape s = .ok (c, s')) :
    ∃ base span frame, s.frame.spanFor name kinds.length = (.ok (base, span), frame) ∧
      s' = { s with frame := frame.bind name ⟨base, span, shape base⟩ } ∧
      c = unstage base kinds := by
  simp only [bindComposite, Lowering.bind_ok, Lowering.take_ok] at h
  obtain ⟨⟨base, span⟩, _, ⟨frame, hframe, rfl⟩, _, _, hbind, h⟩ := h
  obtain ⟨rfl, rfl⟩ := (Lowering.pure_ok _ _ _ _).mp h
  cases hbind
  exact ⟨base, span, frame, hframe, rfl, rfl⟩

theorem stage_scope (values : List Expr) (r : List Scalar × Code) (s s' : Scope)
    (h : stage values s = .ok (r, s')) : s = s' := by
  induction values generalizing r with
  | nil => exact ((Lowering.pure_ok _ _ _ _).mp h).2
  | cons e rest ih =>
    simp only [stage, Lowering.bind_ok, Lowering.value_ok] at h
    obtain ⟨v, _, ⟨-, rfl⟩, r', s₁, hrest, h⟩ := h
    obtain ⟨-, rfl⟩ := (Lowering.pure_ok _ _ _ _).mp h
    exact ih r' hrest

theorem declareArray_ok (name : String) (items : List Expr) (c : Code) (s s' : Scope)
    (h : declareArray name items s = .ok (c, s')) :
    ∃ values inner kinds kind code d, arrayElements name items = .ok (values, inner) ∧
      stage values s = .ok ((kinds, code), s) ∧ commonKind kinds = some kind ∧
      bindComposite name kinds (fun base => .array ⟨base, items.length, kind, inner⟩) s =
        .ok (d, s') ∧ c = code ++ d := by
  simp only [declareArray, Lowering.bind_ok, Lowering.accept_ok] at h
  obtain ⟨⟨values, inner⟩, _, ⟨hvalues, rfl⟩, ⟨kinds, code⟩, s₁, hstage, h⟩ := h
  obtain rfl := stage_scope values _ s s₁ hstage
  cases hkind : commonKind kinds with
  | none => simp [hkind, Lowering.refuse_ok] at h
  | some kind =>
    simp only [hkind, Lowering.bind_ok, Lowering.pure_ok] at h
    obtain ⟨d, _, hd, rfl, rfl⟩ := h
    exact ⟨values, inner, kinds, kind, code, d, hvalues, hstage, hkind, hd, rfl⟩

theorem declareTuple_ok (name : String) (items : List Expr) (c : Code) (s s' : Scope)
    (h : declareTuple name items s = .ok (c, s')) :
    ∃ kinds code d, items.any Expr.isComposite = false ∧
      stage items s = .ok ((kinds, code), s) ∧
      bindComposite name kinds
        (fun base => .tuple (kinds.zipIdx.map fun (kind, i) => (base.nth i, kind))) s =
        .ok (d, s') ∧ c = code ++ d := by
  simp only [declareTuple] at h
  split at h
  · rw [Lowering.refuse_ok] at h
    exact h.elim
  · rename_i hany
    simp only [Lowering.bind_ok, Lowering.pure_ok] at h
    obtain ⟨⟨kinds, code⟩, s₁, hstage, d, _, hd, rfl, rfl⟩ := h
    obtain rfl := stage_scope items _ s s₁ hstage
    exact ⟨kinds, code, d, by simpa using hany, hstage, hd, rfl⟩

theorem declareDict_ok (name : String) (entries : List (Expr × Expr)) (c : Code) (s s' : Scope)
    (h : declareDict name entries s = .ok (c, s')) :
    ∃ fields shapes kinds code d, dictFields name [] entries = .ok fields ∧
      stage (fields.flatMap FieldLiteral.values) s = .ok ((kinds, code), s) ∧
      fieldShapes name kinds fields = .ok shapes ∧
      bindComposite name kinds (fun base => .dict (placeFields base shapes)) s = .ok (d, s') ∧
      c = code ++ d := by
  simp only [declareDict, Lowering.bind_ok, Lowering.accept_ok, Lowering.pure_ok] at h
  obtain ⟨fields, _, ⟨hfields, rfl⟩, ⟨kinds, code⟩, s₁, hstage, shapes, _, ⟨hshapes, rfl⟩, d, _, hd,
    rfl, rfl⟩ := h
  obtain rfl := stage_scope _ _ s s₁ hstage
  exact ⟨fields, shapes, kinds, code, d, hfields, hstage, hshapes, hd, rfl⟩

/-- The shape of a variable that is bound to a value. -/
def scalarShape (s : Scope) (e : Expr) (kind : Scalar) : Shape :=
  match enumOf? s e with
  | some enum => .enumCase enum
  | none => .scalar kind

theorem declareScalar_ok (name : String) (e : Expr) (c : Code) (s s' : Scope)
    (h : declareScalar name e s = .ok (c, s')) :
    ∃ v slot frame, expr s 0 e = .ok v ∧
      s.frame.assign name (scalarShape s e v.kind) = (.ok slot, frame) ∧
      s' = { s with frame } ∧ c = v.code ++ [store v.kind slot] := by
  simp only [declareScalar, Lowering.bind_ok, Lowering.get_ok, Lowering.value_ok,
    Lowering.take_ok, Lowering.pure_ok] at h
  obtain ⟨_, _, ⟨rfl, rfl⟩, v, _, ⟨hv, rfl⟩, slot, _, ⟨frame, hslot, rfl⟩, rfl, rfl⟩ := h
  exact ⟨v, slot, frame, hv, hslot, rfl, rfl⟩

end Lower

/-! ## Operands and calls -/

namespace Lower

theorem operands_ok {op : BinaryOp} {left right : ValueCode} {r : Bool × Asm.Code}
    (h : operands op left right = .ok r) :
    checkOperands op left.kind right.kind = .ok () ∧
      r.1 = decide (left.kind = .float ∨ right.kind = .float) := by
  simp only [operands, bind_eq_ok] at h
  obtain ⟨_, hcheck, h⟩ := h
  cases h
  refine ⟨hcheck, ?_⟩
  simp only [arrange]
  split
  · rename_i hfloat
    simpa using hfloat
  · rename_i hfloat
    simpa using hfloat

theorem checkOperands_ok {op : BinaryOp} {left right : Scalar}
    (h : checkOperands op left right = .ok ()) :
    (left = .string ∧ right = .string ∧ (op = .eq ∨ op = .ne)) ∨
      (left ≠ .string ∧ right ≠ .string) := by
  unfold checkOperands at h
  split at h
  · cases h
  · rename_i hsame
    rw [ne_eq, Decidable.not_not, eq_iff_iff] at hsame
    split at h
    · cases h
    · rename_i hop
      by_cases hleft : left = .string
      · refine .inl ⟨hleft, hsame.mp hleft, ?_⟩
        simp only [hleft, true_and, not_and, ne_eq, Decidable.not_not] at hop
        by_cases heq : op = .eq
        · exact .inl heq
        · exact .inr (hop heq)
      · exact .inr ⟨hleft, fun hright => hleft (hsame.mpr hright)⟩

theorem isSome_test? (op : BinaryOp) : (test? op).isSome = op.isComparison := by
  cases op <;> rfl

theorem exists_test {op : BinaryOp} (h : op.isComparison = true) : ∃ test, test? op = some test := by
  rw [← isSome_test?, Option.isSome_iff_exists] at h
  exact h

theorem test?_eq_none {op : BinaryOp} : test? op = none ↔ op.isComparison = false := by
  rw [← isSome_test?, Option.isSome_eq_false_iff, Option.isNone_iff_eq_none]

theorem comparison_ok {op : BinaryOp} {left right : ValueCode} {cond : A64.Cond} {code : Asm.Code}
    (h : comparison op left right = .ok (cond, code)) :
    ∃ test r, test? op = some test ∧ operands op left right = .ok r ∧
      cond = (if r.1 then test.floats else test.ints) ∧
      code = r.2 ++ [.instr (if r.1 then .fcmp .d0 .d1 else .cmp .x0 .x1)] := by
  simp only [comparison, bind_eq_ok] at h
  obtain ⟨⟨float, c⟩, hoperands, h⟩ := h
  cases htest : test? op with
  | none => simp [htest] at h
  | some test =>
    rw [htest] at h
    refine ⟨test, _, rfl, hoperands, ?_⟩
    cases float <;> cases h <;> exact ⟨rfl, rfl⟩

theorem arithmetic_ok {op : BinaryOp} {left right v : ValueCode}
    (h : arithmetic op left right = .ok v) :
    ∃ r instrs, operands op left right = .ok r ∧
      (if r.1 then floatCode op else intCode op) = .ok instrs ∧
      v = ⟨if r.1 then .float else .int, r.2 ++ instrs.map .instr⟩ := by
  simp only [arithmetic, bind_eq_ok] at h
  obtain ⟨⟨float, c⟩, hoperands, h⟩ := h
  cases float
  all_goals
    simp only [if_true, if_neg Bool.false_ne_true, bind_eq_ok] at h
    obtain ⟨instrs, hinstrs, h⟩ := h
    cases h
    exact ⟨_, instrs, hoperands, hinstrs, rfl⟩

theorem binary_ok {op : BinaryOp} {left right v : ValueCode} (h : binary op left right = .ok v) :
    (op.isLogical = true ∧ v = logical op left right) ∨
    (op.isLogical = false ∧ ∃ test cond code, test? op = some test ∧
      comparison op left right = .ok (cond, code) ∧
      v = ⟨.bool, code ++ [.instr (.cset .x0 cond)]⟩) ∨
    (op.isLogical = false ∧ test? op = none ∧ arithmetic op left right = .ok v) := by
  unfold binary at h
  split at h
  · rename_i hop
    cases h
    exact .inl ⟨hop, rfl⟩
  · rename_i hop
    rw [Bool.not_eq_true] at hop
    split at h
    · rename_i hcomparison
      obtain ⟨test, htest⟩ := exists_test hcomparison
      rw [bind_eq_ok] at h
      obtain ⟨⟨cond, code⟩, hcode, h⟩ := h
      cases h
      exact .inr (.inl ⟨hop, test, cond, code, htest, hcode, rfl⟩)
    · rename_i hcomparison
      exact .inr (.inr ⟨hop, test?_eq_none.mpr ((Bool.not_eq_true _).mp hcomparison), h⟩)

end Lower

theorem Lower.callee_ok {s : Scope} {depth count : Nat} {name : String} {f : Callee}
    (h : Lower.callee s depth name count = .ok f) :
    s.functions.get? name = some f ∧ count ≤ 8 ∧ depth + count ≤ 9 := by
  unfold Lower.callee at h
  split at h
  · cases h
  · rename_i g hg
    split at h
    · cases h
    · split at h
      · cases h
      · split at h
        · cases h
        · rename_i hcount _ hdepth
          cases h
          exact ⟨hg, by simpa [Resource.limit] using hcount, by simpa [Resource.limit] using hdepth⟩

/-! ## Statements -/

namespace Lower

open Asm (Code Label)

theorem integer_ok (e : Expr) (otherwise : Scalar → Construct) (c : Code) (s s' : Scope) :
    integer e otherwise s = .ok (c, s') ↔ expr s 0 e = .ok ⟨.int, c⟩ ∧ s = s' := by
  unfold integer
  simp only [Lowering.bind_ok, Lowering.value_ok]
  constructor
  · rintro ⟨⟨kind, code⟩, s₁, ⟨hv, rfl⟩, h⟩
    cases kind with
    | int =>
      rw [Lowering.pure_ok] at h
      obtain ⟨rfl, rfl⟩ := h
      exact ⟨hv, rfl⟩
    | _ => simp [Lowering.refuse_ok] at h
  · rintro ⟨hv, rfl⟩
    exact ⟨_, _, ⟨hv, rfl⟩, rfl⟩

theorem countedLoop_ok (counter stop : Slot) (body : Lowering Code) (c : Code) (s s' : Scope)
    (h : countedLoop counter stop body s = .ok (c, s')) :
    ∃ code top done, top = ⟨s.labels.entries.size⟩ ∧ done = ⟨s.labels.entries.size + 1⟩ ∧
      body { s with labels := ((s.labels.create .loopTop).2.create .loopEnd).2 } = .ok (code, s') ∧
      c = [.mark top, loadX .x0 counter, loadX .x1 stop, .instr (.cmp .x0 .x1), .jumpIf .ge done]
        ++ code
        ++ [loadX .x0 counter, .instr (.addImm .x0 .x0 1), storeX .x0 counter, .jump top,
          .mark done] := by
  unfold countedLoop at h
  simp only [Lowering.bind_ok, Lowering.newLabel_ok, Lowering.pure_ok] at h
  obtain ⟨top, _, ⟨htop, rfl⟩, done, _, ⟨hdone, rfl⟩, code, s₁, hcode, rfl, rfl⟩ := h
  refine ⟨code, top, done, htop, ?_, hcode, rfl⟩
  rw [hdone]
  simp [Asm.LabelTable.create]

theorem loop_ok (var : String) (start stop : Expr) (body : Lowering Code) (c : Code) (s s' : Scope)
    (h : loop var start stop body s = .ok (c, s')) :
    ∃ startCode counter frame₁ stopCode stopSlot frame₂ code,
      expr s 0 start = .ok ⟨.int, startCode⟩ ∧
      s.frame.assign var (.scalar .int) = (.ok counter, frame₁) ∧
      expr { s with frame := frame₁ } 0 stop = .ok ⟨.int, stopCode⟩ ∧
      frame₁.hidden = (.ok stopSlot, frame₂) ∧
      countedLoop counter stopSlot body { s with frame := frame₂ } = .ok (code, s') ∧
      c = startCode ++ store .int counter :: stopCode ++ store .int stopSlot :: code := by
  unfold loop at h
  simp only [Lowering.bind_ok, integer_ok, Lowering.take_ok, Lowering.pure_ok] at h
  obtain ⟨startCode, _, ⟨hstart, rfl⟩, counter, _, ⟨frame₁, hcounter, rfl⟩, stopCode, _,
    ⟨hstop, rfl⟩, stopSlot, _, ⟨frame₂, hslot, rfl⟩, code, _, hcode, rfl, rfl⟩ := h
  exact ⟨startCode, counter, frame₁, stopCode, stopSlot, frame₂, code, hstart, hcounter, hstop,
    hslot, hcode, rfl⟩

theorem ret_ok (e : Expr) (c : Code) (s s' : Scope) (h : ret e s = .ok (c, s')) :
    ∃ label code, s.returnTo = some label ∧ expr s 0 e = .ok ⟨.int, code⟩ ∧ s' = s ∧
      c = code ++ [.jump label] := by
  unfold ret at h
  simp only [Lowering.bind_ok, Lowering.get_ok] at h
  obtain ⟨s, _, ⟨rfl, rfl⟩, h⟩ := h
  cases hret : s.returnTo with
  | none => simp [hret, Lowering.refuse_ok] at h
  | some label =>
    simp only [hret, Lowering.bind_ok, integer_ok, Lowering.pure_ok] at h
    obtain ⟨code, _, ⟨hcode, rfl⟩, rfl, rfl⟩ := h
    exact ⟨label, code, rfl, hcode, rfl, rfl⟩

theorem block_cons_ok (st : Stmt) (rest : List Stmt) (c : Code) (s s' : Scope)
    (h : block (st :: rest) s = .ok (c, s')) :
    ∃ c₁ c₂ s₁, stmt st s = .ok (c₁, s₁) ∧ block rest s₁ = .ok (c₂, s') ∧ c = c₁ ++ c₂ := by
  rw [block] at h
  simp only [Lowering.bind_ok, Lowering.pure_ok] at h
  obtain ⟨c₁, s₁, h₁, c₂, s₂, h₂, rfl, rfl⟩ := h
  exact ⟨c₁, c₂, s₁, h₁, h₂, rfl⟩

theorem jumpUnless_ok (target : Label) (e : Expr) (c : Code) (s s' : Scope)
    (h : jumpUnless target e s = .ok (c, s')) :
    s = s' ∧
      ((∃ v, expr s 0 e = .ok v ∧ c = v.code ++ truth v.kind ++ [.jumpIfZero .x0 target]) ∨
      ∃ op lhs rhs test left right cond code, e = .binary op lhs rhs ∧ test? op = some test ∧
        expr s 0 lhs = .ok left ∧ expr s 0 rhs = .ok right ∧
        comparison op left right = .ok (cond, code) ∧
        c = code ++ [.jumpIf cond.invert target]) := by
  have hfalse (h : jumpIfFalse e target s = .ok (c, s')) :
      s = s' ∧ ∃ v, expr s 0 e = .ok v ∧
        c = v.code ++ truth v.kind ++ [.jumpIfZero .x0 target] := by
    unfold jumpIfFalse at h
    simp only [Lowering.bind_ok, Lowering.value_ok, Lowering.pure_ok] at h
    obtain ⟨v, _, ⟨hv, rfl⟩, rfl, rfl⟩ := h
    exact ⟨rfl, v, hv, rfl⟩
  cases e with
  | binary op lhs rhs =>
    rw [jumpUnless] at h
    split at h
    case isFalse =>
      obtain ⟨hs, hv⟩ := hfalse h
      exact ⟨hs, .inl hv⟩
    case isTrue hcomparison =>
      obtain ⟨test, htest⟩ := exists_test hcomparison
      simp only [jumpUnlessHolds, Lowering.bind_ok, Lowering.value_ok] at h
      obtain ⟨left, _, ⟨hleft, rfl⟩, right, _, ⟨hright, rfl⟩, h⟩ := h
      cases hcmp : comparison op left right with
      | error e => simp [hcmp, Lowering.fail_ok] at h
      | ok r =>
        obtain ⟨cond, code⟩ := r
        simp only [hcmp, Lowering.pure_ok] at h
        obtain ⟨rfl, rfl⟩ := h
        exact ⟨rfl, .inr ⟨op, lhs, rhs, test, left, right, cond, code, rfl, htest, hleft, hright,
          hcmp, rfl⟩⟩
  | _ =>
    obtain ⟨hs, hv⟩ := hfalse h
    exact ⟨hs, .inl hv⟩

theorem cond_none_ok (test : Expr) (thenBody : List Stmt) (c : Code) (s s' : Scope)
    (h : stmt (.cond test thenBody none) s = .ok (c, s')) :
    ∃ otherwise testCode thenCode, otherwise = ⟨s.labels.entries.size⟩ ∧
      jumpUnless otherwise test { s with labels := (s.labels.create .otherwise).2 } =
        .ok (testCode, { s with labels := (s.labels.create .otherwise).2 }) ∧
      block thenBody { s with labels := (s.labels.create .otherwise).2 } = .ok (thenCode, s') ∧
      c = testCode ++ thenCode ++ [.mark otherwise] := by
  rw [stmt] at h
  simp only [Lowering.bind_ok, Lowering.newLabel_ok, Lowering.pure_ok] at h
  obtain ⟨otherwise, _, ⟨hlabel, rfl⟩, testCode, s₁, htest, thenCode, _, hthen, rfl, rfl⟩ := h
  obtain ⟨rfl, -⟩ := jumpUnless_ok _ _ _ _ _ htest
  exact ⟨otherwise, testCode, thenCode, hlabel, htest, hthen, rfl⟩

theorem cond_some_ok (test : Expr) (thenBody elseBody : List Stmt) (c : Code) (s s' : Scope)
    (h : stmt (.cond test thenBody (some elseBody)) s = .ok (c, s')) :
    ∃ otherwise done testCode thenCode elseCode s₁, otherwise = ⟨s.labels.entries.size⟩ ∧
      done = ⟨s₁.labels.entries.size⟩ ∧
      jumpUnless otherwise test { s with labels := (s.labels.create .otherwise).2 } =
        .ok (testCode, { s with labels := (s.labels.create .otherwise).2 }) ∧
      block thenBody { s with labels := (s.labels.create .otherwise).2 } = .ok (thenCode, s₁) ∧
      block elseBody { s₁ with labels := (s₁.labels.create .endIf).2 } = .ok (elseCode, s') ∧
      c = testCode ++ thenCode ++ [.jump done, .mark otherwise] ++ elseCode ++ [.mark done] := by
  rw [stmt] at h
  simp only [Lowering.bind_ok, Lowering.newLabel_ok, Lowering.pure_ok] at h
  obtain ⟨otherwise, _, ⟨hlabel, rfl⟩, testCode, s₁, htest, thenCode, s₂, hthen, done, _,
    ⟨hdone, rfl⟩, elseCode, _, helse, rfl, rfl⟩ := h
  obtain ⟨rfl, -⟩ := jumpUnless_ok _ _ _ _ _ htest
  exact ⟨otherwise, done, testCode, thenCode, elseCode, s₂, hlabel, hdone, htest, hthen, helse,
    rfl⟩

end Lower

/-! ## Expressions -/

namespace Lower

open Asm (Code)

theorem arguments_cons {s : Scope} {d : Nat} {name : String} {arg : Expr} {rest : List Expr}
    {c : Code} (h : arguments s d name (arg :: rest) = .ok c) :
    ∃ value c', expr s d arg = .ok value ∧ value.kind = .int ∧
      arguments s (d + 1) name rest = .ok c' ∧
      c = value.code ++ .instr (.mov (.staging d) .x0) :: c' := by
  simp only [arguments, bind_eq_ok] at h
  obtain ⟨value, hvalue, h⟩ := h
  split at h
  · cases h
  · rename_i hkind
    rw [bind_eq_ok] at h
    obtain ⟨c', hc', h⟩ := h
    cases h
    exact ⟨value, c', hvalue, Decidable.not_not.mp hkind, hc', rfl⟩

theorem operands_contains {op : BinaryOp} {left right : ValueCode} {r : Bool × Code}
    (h : operands op left right = .ok r) : left.code <:+: r.2 ∧ right.code <:+: r.2 := by
  simp only [operands, bind_eq_ok] at h
  obtain ⟨_, -, h⟩ := h
  cases h
  refine ⟨⟨[], push left.kind :: right.code ++ (arrange left.kind right.kind).2, by simp⟩, ?_⟩
  exact ⟨left.code ++ [push left.kind], (arrange left.kind right.kind).2, by simp⟩

theorem binary_contains {op : BinaryOp} {left right c : ValueCode}
    (h : binary op left right = .ok c) : left.code <:+: c.code ∧ right.code <:+: c.code := by
  have hmore {r : Bool × Code} (hr : operands op left right = .ok r) (more : Code) :
      left.code <:+: r.2 ++ more ∧ right.code <:+: r.2 ++ more := by
    obtain ⟨hleft, hright⟩ := operands_contains hr
    exact ⟨hleft.trans (List.prefix_append _ _).isInfix,
      hright.trans (List.prefix_append _ _).isInfix⟩
  obtain ⟨-, rfl⟩ | ⟨-, test, cond, code, -, hcode, rfl⟩ | ⟨-, -, h⟩ := binary_ok h
  · refine ⟨⟨[], truth left.kind ++ push .bool :: right.code ++ truth right.kind ++
      [.instr (.mov .x1 .x0), popX .x0, .instr (logicalInstr op)], by simp [logical]⟩, ?_⟩
    exact ⟨left.code ++ truth left.kind ++ [push .bool], truth right.kind ++
      [.instr (.mov .x1 .x0), popX .x0, .instr (logicalInstr op)], by simp [logical]⟩
  · obtain ⟨-, r, -, hr, -, rfl⟩ := comparison_ok hcode
    rw [List.append_assoc]
    exact hmore hr _
  · obtain ⟨r, instrs, hr, -, rfl⟩ := arithmetic_ok h
    exact hmore hr _

theorem unary_contains {op : UnaryOp} {operand c : ValueCode} (h : unary op operand = .ok c) :
    operand.code <:+: c.code := by
  unfold unary at h
  split at h
  · cases h
    exact ⟨[], truth operand.kind ++ [.instr (.cmpImm .x0 0), .instr (.cset .x0 .eq)], by simp⟩
  · split at h
    · cases h
      exact (List.prefix_append _ _).isInfix
    · cases h
      exact (List.prefix_append _ _).isInfix
    · cases h
      exact (List.prefix_append _ _).isInfix
    · cases h

end Lower

/-! ## Programs -/

theorem Program.image_ok (p : Program) (image : Asm.Image) (h : p.image = .ok image) :
    ∃ l, p.lower = .ok l ∧ l.assemble = .ok image := by
  unfold Program.image at h
  rw [bind_eq_ok] at h
  obtain ⟨l, hl, h⟩ := h
  refine ⟨l, ?_, ?_⟩
  · cases hlower : p.lower with
    | error e =>
      rw [hlower] at hl
      cases hl
    | ok l' =>
      rw [hlower] at hl
      cases hl
      rfl
  · cases hassemble : l.assemble with
    | error e =>
      rw [hassemble] at h
      cases h
    | ok image' =>
      rw [hassemble] at h
      cases h
      rfl

end Armature
