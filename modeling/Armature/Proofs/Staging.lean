import Armature.Proofs.Balance

/-!
# Staged arguments

The arguments of a call wait in registers, above those of the calls around it. So a call fits if the
numbers of the arguments that it is nested in, added up, leave enough registers for its own.
-/

namespace Armature

open A64 (Instr XReg)
open Asm (Code Line)

/-! ## Nodes of an expression -/

namespace Expr

/-- A step from an operator or a call to one of its operands or arguments. -/
inductive Turn where
  | left
  | right
  | operand
  | argument (i : Nat)

/-- How many arguments are staged already where the step leads. -/
def Turn.ahead : Turn → Nat
  | argument i => i
  | _ => 0

def child? : Expr → Turn → Option Expr
  | binary _ lhs _, .left => some lhs
  | binary _ _ rhs, .right => some rhs
  | unary _ operand, .operand => some operand
  | call _ args, .argument i => args[i]?
  | _, _ => none

/-- The node at the end of a path. -/
def node? (e : Expr) : List Turn → Option Expr
  | [] => some e
  | turn :: path => (e.child? turn).bind (node? · path)

/-- The sum, over the calls around the end of a path, of the number of the argument it is in. -/
def ahead (path : List Turn) : Nat := (path.map Turn.ahead).sum

/-- Where `taken` registers are taken already, there are enough for the arguments of each call. -/
def Fits (taken : Nat) (e : Expr) : Prop :=
  ∀ path name args, e.node? path = some (.call name args) → taken + ahead path + args.length ≤ 9

/-- The same for arguments, of which each takes one register more. -/
def AllFit (taken : Nat) (args : List Expr) : Prop :=
  ∀ (i : Nat) arg, args[i]? = some arg → arg.Fits (taken + i)

theorem fits_iff (taken : Nat) (e : Expr) :
    e.Fits taken ↔ (∀ name args, e = .call name args → taken + args.length ≤ 9) ∧
      ∀ turn e', e.child? turn = some e' → e'.Fits (taken + turn.ahead) := by
  constructor
  · intro h
    refine ⟨?_, ?_⟩
    · rintro name args rfl
      exact h [] name args rfl
    · intro turn e' hchild path name args hnode
      have hle := h (turn :: path) name args (by rw [node?, hchild, Option.bind_some, hnode])
      rw [ahead, List.map_cons, List.sum_cons, ← Nat.add_assoc] at hle
      exact hle
  · rintro ⟨hcall, hchild⟩ path name args hnode
    cases path with
    | nil => exact hcall name args (Option.some.inj hnode)
    | cons turn path =>
      obtain ⟨e', he', hnode⟩ := Option.bind_eq_some_iff.mp hnode
      have hle := hchild turn e' he' path name args hnode
      rw [ahead, List.map_cons, List.sum_cons, ← Nat.add_assoc]
      exact hle

section

variable (taken : Nat)

theorem fits_int (i : Int64) : (int i).Fits taken := by
  rw [fits_iff]
  simp [child?]

theorem fits_var (name : String) : (var name).Fits taken := by
  rw [fits_iff]
  simp [child?]

theorem fits_binary (op : BinaryOp) (lhs rhs : Expr) :
    (binary op lhs rhs).Fits taken ↔ lhs.Fits taken ∧ rhs.Fits taken := by
  rw [fits_iff]
  constructor
  · rintro ⟨-, h⟩
    exact ⟨h .left lhs rfl, h .right rhs rfl⟩
  · rintro ⟨hl, hr⟩
    refine ⟨by simp, fun turn e' hchild => ?_⟩
    cases turn with
    | left => cases hchild; exact hl
    | right => cases hchild; exact hr
    | _ => cases hchild

theorem fits_unary (op : UnaryOp) (operand : Expr) :
    (unary op operand).Fits taken ↔ operand.Fits taken := by
  rw [fits_iff]
  constructor
  · rintro ⟨-, h⟩
    exact h .operand operand rfl
  · intro h
    refine ⟨by simp, fun turn e' hchild => ?_⟩
    cases turn with
    | operand => cases hchild; exact h
    | _ => cases hchild

theorem fits_call (name : String) (args : List Expr) :
    (call name args).Fits taken ↔ taken + args.length ≤ 9 ∧ AllFit taken args := by
  rw [fits_iff]
  constructor
  · rintro ⟨hcall, h⟩
    exact ⟨hcall name args rfl, fun i arg harg => h (.argument i) arg harg⟩
  · rintro ⟨hcall, h⟩
    refine ⟨?_, fun turn e' hchild => ?_⟩
    · rintro _ _ ⟨⟩
      exact hcall
    · cases turn with
      | argument i => exact h i e' hchild
      | _ => cases hchild

theorem allFit_cons (arg : Expr) (rest : List Expr) :
    AllFit taken (arg :: rest) ↔ arg.Fits taken ∧ AllFit (taken + 1) rest := by
  constructor
  · intro h
    refine ⟨h 0 arg rfl, fun i a ha => ?_⟩
    rw [Nat.add_assoc, Nat.add_comm 1 i]
    exact h (i + 1) a ha
  · rintro ⟨hfirst, hrest⟩ i a ha
    cases i with
    | zero =>
      obtain rfl := Option.some.inj ha
      exact hfirst
    | succ i =>
      rw [Nat.add_comm i 1, ← Nat.add_assoc]
      exact hrest i a ha

end

/-- Arithmetic on integers, with calls of declared functions that have as many arguments as they
take. -/
inductive Arithmetic (s : Scope) : Expr → Prop
  | int (i : Int64) : Arithmetic s (.int i)
  | var (name : String) (slot : Slot) :
    s.shape? name = some (slot, .scalar .int) → Arithmetic s (.var name)
  | binary (op : BinaryOp) (lhs rhs : Expr) : op ∈ [.add, .sub, .mul, .div, .mod] →
    Arithmetic s lhs → Arithmetic s rhs → Arithmetic s (.binary op lhs rhs)
  | neg (operand : Expr) : Arithmetic s operand → Arithmetic s (.unary .neg operand)
  | call (name : String) (args : List Expr) (f : Callee) : s.functions.get? name = some f →
    args.length = f.arity → args.length ≤ 8 → (∀ arg ∈ args, Arithmetic s arg) →
    Arithmetic s (.call name args)

end Expr

namespace Lower

/-! ## When there is code -/

variable {s : Scope} {d : Nat} {e : Expr} {name : String} {args : List Expr}

/-- There is code for an integer if the calls fit, and otherwise too few registers. -/
def Affords (s : Scope) (d : Nat) (e : Expr) : Prop :=
  (e.Fits d ∧ ∃ c, expr s d e = .ok ⟨.int, c⟩) ∨
    ¬ e.Fits d ∧ expr s d e = .error (.exhausted .stagingRegisters)

theorem binary_ints {op : BinaryOp} (hop : op ∈ [.add, .sub, .mul, .div, .mod])
    (left right : Code) : ∃ c, binary op ⟨.int, left⟩ ⟨.int, right⟩ = .ok ⟨.int, c⟩ := by
  simp only [List.mem_cons, List.not_mem_nil, or_false] at hop
  rcases hop with rfl | rfl | rfl | rfl | rfl <;> exact ⟨_, rfl⟩

theorem Affords.binary {op : BinaryOp} {lhs rhs : Expr}
    (hop : op ∈ [.add, .sub, .mul, .div, .mod]) (hl : Affords s d lhs) (hr : Affords s d rhs) :
    Affords s d (.binary op lhs rhs) := by
  unfold Affords
  rw [Expr.fits_binary, expr]
  rcases hl with ⟨hfits, left, hleft⟩ | ⟨hfits, hleft⟩
  · rw [hleft]
    rcases hr with ⟨hfits', right, hright⟩ | ⟨hfits', hright⟩
    · rw [hright]
      exact .inl ⟨⟨hfits, hfits'⟩, binary_ints hop left right⟩
    · rw [hright]
      exact .inr ⟨fun h => hfits' h.2, rfl⟩
  · rw [hleft]
    exact .inr ⟨fun h => hfits h.1, rfl⟩

theorem Affords.neg {operand : Expr} (h : Affords s d operand) :
    Affords s d (.unary .neg operand) := by
  unfold Affords
  rw [Expr.fits_unary, expr]
  rcases h with ⟨hfits, c, hc⟩ | ⟨hfits, hc⟩
  · rw [hc]
    exact .inl ⟨hfits, _, rfl⟩
  · rw [hc]
    exact .inr ⟨hfits, rfl⟩

theorem affords_arguments (name : String) (d : Nat) (h : ∀ arg ∈ args, ∀ d, Affords s d arg) :
    (Expr.AllFit d args ∧ ∃ c, arguments s d name args = .ok c) ∨
      ¬ Expr.AllFit d args ∧ arguments s d name args = .error (.exhausted .stagingRegisters) := by
  induction args generalizing d with
  | nil => exact .inl ⟨by simp [Expr.AllFit], [], rfl⟩
  | cons arg rest ih =>
    rw [arguments, Expr.allFit_cons]
    rcases h arg List.mem_cons_self d with ⟨hfits, c, hc⟩ | ⟨hfits, hc⟩
    · rw [hc]
      rcases ih (d + 1) fun a ha => h a (List.mem_cons_of_mem arg ha) with
        ⟨hall, c', hc'⟩ | ⟨hall, hc'⟩
      · exact .inl ⟨⟨hfits, hall⟩, c ++ .instr (.mov (.staging d) .x0) :: c', by rw [hc']; rfl⟩
      · exact .inr ⟨fun h => hall h.2, by rw [hc']; rfl⟩
    · rw [hc]
      exact .inr ⟨fun h => hfits h.1, rfl⟩

theorem Affords.call {f : Callee} (hf : s.functions.get? name = some f)
    (harity : args.length = f.arity) (hcount : args.length ≤ 8)
    (h : ∀ arg ∈ args, ∀ d, Affords s d arg) : Affords s d (.call name args) := by
  have hcallee : callee s d name args.length =
      if 9 < d + args.length then .error (.exhausted .stagingRegisters) else .ok f := by
    have hlimit : ¬ Resource.arguments.limit < args.length := Nat.not_lt.mpr hcount
    have hsame : ¬ args.length ≠ f.arity := fun hne => hne harity
    simp only [callee, hf, if_neg hlimit, if_neg hsame]
    rfl
  unfold Affords
  rw [Expr.fits_call, expr, hcallee]
  by_cases hd : 9 < d + args.length
  · rw [if_pos hd]
    exact .inr ⟨fun h => Nat.not_le.mpr hd h.1, rfl⟩
  · rw [if_neg hd]
    rcases affords_arguments name d h with ⟨hall, c, hc⟩ | ⟨hall, hc⟩
    · exact .inl ⟨⟨Nat.le_of_not_lt hd, hall⟩, _, by rw [hc]; rfl⟩
    · exact .inr ⟨fun h => hall h.2, by rw [hc]; rfl⟩

theorem affords_of_arithmetic (h : e.Arithmetic s) (d : Nat) : Affords s d e := by
  induction h generalizing d with
  | int i => exact .inl ⟨Expr.fits_int d i, _, by rw [expr]⟩
  | var name slot hshape =>
    refine .inl ⟨Expr.fits_var d name, [load .int slot], ?_⟩
    rw [expr, varValue, hshape]
    rfl
  | binary op lhs rhs hop _ _ hl hr => exact (hl d).binary hop (hr d)
  | neg operand _ ih => exact (ih d).neg
  | call name args f hf harity hcount _ ih => exact .call hf harity hcount ih

/-! ## Where the code of a call is -/

/-- Code of arguments that are staged from register `d` on. What computes an argument leaves those
that were staged before it. -/
inductive StagedFrom (s : Scope) : Nat → List Expr → Code → Prop
  | nil {d : Nat} : StagedFrom s d [] []
  | cons {d : Nat} {arg : Expr} {rest : List Expr} {value : ValueCode} {c : Code} :
    expr s d arg = .ok value → WordsSpare d value.code → StagedFrom s (d + 1) rest c →
    StagedFrom s d (arg :: rest) (value.code ++ .instr (.mov (.staging d) .x0) :: c)

/-- Code of a call whose arguments are in the registers from `d` on until they are passed. -/
def CallsFrom (s : Scope) (d : Nat) (name : String) (args : List Expr) (c : Code) : Prop :=
  ∃ f staged, s.functions.get? name = some f ∧ StagedFrom s d args staged ∧
    c = staged ++ passArguments d args.length ++ [.call f.entry]

theorem stagedFrom_arguments {c : Code} (h : arguments s d name args = .ok c) :
    StagedFrom s d args c := by
  induction args generalizing d c with
  | nil =>
    cases h
    exact .nil
  | cons arg rest ih =>
    obtain ⟨value, c', hvalue, -, hc', rfl⟩ := arguments_cons h
    exact .cons hvalue (expr_evaluates s d arg value hvalue).spares (ih hc')

theorem callsFrom_expr {value : ValueCode} (h : expr s d (.call name args) = .ok value) :
    CallsFrom s d name args value.code := by
  simp only [expr, bind_eq_ok] at h
  obtain ⟨f, hf, c, hc, h⟩ := h
  cases h
  exact ⟨f, c, (callee_ok hf).1, stagedFrom_arguments hc, rfl⟩

theorem arguments_contains {c : Code} (h : arguments s d name args = .ok c) {i : Nat} {arg : Expr}
    (harg : args[i]? = some arg) : ∃ value, expr s (d + i) arg = .ok value ∧ value.code <:+: c := by
  induction args generalizing d c i with
  | nil => cases harg
  | cons first rest ih =>
    obtain ⟨value, c', hvalue, -, hc', rfl⟩ := arguments_cons h
    cases i with
    | zero =>
      obtain rfl := Option.some.inj harg
      exact ⟨value, hvalue, List.infix_append [] _ _⟩
    | succ i =>
      obtain ⟨value', hvalue', hpart⟩ := ih hc' harg
      rw [Nat.add_assoc, Nat.add_comm 1 i] at hvalue'
      have hrest : c' <:+: value.code ++ .instr (.mov (.staging d) .x0) :: c' :=
        ⟨value.code ++ [.instr (.mov (.staging d) .x0)], [], by simp⟩
      exact ⟨value', hvalue', hpart.trans hrest⟩

theorem child_contains {value : ValueCode} (h : expr s d e = .ok value) {turn : Expr.Turn}
    {child : Expr} (hchild : e.child? turn = some child) :
    ∃ v, expr s (d + turn.ahead) child = .ok v ∧ v.code <:+: value.code := by
  unfold Expr.child? at hchild
  split at hchild
  · cases hchild
    simp only [expr, bind_eq_ok] at h
    obtain ⟨left, hleft, right, -, h⟩ := h
    exact ⟨left, hleft, (binary_contains h).1⟩
  · cases hchild
    simp only [expr, bind_eq_ok] at h
    obtain ⟨left, -, right, hright, h⟩ := h
    exact ⟨right, hright, (binary_contains h).2⟩
  · cases hchild
    simp only [expr, bind_eq_ok] at h
    obtain ⟨operand, hoperand, h⟩ := h
    exact ⟨operand, hoperand, unary_contains h⟩
  · simp only [expr, bind_eq_ok] at h
    obtain ⟨f, -, c, hc, h⟩ := h
    cases h
    obtain ⟨v, hv, hpart⟩ := arguments_contains hc hchild
    refine ⟨v, hv, hpart.trans ?_⟩
    rw [List.append_assoc]
    exact (List.prefix_append _ _).isInfix
  · cases hchild

theorem node_contains {value : ValueCode} (h : expr s d e = .ok value) {path : List Expr.Turn}
    {node : Expr} (hnode : e.node? path = some node) :
    ∃ v, expr s (d + Expr.ahead path) node = .ok v ∧ v.code <:+: value.code := by
  induction path generalizing e d value with
  | nil =>
    obtain rfl := Option.some.inj hnode
    exact ⟨value, h, List.infix_rfl⟩
  | cons turn path ih =>
    obtain ⟨e', hchild, hnode⟩ := Option.bind_eq_some_iff.mp hnode
    obtain ⟨v, hv, hpart⟩ := child_contains h hchild
    obtain ⟨w, hw, hpart'⟩ := ih hv hnode
    rw [Expr.ahead, List.map_cons, List.sum_cons, ← Nat.add_assoc]
    exact ⟨w, hw, hpart'.trans hpart⟩

/-! ## A counter of staged arguments -/

/-- Whether code computes the index. -/
def isComputed : Expr → Bool
  | .int _ => false
  | _ => true

/-- Whether there is code for the index of an element. -/
def computesIndex (s : Scope) (name : String) (position : Expr) : Bool :=
  match s.shape? name with
  | some (_, .array layout) => layout.inner.isNone && isComputed position
  | _ => false

/-- Whether there is code for the indices of an element of an element. -/
def computesIndices (s : Scope) (name : String) (row column : Expr) : Bool × Bool :=
  match s.shape? name with
  | some (_, .array layout) =>
    let computed := layout.inner.isSome && (isComputed row || isComputed column)
    (computed, computed)
  | some (_, .dict _) =>
    match arrayView s name row with
    | .ok (some _) => (false, isComputed column)
    | _ => (false, false)
  | _ => (false, false)

/-- There is no code for an index that is known. -/
def known : ValueCode := ⟨.int, []⟩

/-- The code of an index, with the counter after it. -/
def countedIndex (computed : Bool) (d : Nat) (value : Except LowerError (ValueCode × Nat)) :
    Except LowerError (ValueCode × Nat) :=
  if computed then value else .ok (known, d)

theorem countedIndex_map (computed : Bool) (d : Nat) (value : Except LowerError ValueCode) :
    countedIndex computed d ((·, d) <$> value) =
      (·, d) <$> if computed then value else .ok known := by
  cases computed <;> rfl

theorem element_eq (view : ArrayView) (position : Expr) (value : Except LowerError ValueCode) :
    element view position value =
      (if isComputed position then value else .ok known) >>= fun v =>
        element view position (.ok v) := by
  cases position with
  | int i => rfl
  | _ => cases value <;> rfl

theorem elementOf_eq (s : Scope) (name : String) (position : Expr)
    (value : Except LowerError ValueCode) :
    elementOf s name position value =
      (if computesIndex s name position then value else .ok known) >>= fun v =>
        elementOf s name position (.ok v) := by
  unfold elementOf computesIndex
  cases s.shape? name with
  | none => rfl
  | some found =>
    obtain ⟨slot, shape⟩ := found
    cases shape with
    | array layout =>
      cases hinner : layout.inner with
      | none =>
        simp only [hinner, Option.isSome_none, Option.isNone_none, Bool.true_and, Bool.false_eq_true,
          if_false]
        exact element_eq _ position value
      | some columns => simp only [hinner]; rfl
    | _ => rfl

theorem cell_eq (layout : ArrayLayout) (columns : Nat) (row column : Expr)
    (rowValue columnValue : Except LowerError ValueCode) :
    cell layout columns row column rowValue columnValue =
      (if isComputed row || isComputed column then rowValue else .ok known) >>= fun r =>
        indexCode r >>= fun _ =>
          (if isComputed row || isComputed column then columnValue else .ok known) >>= fun c =>
            cell layout columns row column (.ok r) (.ok c) := by
  have hstrict (hliteral : ∀ r c, row = .int r → column = .int c → False) :
      cell layout columns row column rowValue columnValue = rowValue >>= fun r =>
        indexCode r >>= fun _ => columnValue >>= fun c =>
          cell layout columns row column (.ok r) (.ok c) := by
    unfold cell
    split
    · exact (hliteral _ _ rfl rfl).elim
    · cases rowValue with
      | error e => rfl
      | ok r =>
        cases hr : indexCode r with
        | error e => simp [hr, Bind.bind, Except.bind]
        | ok code => cases columnValue <;> simp [hr, Bind.bind, Except.bind]
  cases row with
  | int r =>
    cases column with
    | int c => rfl
    | _ => exact hstrict fun _ _ _ h => by cases h
  | _ => exact hstrict fun _ _ h => by cases h

theorem elementOfElement_eq (s : Scope) (name : String) (row column : Expr)
    (rowValue columnValue : Except LowerError ValueCode) :
    elementOfElement s name row column rowValue columnValue =
      (if (computesIndices s name row column).1 then rowValue else .ok known) >>= fun r =>
        indexCode r >>= fun _ =>
          (if (computesIndices s name row column).2 then columnValue else .ok known) >>= fun c =>
            elementOfElement s name row column (.ok r) (.ok c) := by
  unfold elementOfElement computesIndices
  cases s.shape? name with
  | none => rfl
  | some found =>
    obtain ⟨slot, shape⟩ := found
    cases shape with
    | array layout =>
      cases hinner : layout.inner with
      | none => simp only [hinner]; rfl
      | some columns =>
        simp only [hinner, Option.isSome_some, Bool.true_and]
        exact cell_eq layout columns row column rowValue columnValue
    | dict fields =>
      cases arrayView s name row with
      | error e => rfl
      | ok view? =>
        cases view? with
        | none => rfl
        | some view => exact element_eq view column columnValue
    | _ => rfl

mutual

/-- Lowering with a counter of the arguments that are staged. Each argument counts it up, and a call
sets it back. -/
def counted (s : Scope) (e : Expr) (d : Nat) : Except LowerError (ValueCode × Nat) :=
  match e with
  | .binary op lhs rhs => do
    let left ← counted s lhs d
    let right ← counted s rhs left.2
    return (← binary op left.1 right.1, right.2)
  | .unary op operand => do
    let value ← counted s operand d
    return (← unary op value.1, value.2)
  | .call name args => do
    let f ← callee s d name args.length
    let staged ← countedArguments s name d 0 args d
    return (⟨.int, staged.1 ++ passArguments d args.length ++ [.call f.entry]⟩, d)
  | .index (.var name) position => do
    let value ← countedIndex (computesIndex s name position) d (counted s position d)
    return (← elementOf s name position (.ok value.1), value.2)
  | .index (.index (.var name) row) column => do
    let computed := computesIndices s name row column
    let rowValue ← countedIndex computed.1 d (counted s row d)
    let _ ← indexCode rowValue.1
    let columnValue ← countedIndex computed.2 rowValue.2 (counted s column rowValue.2)
    return (← elementOfElement s name row column (.ok rowValue.1) (.ok columnValue.1),
      columnValue.2)
  | e => do return (← expr s d e, d)

/-- Arguments from number `i` on of a call that was met when the counter was `base`. -/
def countedArguments (s : Scope) (name : String) (base i : Nat) (args : List Expr) (d : Nat) :
    Except LowerError (Code × Nat) :=
  match args with
  | [] => .ok ([], d)
  | arg :: rest => do
    let value ← counted s arg d
    if value.1.kind ≠ .int then
      .error (.unsupported (.argumentKind value.1.kind name))
    else
      let staged ← countedArguments s name base (i + 1) rest (value.2 + 1)
      return (value.1.code ++ .instr (.mov (.staging (base + i)) .x0) :: staged.1, staged.2)

end

mutual

/-- The counter is as before in the end. -/
theorem counted_eq (s : Scope) (e : Expr) (d : Nat) :
    counted s e d = (·, d) <$> expr s d e := by
  match e with
  | .binary op lhs rhs =>
    rw [counted, expr, counted_eq s lhs d, bind_map_left, map_bind]
    refine bind_congr fun left => ?_
    dsimp only
    rw [counted_eq s rhs d, bind_map_left, map_bind]
    exact bind_congr fun right => (map_eq_pure_bind _ _).symm
  | .unary op operand =>
    rw [counted, expr, counted_eq s operand d, bind_map_left, map_bind]
    exact bind_congr fun value => (map_eq_pure_bind _ _).symm
  | .call name args =>
    rw [counted, expr, map_bind]
    refine bind_congr fun f => ?_
    have hstaged := countedArguments_eq s name d 0 args
    rw [Nat.add_zero] at hstaged
    rw [hstaged, bind_map_left, map_bind]
    rfl
  | .index target position =>
    have hposition := counted_eq s position d
    cases target with
    | var name =>
      rw [counted, expr, elementOf_eq, hposition, countedIndex_map, bind_map_left, map_bind]
      exact bind_congr fun value => (map_eq_pure_bind _ _).symm
    | index inner row =>
      have hrow := counted_eq s row d
      cases inner with
      | var name =>
        dsimp only [counted]
        rw [expr, elementOfElement_eq, hrow, countedIndex_map, bind_map_left, map_bind]
        refine bind_congr fun rowValue => ?_
        rw [map_bind]
        refine bind_congr fun _ => ?_
        dsimp only
        rw [hposition, countedIndex_map, bind_map_left, map_bind]
        exact bind_congr fun value => (map_eq_pure_bind _ _).symm
      | _ => exact (map_eq_pure_bind _ _).symm
    | _ => exact (map_eq_pure_bind _ _).symm
  -- the others have no parts that are lowered
  | .int _ | .float _ | .str _ | .bool _ | .nil | .var _ | .array _ | .tuple _ | .dict _
  | .interpolation _ | .input _ =>
    exact (map_eq_pure_bind _ _).symm

theorem countedArguments_eq (s : Scope) (name : String) (base i : Nat) (args : List Expr) :
    countedArguments s name base i args (base + i) =
      (·, base + i + args.length) <$> arguments s (base + i) name args := by
  match args with
  | [] => rfl
  | arg :: rest =>
    rw [countedArguments, arguments, counted_eq s arg (base + i), bind_map_left, map_bind]
    refine bind_congr fun value => ?_
    have hlength : base + i + (arg :: rest).length = base + (i + 1) + rest.length := by
      rw [List.length_cons]
      omega
    dsimp only
    split
    · rfl
    · rw [Nat.add_assoc base i 1, countedArguments_eq s name base (i + 1) rest, bind_map_left,
        map_bind, hlength]
      rfl

end

theorem counted_of_ok {value : ValueCode} (h : expr s d e = .ok value) :
    counted s e d = .ok (value, d) := by
  rw [counted_eq, h]
  rfl

end Lower

/-! ## The budget -/

/-- There is code for integer arithmetic with calls exactly if, for each call, its arguments and
those staged before it by the calls around it are at most nine, and otherwise registers are the
reason. Then the counter of staged arguments is back at zero, and the arguments of each call are in
the registers that follow those of the calls around it. -/
theorem arithmetic_staged_iff {s : Scope} {e : Expr} (he : e.Arithmetic s) :
    ((∃ c, Lower.expr s 0 e = .ok c) ↔ ∀ path name args, e.node? path = some (.call name args) →
      args.length + Expr.ahead path ≤ 9) ∧
    ((∃ path name args, e.node? path = some (.call name args) ∧
      9 < args.length + Expr.ahead path) →
      Lower.expr s 0 e = .error (.exhausted .stagingRegisters)) ∧
    ∀ c, Lower.expr s 0 e = .ok c → c.kind = .int ∧ Lower.counted s e 0 = .ok (c, 0) ∧
      ∀ path name args, e.node? path = some (.call name args) →
        ∃ code, code <:+: c.code ∧ Lower.CallsFrom s (Expr.ahead path) name args code := by
  have hfits : e.Fits 0 ↔ ∀ path name args, e.node? path = some (.call name args) →
      args.length + Expr.ahead path ≤ 9 := by
    simp only [Expr.Fits, Nat.zero_add, Nat.add_comm]
  have hparts (c : Lower.ValueCode) (hc : Lower.expr s 0 e = .ok c) (path : List Expr.Turn)
      (name : String) (args : List Expr) (hnode : e.node? path = some (.call name args)) :
      ∃ code, code <:+: c.code ∧ Lower.CallsFrom s (Expr.ahead path) name args code := by
    obtain ⟨v, hv, hpart⟩ := Lower.node_contains hc hnode
    rw [Nat.zero_add] at hv
    exact ⟨v.code, hpart, Lower.callsFrom_expr hv⟩
  rw [← hfits]
  rcases Lower.affords_of_arithmetic he 0 with ⟨hfit, c, hc⟩ | ⟨hnot, herror⟩
  · refine ⟨⟨fun _ => hfit, fun _ => ⟨_, hc⟩⟩, ?_, ?_⟩
    · rintro ⟨path, name, args, hnode, hlt⟩
      exact absurd (hfits.mp hfit path name args hnode) (Nat.not_le.mpr hlt)
    · intro c' hc'
      refine ⟨?_, Lower.counted_of_ok hc', hparts c' hc'⟩
      obtain rfl := Except.ok.inj (hc.symm.trans hc')
      rfl
  · refine ⟨⟨?_, fun hfit => absurd hfit hnot⟩, fun _ => herror, ?_⟩
    all_goals
      rw [herror]
    · rintro ⟨c, hc⟩
      cases hc
    · intro c hc
      cases hc

/-- Functions of three, seven and eight parameters, and a variable. -/
def callScope : Scope :=
  { Session.enter ⟨[("f", ⟨⟨0⟩, 3⟩), ("g", ⟨⟨1⟩, 7⟩), ("h", ⟨⟨2⟩, 8⟩)], [], .empty, none⟩ false with
    frame := (Frame.empty.assign "x" (.scalar .int)).2 }

def numbers (count : Nat) : List Expr := (List.range count).map fun i => .int (Int64.ofNat i)

/-- The last argument of a call is the negative of another one. -/
def callInThird (name : String) (count : Nat) : Expr :=
  .call "f" [.int 1, .binary .mul (.var "x") (.int 2), .unary .neg (.call name (numbers count))]

theorem arithmetic_callInThird (name : String) (count : Nat) {f : Callee}
    (hf : callScope.functions.get? name = some f) (harity : f.arity = count) (hcount : count ≤ 8) :
    (callInThird name count).Arithmetic callScope := by
  have hlength : (numbers count).length = count := by simp [numbers]
  have hnumbers : ∀ arg ∈ numbers count, arg.Arithmetic callScope := by
    intro arg harg
    obtain ⟨i, -, rfl⟩ := List.mem_map.mp harg
    exact .int _
  have hthree : 3 ≤ 8 := by decide
  refine .call "f" _ ⟨⟨0⟩, 3⟩ rfl rfl hthree ?_
  simp only [List.mem_cons, List.not_mem_nil, or_false]
  rintro arg (rfl | rfl | rfl)
  · exact .int 1
  · exact .binary _ _ _ (by decide) (.var "x" ⟨0⟩ rfl) (.int 2)
  · exact .neg _ (.call name _ f hf (by rw [hlength, harity]) (by rw [hlength]; exact hcount)
      hnumbers)

/-- Two arguments are staged before the inner call, so it can have seven, and eight are too many. -/
theorem callInThird_staged :
    (∃ c, Lower.expr callScope 0 (callInThird "g" 7) = .ok c ∧
      Lower.counted callScope (callInThird "g" 7) 0 = .ok (c, 0) ∧
      ∃ code, code <:+: c.code ∧ Lower.CallsFrom callScope 2 "g" (numbers 7) code) ∧
    Lower.expr callScope 0 (callInThird "h" 8) = .error (.exhausted .stagingRegisters) := by
  have hsevenArgs := arithmetic_callInThird "g" 7 rfl rfl (by decide)
  have heightArgs := arithmetic_callInThird "h" 8 rfl rfl (by decide)
  have hpath : (callInThird "g" 7).node? [.argument 2, .operand] = some (.call "g" (numbers 7)) :=
    rfl
  have hpath' : (callInThird "h" 8).node? [.argument 2, .operand] = some (.call "h" (numbers 8)) :=
    rfl
  constructor
  · obtain ⟨c, hc⟩ : ∃ c, Lower.expr callScope 0 (callInThird "g" 7) = .ok c := ⟨_, rfl⟩
    obtain ⟨-, hcounted, hcalls⟩ := (arithmetic_staged_iff hsevenArgs).2.2 c hc
    exact ⟨c, hc, hcounted, hcalls _ _ _ hpath⟩
  · exact (arithmetic_staged_iff heightArgs).2.1 ⟨_, _, _, hpath', by decide⟩

end Armature
