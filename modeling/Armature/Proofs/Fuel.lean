import Armature.Eval.Run

/-!
# Fuel

More fuel does not change what a run comes to. Any two amounts that are enough give the same
outcome.
-/

namespace Armature

namespace Fuel

instance : LE Fuel where
  le fuel fuel' := fuel.depth ≤ fuel'.depth ∧ fuel.rounds ≤ fuel'.rounds

theorem le_trans {fuel₁ fuel₂ fuel₃ : Fuel} (h : fuel₁ ≤ fuel₂) (h' : fuel₂ ≤ fuel₃) :
    fuel₁ ≤ fuel₃ :=
  ⟨Nat.le_trans h.1 h'.1, Nat.le_trans h.2 h'.2⟩

theorem exists_ge (fuel fuel' : Fuel) : ∃ both : Fuel, fuel ≤ both ∧ fuel' ≤ both :=
  ⟨⟨max fuel.depth fuel'.depth, max fuel.rounds fuel'.rounds⟩,
    ⟨Nat.le_max_left _ _, Nat.le_max_left _ _⟩, ⟨Nat.le_max_right _ _, Nat.le_max_right _ _⟩⟩

end Fuel

namespace Run

variable {α β : Type}

/-- `x` runs out of fuel, or else it ends as `y` does. -/
def Below (x y : Run α) : Prop := ∀ s, x s = .outOfFuel ∨ x s = y s

namespace Below

theorem refl (x : Run α) : Below x x := fun _ => .inr rfl

theorem done {x y : Run α} (h : Below x y) {a : α} {s s' : State} (hx : x s = .done a s') :
    y s = .done a s' := by
  rcases h s with hout | heq
  · rw [hout] at hx
    cases hx
  · rw [← heq, hx]

theorem cutShort (y : Run α) : Below cutShort y := fun _ => .inl rfl

theorem bind {x x' : Run α} {f f' : α → Run β} (hx : Below x x') (hf : ∀ a, Below (f a) (f' a)) :
    Below (x >>= f) (x' >>= f') := by
  intro s
  change Run.bind x f s = _ ∨ Run.bind x f s = Run.bind x' f' s
  unfold Run.bind
  rcases hx s with h | h
  · rw [h]
    exact .inl rfl
  · rw [← h]
    cases x s with
    | done a s₁ => exact hf a s₁
    | failed e s₁ => exact .inr rfl
    | outOfFuel => exact .inl rfl

theorem inFrame (args : Locals) {x x' : Run α} (h : Below x x') :
    Below (Run.inFrame args x) (Run.inFrame args x') := by
  intro s
  unfold Run.inFrame
  rcases h (s.enter args) with h | h
  · rw [h]
    exact .inl rfl
  · rw [h]
    exact .inr rfl

end Below

/-! ## Repetition -/

theorem below_forEach {step step' : α → Run Flow} (h : ∀ a, Below (step a) (step' a))
    (items : List α) : Below (forEach step items) (forEach step' items) := by
  induction items with
  | nil => exact .refl _
  | cons a rest ih =>
    refine (h a).bind fun flow => ?_
    cases flow with
    | next => exact ih
    | returned v => exact .refl _

theorem below_repeated {step step' : Run (Option Flow)} (h : Below step step') {n n' : Nat}
    (hn : n ≤ n') : Below (repeated step n) (repeated step' n') := by
  induction n generalizing n' with
  | zero => exact .cutShort _
  | succ n ih =>
    obtain ⟨k, rfl⟩ := Nat.exists_eq_add_of_lt hn
    refine h.bind fun flow => ?_
    cases flow with
    | none => exact ih (by omega)
    | some flow => exact .refl _

theorem below_mapAll {f f' : α → Run β} (h : ∀ a, Below (f a) (f' a)) (items : List α) :
    Below (mapAll f items) (mapAll f' items) := by
  induction items with
  | nil => exact .refl _
  | cons a rest ih => exact (h a).bind fun b => ih.bind fun bs => .refl _

theorem below_dictFields {f f' : Expr → Run Value} (h : ∀ e, Below (f e) (f' e))
    (fields : Bindings Value) (entries : List (Expr × Expr)) :
    Below (dictFields f fields entries) (dictFields f' fields entries) := by
  induction entries generalizing fields with
  | nil => exact .refl _
  | cons entry rest ih =>
    exact (h entry.1).bind fun key => (Below.refl (asKey key)).bind fun key =>
      (h entry.2).bind fun value => ih (fields.set key value)

theorem below_countedStep (var : String) (stop : Int64) {body body' : Run Flow}
    (h : Below body body') : Below (countedStep var stop body) (countedStep var stop body') := by
  refine (Below.refl (getCounter var)).bind fun i => ?_
  split
  · exact .refl _
  · refine h.bind fun flow => ?_
    cases flow with
    | next => exact .refl _
    | returned v => exact .refl _

theorem below_conditionStep {test test' : Run Value} {body body' : Run Flow}
    (htest : Below test test') (h : Below body body') :
    Below (conditionStep test body) (conditionStep test' body') := by
  refine htest.bind fun v => ?_
  split
  · exact .refl _
  · refine h.bind fun flow => ?_
    cases flow with
    | next => exact .refl _
    | returned v => exact .refl _

/-! ## Evaluation -/

section Level

variable {rounds rounds' depth depth' : Nat} (hrounds : rounds ≤ rounds')
  (heval : ∀ e, Below (evalWithin rounds depth e) (evalWithin rounds' depth' e))
  (hexec : ∀ st, Below (execWithin rounds depth st) (execWithin rounds' depth' st))

include heval hexec

theorem below_eval_succ (e : Expr) :
    Below (evalWithin rounds (depth + 1) e) (evalWithin rounds' (depth' + 1) e) := by
  cases e with
  | int | float | str | bool | nil | var | interpolation | input => exact .refl _
  | binary op lhs rhs => exact (heval lhs).bind fun v => (heval rhs).bind fun w => .refl _
  | unary op operand => exact (heval operand).bind fun v => .refl _
  | call name args =>
    refine (Below.refl (getFunction name)).bind fun f =>
      (Below.refl (checkArity name f args.length)).bind fun _ =>
        (below_mapAll heval args).bind fun values => ?_
    exact ((below_forEach hexec f.body).inFrame _).bind fun flow => .refl _
  | array items | tuple items => exact (below_mapAll heval items).bind fun values => .refl _
  | dict entries => exact (below_dictFields heval [] entries).bind fun fields => .refl _
  | index target position =>
    exact (heval target).bind fun v => (heval position).bind fun w => .refl _

include hrounds

theorem below_exec_succ (st : Stmt) :
    Below (execWithin rounds (depth + 1) st) (execWithin rounds' (depth' + 1) st) := by
  cases st with
  | print e | decl name e | ret e | expr e => exact (heval e).bind fun v => .refl _
  | func | enum | tryCatch | throw => exact .refl _
  | cond test thenBody elseBody =>
    refine (heval test).bind fun v => ?_
    split
    · exact below_forEach hexec thenBody
    · exact below_forEach hexec _
  | loop var range body =>
    have hbody := below_forEach hexec body
    cases range with
    | counted start stop =>
      refine (heval start).bind fun v => (Below.refl (asBound .loopStart v)).bind fun i =>
        (Below.refl (setVar var (.int i))).bind fun _ => (heval stop).bind fun w =>
          (Below.refl (asBound .loopEnd w)).bind fun j => ?_
      exact below_repeated (below_countedStep var j hbody) hrounds
    | collection items =>
      refine (heval items).bind fun v => (Below.refl (lift (Value.elements? v))).bind fun items => ?_
      exact below_forEach (fun item => (Below.refl (setVar var item)).bind fun _ => hbody) items
    | condition test => exact below_repeated (below_conditionStep (heval test) hbody) hrounds

end Level

theorem below_within {rounds rounds' : Nat} (hrounds : rounds ≤ rounds') {depth depth' : Nat}
    (hdepth : depth ≤ depth') :
    (∀ e, Below (evalWithin rounds depth e) (evalWithin rounds' depth' e)) ∧
      ∀ st, Below (execWithin rounds depth st) (execWithin rounds' depth' st) := by
  induction depth generalizing depth' with
  | zero => exact ⟨fun _ => .cutShort _, fun _ => .cutShort _⟩
  | succ depth ih =>
    obtain ⟨n, rfl⟩ : ∃ n, depth' = n + 1 := ⟨depth' - 1, by omega⟩
    obtain ⟨heval, hexec⟩ := ih (Nat.le_of_succ_le_succ hdepth)
    exact ⟨below_eval_succ heval hexec, below_exec_succ hrounds heval hexec⟩

/-! ## Enough fuel -/

section

variable {fuel fuel' : Fuel} (h : fuel ≤ fuel')

include h

theorem below_eval (e : Expr) : Below (eval fuel e) (eval fuel' e) := (below_within h.2 h.1).1 e

theorem below_exec (st : Stmt) : Below (exec fuel st) (exec fuel' st) := (below_within h.2 h.1).2 st

theorem below_block (body : List Stmt) :
    Below (forEach (exec fuel) body) (forEach (exec fuel') body) :=
  below_forEach (below_exec h) body

end

/-- With enough fuel, `e` has the value `v`, and `s'` is the state after it. -/
def Evaluates (e : Expr) (s : State) (v : Value) (s' : State) : Prop :=
  ∃ fuel, eval fuel e s = .done v s'

/-- With enough fuel, the statements are executed to the last, and `s'` is the state after it. -/
def Finishes (body : List Stmt) (s s' : State) : Prop :=
  ∃ fuel, forEach (exec fuel) body s = .done .next s'

theorem Finishes.unique {body : List Stmt} {s s₁ s₂ : State} (h₁ : Finishes body s s₁)
    (h₂ : Finishes body s s₂) : s₁ = s₂ := by
  obtain ⟨fuel₁, h₁⟩ := h₁
  obtain ⟨fuel₂, h₂⟩ := h₂
  obtain ⟨fuel, hle₁, hle₂⟩ := Fuel.exists_ge fuel₁ fuel₂
  have hboth := ((below_block hle₁ body).done h₁).symm.trans ((below_block hle₂ body).done h₂)
  cases hboth
  rfl

/-! ## Programs -/

theorem below_program {fuel fuel' : Fuel} (hrounds : fuel.rounds ≤ fuel'.rounds)
    (hdepth : fuel.depth ≤ fuel'.depth) (p : Program) :
    Below (program fuel p) (program fuel' p) := by
  have htop (st : Stmt) : Below (execTop fuel st) (execTop fuel' st) := by
    cases st with
    | func => exact .refl _
    | _ => exact (below_within hrounds hdepth).2 _
  refine (Below.refl (mapAll declare p.statements)).bind fun _ =>
    (below_forEach htop p.statements).bind fun flow => ?_
  cases flow with
  | next => exact .refl _
  | returned v => exact .refl _

/-- A program comes to one end, with whatever fuel it comes to an end. -/
theorem program_unique (p : Program) (s : State) (fuel fuel' : Fuel)
    (h : program fuel p s ≠ .outOfFuel) (h' : program fuel' p s ≠ .outOfFuel) :
    program fuel p s = program fuel' p s := by
  obtain ⟨both, hle, hle'⟩ := Fuel.exists_ge fuel fuel'
  have hleft : Below (program fuel p) (program both p) := below_program hle.2 hle.1 p
  have hright : Below (program fuel' p) (program both p) := below_program hle'.2 hle'.1 p
  exact ((hleft s).resolve_left h).trans ((hright s).resolve_left h').symm

end Run

end Armature
