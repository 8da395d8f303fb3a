import Armature.Proofs.Fuel
import Armature.Proofs.StoredValues

/-!
# Reachable states

A run is made of activities, each of which begins others: the operands of an expression, the
statements of a block, the rounds of a loop, the body of a function in a frame of its own. The state
changes only where one of them begins or ends. So the states in which they do are all that a run
comes through, whether it ends, fails or goes on for ever.
-/

namespace Armature

/-- The expressions that are evaluated first, in this order. -/
def Expr.operands : Expr → List Expr
  | unary _ operand => [operand]
  | binary _ lhs rhs => [lhs, rhs]
  | index target position => [target, position]
  | call _ items | array items | tuple items => items
  | dict entries => entries.flatMap fun entry => [entry.1, entry.2]
  | _ => []

/-- Evaluation goes on when the first operands have these values. -/
def Expr.GoesOn (s : State) (vs : List Value) : Expr → Prop
  | call name args => ∃ f, s.functions.get? name = some f ∧ f.params.length = args.length
  | dict _ => ∀ (i : Nat) v, vs[2 * i]? = some v → ∃ key, v = .str key
  | _ => True

/-- The expression that is evaluated before anything else happens. -/
def Stmt.subject? : Stmt → Option Expr
  | print e | decl _ e | ret e | expr e | cond e _ _ => some e
  | loop _ (.counted e _) _ | loop _ (.collection e) _ => some e
  | _ => none

inductive Activity where
  | eval (e : Expr)
  | exec (st : Stmt)
  | block (body : List Stmt)
  /-- A counted loop, from the check of its counter on. -/
  | counting (var : String) (stop : Int64) (body : List Stmt)
  /-- A loop over items of which these are left. -/
  | visiting (var : String) (items : List Value) (body : List Stmt)
  | repeating (test : Expr) (body : List Stmt)
  /-- The statements of a program that are left. -/
  | declaring (statements : List Stmt)
  | running (statements : List Stmt)
  | program (p : Program)

namespace Activity

open Run (Evaluates Finishes)

/-- The first activity, begun in the first state, begins the second one in the second state. -/
inductive Begins : Activity → State → Activity → State → Prop
  | operand {fuel e before operand after vs s s₁} : e.operands = before ++ operand :: after →
      Run.mapAll (Run.eval fuel) before s = .done vs s₁ → e.GoesOn s vs →
      Begins (.eval e) s (.eval operand) s₁
  | call {fuel name args f vs s s₁} : s.functions.get? name = some f →
      f.params.length = args.length → Run.mapAll (Run.eval fuel) args s = .done vs s₁ →
      Begins (.eval (.call name args)) s (.block f.body)
        (s₁.enter (Bindings.setAll [] (f.params.zip vs)))
  | subject {st e s} : st.subject? = some e → Begins (.exec st) s (.eval e) s
  | stop {var start stop body i s s₁} : Evaluates start s (.int i) s₁ →
      Begins (.exec (.loop var (.counted start stop) body)) s (.eval stop)
        { s₁ with locals := s₁.locals.set var (.int i) }
  | counting {var start stop body i j s s₁ s₂} : Evaluates start s (.int i) s₁ →
      Evaluates stop { s₁ with locals := s₁.locals.set var (.int i) } (.int j) s₂ →
      Begins (.exec (.loop var (.counted start stop) body)) s (.counting var j body) s₂
  | visiting {var collection body v items s s₁} : Evaluates collection s v s₁ →
      v.elements? = .ok items →
      Begins (.exec (.loop var (.collection collection) body)) s (.visiting var items body) s₁
  | repeating {var test body s} :
      Begins (.exec (.loop var (.condition test) body)) s (.repeating test body) s
  | branch {test thenBody elseBody v s s₁} : Evaluates test s v s₁ →
      Begins (.exec (.cond test thenBody elseBody)) s
        (.block (if v.truthy then thenBody else elseBody.getD [])) s₁
  | first {st rest s} : Begins (.block (st :: rest)) s (.exec st) s
  | rest {fuel st rest s s₁} : Run.exec fuel st s = .done .next s₁ →
      Begins (.block (st :: rest)) s (.block rest) s₁
  | count {var stop body i s} : s.locals.get? var = some (.int i) → i < stop →
      Begins (.counting var stop body) s (.block body) s
  | countOn {var stop body i j s s₁} : s.locals.get? var = some (.int i) → i < stop →
      Finishes body s s₁ → s₁.locals.get? var = some (.int j) →
      Begins (.counting var stop body) s (.counting var stop body)
        { s₁ with locals := s₁.locals.set var (.int (j + 1)) }
  | visit {var item items body s} :
      Begins (.visiting var (item :: items) body) s (.block body)
        { s with locals := s.locals.set var item }
  | visitOn {var item items body s s₁} :
      Finishes body { s with locals := s.locals.set var item } s₁ →
      Begins (.visiting var (item :: items) body) s (.visiting var items body) s₁
  | test {test body s} : Begins (.repeating test body) s (.eval test) s
  | again {test body v s s₁} : Evaluates test s v s₁ → v.truthy = true →
      Begins (.repeating test body) s (.block body) s₁
  | repeatOn {test body v s s₁ s₂} : Evaluates test s v s₁ → v.truthy = true →
      Finishes body s₁ s₂ →
      Begins (.repeating test body) s (.repeating test body) s₂
  | declare {p s} : Begins (.program p) s (.declaring p.statements) s
  | declareOn {st rest s s₁} : Run.declare st s = .done () s₁ →
      Begins (.declaring (st :: rest)) s (.declaring rest) s₁
  | run {p us s s₁} : Run.mapAll Run.declare p.statements s = .done us s₁ →
      Begins (.program p) s (.running p.statements) s₁
  | top {st rest s} : Lower.isFunction st = false → Begins (.running (st :: rest)) s (.exec st) s
  | topOn {fuel st rest s s₁} : Run.execTop fuel st s = .done .next s₁ →
      Begins (.running (st :: rest)) s (.running rest) s₁

/-- The states that an activity comes through. What fails leaves a state behind, too. -/
inductive Passes : Activity → State → State → Prop
  | start {t s} : Passes t s s
  | evaluated {fuel e s s'} : (Run.eval fuel e s).state? = some s' → Passes (.eval e) s s'
  | executed {fuel st s s'} : (Run.exec fuel st s).state? = some s' → Passes (.exec st) s s'
  | within {t s t' s₁ s'} : Begins t s t' s₁ → Passes t' s₁ s' → Passes t s s'

end Activity

namespace Session

def Step.activity : Step → Activity
  | run p => .program p
  | eval e => .eval e

/-- A session comes through the state, in a step after any others. -/
def Reachable (s : State) : Prop :=
  ∃ fuel steps s₀, after? fuel .initial steps = some s₀ ∧ ∃ step : Step, step.activity.Passes s₀ s

end Session

/-! ## Inherited properties -/

namespace Run

variable {P : Value → Prop} (hP : Value.Inherited P) {s s' : State}

include hP

theorem Evaluates.all {e : Expr} {v : Value} (h : Evaluates e s v s') (hs : s.All P) :
    P v ∧ s'.All P := by
  obtain ⟨fuel, h⟩ := h
  exact ((keeps_within hP fuel.rounds fuel.depth).1 e).done hs h

theorem mapAll_all {fuel : Fuel} {items : List Expr} {vs : List Value}
    (h : mapAll (eval fuel) items s = .done vs s') (hs : s.All P) :
    (∀ v ∈ vs, P v) ∧ s'.All P := by
  have hkeeps := keeps_mapAll (eval fuel) items fun e _ =>
    (keeps_within hP fuel.rounds fuel.depth).1 e
  exact hkeeps.done hs h

theorem Finishes.all {body : List Stmt} (h : Finishes body s s') (hs : s.All P) : s'.All P := by
  obtain ⟨fuel, h⟩ := h
  exact ((keeps_block (keeps_within hP fuel.rounds fuel.depth).2 body).done hs h).2

omit hP in
theorem keeps_declare (st : Stmt) : Keeps P (fun _ => True) (declare st) := by
  cases st with
  | func | enum => exact keeps_update trivial fun _ hs => hs
  | _ => exact keeps_pure trivial

omit hP in
theorem keeps_declareAll (statements : List Stmt) :
    Keeps P (fun _ => True) (mapAll declare statements) :=
  (keeps_mapAll declare statements fun st _ => keeps_declare st).mono fun _ _ => trivial

theorem keeps_execTop (fuel : Fuel) (st : Stmt) : Keeps P (Flow.All P) (execTop fuel st) := by
  cases st with
  | func => exact keeps_pure trivial
  | _ => exact (keeps_within hP fuel.rounds fuel.depth).2 _

theorem keeps_program (fuel : Fuel) (p : Program) : Keeps P (fun _ => True) (program fuel p) := by
  refine (keeps_declareAll p.statements).bind fun _ _ => ?_
  refine (keeps_forEach _ p.statements fun st _ => keeps_execTop hP fuel st).bind fun flow _ => ?_
  cases flow with
  | next => exact keeps_pure trivial
  | returned v => exact keeps_fail _

end Run

namespace Activity

variable {P : Value → Prop} {t t' : Activity} {s s' : State}

/-- The values that the activity brings along have the property. -/
def All (P : Value → Prop) : Activity → Prop
  | visiting _ items _ => ∀ v ∈ items, P v
  | _ => True

theorem Begins.all (hP : Value.Inherited P) (h : Begins t s t' s') (ht : t.All P) (hs : s.All P) :
    t'.All P ∧ s'.All P := by
  have hint (i : Int64) : P (.int i) := hP.simple _ rfl
  cases h with
  | operand _ hbefore _ => exact ⟨trivial, (Run.mapAll_all hP hbefore hs).2⟩
  | call _ _ hargs =>
    obtain ⟨hvs, hs₁⟩ := Run.mapAll_all hP hargs hs
    refine ⟨trivial, hs₁.enter (Bindings.all_setAll fun e he => ?_)⟩
    exact hvs e.2 (List.of_mem_zip he).2
  | subject | repeating | first | count | test | declare | top => exact ⟨trivial, hs⟩
  | stop hstart => exact ⟨trivial, (hstart.all hP hs).2.setVar _ (hint _)⟩
  | counting hstart hstop =>
    exact ⟨trivial, (hstop.all hP ((hstart.all hP hs).2.setVar _ (hint _))).2⟩
  | visiting hcollection hitems =>
    obtain ⟨hv, hs₁⟩ := hcollection.all hP hs
    exact ⟨hP.elements? hv hitems, hs₁⟩
  | branch htest => exact ⟨trivial, (htest.all hP hs).2⟩
  | rest hexec => exact ⟨trivial, (((Run.keeps_within hP _ _).2 _).done hs hexec).2⟩
  | countOn _ _ hbody _ => exact ⟨trivial, (hbody.all hP hs).setVar _ (hint _)⟩
  | visit => exact ⟨trivial, hs.setVar _ (ht _ List.mem_cons_self)⟩
  | visitOn hbody =>
    rw [All, List.forall_mem_cons] at ht
    exact ⟨ht.2, hbody.all hP (hs.setVar _ ht.1)⟩
  | again htest => exact ⟨trivial, (htest.all hP hs).2⟩
  | repeatOn htest _ hbody => exact ⟨trivial, hbody.all hP (htest.all hP hs).2⟩
  | declareOn hdeclare => exact ⟨trivial, ((Run.keeps_declare _).done hs hdeclare).2⟩
  | run hdeclare => exact ⟨trivial, ((Run.keeps_declareAll _).done hs hdeclare).2⟩
  | topOn hexec => exact ⟨trivial, ((Run.keeps_execTop hP _ _).done hs hexec).2⟩

theorem Passes.all (hP : Value.Inherited P) (h : t.Passes s s') (ht : t.All P) (hs : s.All P) :
    s'.All P := by
  induction h with
  | start => exact hs
  | evaluated h => exact ((Run.keeps_within hP _ _).1 _ _ hs).1 _ h
  | executed h => exact ((Run.keeps_within hP _ _).2 _ _ hs).1 _ h
  | within hbegins _ ih =>
    obtain ⟨ht', hs'⟩ := hbegins.all hP ht hs
    exact ih ht' hs'

end Activity

namespace Session

variable {P : Value → Prop} {s s' : State}

theorem after_all (hP : Value.Inherited P) {fuel : Fuel} {steps : List Step}
    (h : after? fuel s steps = some s') (hs : s.All P) : s'.All P := by
  refine after_kept (fun step s₁ s₂ hs₁ hstep => ?_) h hs
  cases step with
  | run p => exact (Run.keeps_program hP fuel p s₁ hs₁).1 s₂ hstep
  | eval e => exact ((Run.keeps_within hP fuel.rounds fuel.depth).1 e s₁ hs₁).1 s₂ hstep

theorem Reachable.all (hP : Value.Inherited P) (h : Reachable s) : s.All P := by
  obtain ⟨fuel, steps, s₀, hsteps, step, hpasses⟩ := h
  have hinitial : State.initial.All P := State.all_iff.mpr ⟨nofun, nofun⟩
  refine hpasses.all hP ?_ (after_all hP hsteps hinitial)
  cases step <;> trivial

end Session

end Armature
