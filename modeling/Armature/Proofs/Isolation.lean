import Armature.Proofs.Evaluation

/-!
# Calls see nothing of their caller

What a call comes to is settled by the tables of functions and enums and by its arguments. Two runs
from states that differ in their frames are compared step by step: inside a call both see the same
variables, and when the call is over each goes on with its own.
-/

namespace Armature

namespace Expr

mutual

/-- Reads no variable. -/
def closed : Expr → Bool
  | int _ | float _ | str _ | bool _ | nil | input _ => true
  | var _ => false
  | binary _ lhs rhs => lhs.closed && rhs.closed
  | unary _ operand => operand.closed
  | call _ args => allClosed args
  | array items | tuple items => allClosed items
  | dict entries => allEntriesClosed entries
  | index target position => target.closed && position.closed
  | interpolation parts => parts.all fun
    | .text _ => true
    | .var _ => false

def allClosed : List Expr → Bool
  | [] => true
  | e :: rest => e.closed && allClosed rest

def allEntriesClosed : List (Expr × Expr) → Bool
  | [] => true
  | (key, value) :: rest => key.closed && value.closed && allEntriesClosed rest

end

theorem allClosed_iff (items : List Expr) :
    allClosed items = true ↔ ∀ e ∈ items, e.closed = true := by
  induction items with
  | nil => simp [allClosed]
  | cons e rest ih => simp [allClosed, ih]

theorem allEntriesClosed_iff (entries : List (Expr × Expr)) :
    allEntriesClosed entries = true ↔
      ∀ entry ∈ entries, entry.1.closed = true ∧ entry.2.closed = true := by
  induction entries with
  | nil => simp [allEntriesClosed]
  | cons entry rest ih => simp [allEntriesClosed, ih]

end Expr

/-! ## Two states -/

/-- Both tables bind the same names to the same things. -/
def Bindings.Same {α : Type} (b b' : Bindings α) : Prop := ∀ name, b.get? name = b'.get? name

theorem Bindings.Same.set {α : Type} {b b' : Bindings α} (h : b.Same b') (name : String) (a : α) :
    (b.set name a).Same (b'.set name a) := by
  intro other
  by_cases hname : name = other
  · subst hname
    rw [get?_set_self, get?_set_self]
  · rw [get?_set_of_ne b a hname, get?_set_of_ne b' a hname]
    exact h other

/-- The states may differ in their frames only. -/
structure State.SameTables (s s' : State) : Prop where
  functions : s.functions.Same s'.functions
  enums : s.enums.Same s'.enums
  output : s.output = s'.output

/-- The states may differ in the frames of the callers only. -/
structure State.SameView (s s' : State) : Prop extends State.SameTables s s' where
  locals : s.locals = s'.locals

/-- Both runs end in the same way, with the same value or error and in states that are related. -/
inductive Outcome.Matches {α : Type} (R : State → State → Prop) : Outcome α → Outcome α → Prop
  | done {a : α} {s s' : State} : R s s' → Matches R (.done a s) (.done a s')
  | failed {e : RuntimeError} {s s' : State} : R s s' → Matches R (.failed e s) (.failed e s')
  | outOfFuel : Matches R .outOfFuel .outOfFuel

namespace Run

variable {α β : Type} {R : State → State → Prop}

/-- From two related states, the runs end in the same way. -/
def Respects (R : State → State → Prop) (x : Run α) : Prop :=
  ∀ s s', R s s' → (x s).Matches R (x s')

/-! ## One step -/

theorem respects_pure (a : α) : Respects R (pure a : Run α) := fun _ _ h => .done h

theorem respects_fail (e : RuntimeError) : Respects R (fail e : Run α) := fun _ _ h => .failed h

theorem respects_cutShort : Respects R (cutShort : Run α) := fun _ _ _ => .outOfFuel

theorem respects_update {f : State → State} (h : ∀ s s', R s s' → R (f s) (f s')) :
    Respects R (update f) := fun s s' hs => .done (h s s' hs)

theorem Respects.bind {x : Run α} {f : α → Run β} (hx : Respects R x)
    (hf : ∀ a, Respects R (f a)) : Respects R (x >>= f) := by
  intro s s' h
  change (Run.bind x f s).Matches R (Run.bind x f s')
  unfold Run.bind
  have hends := hx s s' h
  generalize x s = y, x s' = y' at hends
  cases hends with
  | done h₁ => exact hf _ _ _ h₁
  | failed h₁ => exact .failed h₁
  | outOfFuel => exact .outOfFuel

theorem respects_lift (x : Except RuntimeError α) : Respects R (lift x) := by
  cases x with
  | ok a => exact respects_pure a
  | error e => exact respects_fail e

theorem respects_checkArity (name : String) (f : Function) (given : Nat) :
    Respects R (checkArity name f given) := by
  unfold checkArity
  split
  · exact respects_pure ()
  · exact respects_fail _

theorem respects_asKey (v : Value) : Respects R (asKey v) := by
  cases v with
  | str key => exact respects_pure key
  | _ => exact respects_fail _

theorem respects_asBound (error : Kind → RuntimeError) (v : Value) :
    Respects R (asBound error v) := by
  cases v with
  | int i => exact respects_pure i
  | _ => exact respects_fail _

theorem respects_getFunction (hR : ∀ s s', R s s' → s.SameTables s') (name : String) :
    Respects R (getFunction name) := by
  intro s s' h
  unfold getFunction
  rw [(hR s s' h).functions name]
  cases s'.functions.get? name with
  | some f => exact .done h
  | none => exact .failed h

theorem respects_getVar (name : String) : Respects State.SameView (getVar name) := by
  intro s s' h
  unfold getVar
  rw [h.locals, h.enums name]
  cases s'.locals.get? name with
  | some v => exact .done h
  | none =>
    cases s'.enums.get? name with
    | some cases => exact .done h
    | none => exact .failed h

theorem respects_getCounter (name : String) : Respects State.SameView (getCounter name) := by
  intro s s' h
  unfold getCounter
  rw [h.locals]
  split
  · exact .done h
  · exact .failed h

theorem respects_partText (part : Part) : Respects State.SameView (partText part) := by
  cases part with
  | text source => exact respects_pure _
  | var name => exact (respects_getVar name).bind fun v => respects_pure _

theorem respects_setVar (name : String) (v : Value) :
    Respects State.SameView (setVar name v) :=
  respects_update fun _ _ h => { h with locals := by rw [h.locals] }

theorem respects_printLine (text : String) : Respects State.SameView (printLine text) :=
  respects_update fun _ _ h => { h with output := by rw [h.output] }

theorem respects_setFunction (name : String) (f : Function) :
    Respects State.SameView (setFunction name f) :=
  respects_update fun _ _ h => { h with functions := h.functions.set name f }

theorem respects_setEnum (name : String) (cases : List String) :
    Respects State.SameView (setEnum name cases) :=
  respects_update fun _ _ h => { h with enums := h.enums.set name cases }

/-! ## Repetition -/

theorem respects_forEach {step : α → Run Flow} (h : ∀ a, Respects R (step a)) (items : List α) :
    Respects R (forEach step items) := by
  induction items with
  | nil => exact respects_pure _
  | cons a rest ih =>
    refine (h a).bind fun flow => ?_
    cases flow with
    | next => exact ih
    | returned v => exact respects_pure _

theorem respects_repeated {step : Run (Option Flow)} (h : Respects R step) (rounds : Nat) :
    Respects R (repeated step rounds) := by
  induction rounds with
  | zero => exact respects_cutShort
  | succ rounds ih =>
    refine h.bind fun flow => ?_
    cases flow with
    | none => exact ih
    | some flow => exact respects_pure _

theorem respects_mapAll {f : α → Run β} {items : List α} (h : ∀ a ∈ items, Respects R (f a)) :
    Respects R (mapAll f items) := by
  induction items with
  | nil => exact respects_pure _
  | cons a rest ih =>
    simp only [List.mem_cons, forall_eq_or_imp] at h
    exact h.1.bind fun b => (ih h.2).bind fun bs => respects_pure _

theorem respects_dictFields {f : Expr → Run Value} {entries : List (Expr × Expr)}
    (h : ∀ entry ∈ entries, Respects R (f entry.1) ∧ Respects R (f entry.2))
    (fields : Bindings Value) : Respects R (dictFields f fields entries) := by
  induction entries generalizing fields with
  | nil => exact respects_pure _
  | cons entry rest ih =>
    simp only [List.mem_cons, forall_eq_or_imp] at h
    exact h.1.1.bind fun key => (respects_asKey key).bind fun key =>
      h.1.2.bind fun value => ih h.2 (fields.set key value)

/-! ## Frames -/

/-- In a frame of its own, a run that sees the innermost frame only does not see the caller's. -/
theorem respects_inFrame (args : Locals) {body : Run α} (h : Respects State.SameView body) :
    Respects State.SameTables (inFrame args body) := by
  intro s s' hs
  have henter : (s.enter args).SameView (s'.enter args) := ⟨⟨hs.functions, hs.enums, hs.output⟩, rfl⟩
  have hleave (s₁ s₁' : State) (h₁ : s₁.SameView s₁') : s₁.leave.SameTables s₁'.leave := by
    obtain ⟨hf, he, ho⟩ := s₁.leave_fields
    obtain ⟨hf', he', ho'⟩ := s₁'.leave_fields
    refine ⟨?_, ?_, ?_⟩
    · rw [hf, hf']
      exact h₁.functions
    · rw [he, he']
      exact h₁.enums
    · rw [ho, ho']
      exact h₁.output
  unfold inFrame
  have hends := h _ _ henter
  generalize body (s.enter args) = y, body (s'.enter args) = y' at hends
  cases hends with
  | done h₁ => exact .done (hleave _ _ h₁)
  | failed h₁ => exact .failed (hleave _ _ h₁)
  | outOfFuel => exact .outOfFuel

theorem Respects.view {x : Run α} (h : Respects State.SameTables x)
    (hx : Relates State.SameFrames x) : Respects State.SameView x := by
  intro s s' hs
  have hview (s₁ s₁' : State) (h₁ : s₁.SameTables s₁') (hs₁ : s.SameFrames s₁)
      (hs₁' : s'.SameFrames s₁') : s₁.SameView s₁' :=
    ⟨h₁, by rw [hs₁.locals, hs₁'.locals, hs.locals]⟩
  have hleft := hx s
  have hright := hx s'
  have hends := h s s' hs.toSameTables
  generalize x s = y, x s' = y' at hends hleft hright
  cases hends with
  | done h₁ => exact .done (hview _ _ h₁ (hleft _ rfl) (hright _ rfl))
  | failed h₁ => exact .failed (hview _ _ h₁ (hleft _ rfl) (hright _ rfl))
  | outOfFuel => exact .outOfFuel

/-! ## Evaluation -/

section Level

variable {rounds depth : Nat}
  (heval : ∀ e, Respects State.SameView (evalWithin rounds depth e))
  (hexec : ∀ st, Respects State.SameView (execWithin rounds depth st))

include hexec

theorem respects_block (body : List Stmt) :
    Respects State.SameView (forEach (execWithin rounds depth) body) :=
  respects_forEach hexec body

theorem respects_call (hR : ∀ s s', R s s' → s.SameTables s')
    (hframe : ∀ {x : Run Flow}, Relates State.SameFrames x → Respects State.SameTables x →
      Respects R x) (name : String) (args : List Expr)
    (hargs : ∀ arg ∈ args, Respects R (evalWithin rounds depth arg)) :
    Respects R (evalWithin rounds (depth + 1) (.call name args)) := by
  refine (respects_getFunction hR name).bind fun f =>
    (respects_checkArity name f args.length).bind fun _ =>
      (respects_mapAll hargs).bind fun values => ?_
  have hkept := relates_block (frames_kept rounds depth).2 f.body
  have hbody := respects_inFrame (Bindings.setAll [] (f.params.zip values))
    (respects_block hexec f.body)
  exact (hframe (relates_inFrame _ _ hkept) hbody).bind fun flow => respects_pure _

include heval

theorem respects_eval_succ (e : Expr) :
    Respects State.SameView (evalWithin rounds (depth + 1) e) := by
  cases e with
  | int | float | str | bool | nil => exact respects_pure _
  | var name => exact respects_getVar name
  | binary op lhs rhs =>
    exact (heval lhs).bind fun v => (heval rhs).bind fun w => respects_lift _
  | unary op operand => exact (heval operand).bind fun v => respects_lift _
  | call name args =>
    exact respects_call hexec (fun _ _ h => h.toSameTables) (fun hx h => h.view hx) name args
      fun arg _ => heval arg
  | array items | tuple items =>
    exact (respects_mapAll fun e _ => heval e).bind fun values => respects_pure _
  | dict entries =>
    exact (respects_dictFields (fun entry _ => ⟨heval entry.1, heval entry.2⟩) []).bind
      fun fields => respects_pure _
  | index target position =>
    exact (heval target).bind fun v => (heval position).bind fun w => respects_lift _
  | interpolation parts =>
    exact (respects_mapAll fun part _ => respects_partText part).bind fun texts => respects_pure _
  | input => exact respects_fail _

theorem respects_loop (var : String) (range : Range) (body : List Stmt) :
    Respects State.SameView (execWithin rounds (depth + 1) (.loop var range body)) := by
  have hbody := respects_block hexec body
  cases range with
  | counted start stop =>
    refine (heval start).bind fun v => (respects_asBound .loopStart v).bind fun i =>
      (respects_setVar var (.int i)).bind fun _ => (heval stop).bind fun w =>
        (respects_asBound .loopEnd w).bind fun j => respects_repeated ?_ rounds
    refine (respects_getCounter var).bind fun i => ?_
    split
    · exact respects_pure _
    · refine hbody.bind fun flow => ?_
      cases flow with
      | next =>
        exact (respects_getCounter var).bind fun i => (respects_setVar var _).bind fun _ =>
          respects_pure _
      | returned v => exact respects_pure _
  | collection items =>
    exact (heval items).bind fun v => (respects_lift _).bind fun items =>
      respects_forEach (fun item => (respects_setVar var item).bind fun _ => hbody) items
  | condition test =>
    refine respects_repeated ((heval test).bind fun v => ?_) rounds
    split
    · exact respects_pure _
    · refine hbody.bind fun flow => ?_
      cases flow with
      | next => exact respects_pure _
      | returned v => exact respects_pure _

theorem respects_exec_succ (st : Stmt) :
    Respects State.SameView (execWithin rounds (depth + 1) st) := by
  cases st with
  | print value =>
    exact (heval value).bind fun v => (respects_printLine _).bind fun _ => respects_pure _
  | decl name value =>
    exact (heval value).bind fun v => (respects_setVar name v).bind fun _ => respects_pure _
  | loop var range body => exact respects_loop heval hexec var range body
  | cond test thenBody elseBody =>
    refine (heval test).bind fun v => ?_
    split
    · exact respects_block hexec thenBody
    · exact respects_block hexec _
  | func name params body => exact (respects_setFunction name _).bind fun _ => respects_pure _
  | ret value => exact (heval value).bind fun v => respects_pure _
  | enum name cases => exact (respects_setEnum name cases).bind fun _ => respects_pure _
  | tryCatch | throw => exact respects_fail _
  | expr value => exact (heval value).bind fun _ => respects_pure _

end Level

theorem respects_view (rounds depth : Nat) :
    (∀ e, Respects State.SameView (evalWithin rounds depth e)) ∧
      ∀ st, Respects State.SameView (execWithin rounds depth st) := by
  induction depth with
  | zero => exact ⟨fun _ => respects_cutShort, fun _ => respects_cutShort⟩
  | succ depth ih => exact ⟨respects_eval_succ ih.1 ih.2, respects_exec_succ ih.1 ih.2⟩

theorem respects_closed (rounds depth : Nat) (e : Expr) (h : e.closed = true) :
    Respects State.SameTables (evalWithin rounds depth e) := by
  -- Calls nest in arguments, so the induction is on the depth, as the one before it.
  induction depth generalizing e with
  | zero => exact respects_cutShort
  | succ depth ih =>
    cases e with
    | int | float | str | bool | nil => exact respects_pure _
    | var name => simp [Expr.closed] at h
    | binary op lhs rhs | index lhs rhs =>
      simp only [Expr.closed, Bool.and_eq_true] at h
      exact (ih lhs h.1).bind fun v => (ih rhs h.2).bind fun w => respects_lift _
    | unary op operand => exact (ih operand h).bind fun v => respects_lift _
    | call name args =>
      exact respects_call (respects_view rounds depth).2 (fun _ _ h => h) (fun _ h => h) name args
        fun arg harg => ih arg ((Expr.allClosed_iff args).mp h arg harg)
    | array items | tuple items =>
      have hitems := (Expr.allClosed_iff items).mp h
      exact (respects_mapAll fun e he => ih e (hitems e he)).bind fun values => respects_pure _
    | dict entries =>
      have hentries := (Expr.allEntriesClosed_iff entries).mp h
      exact (respects_dictFields (fun entry he =>
        ⟨ih entry.1 (hentries entry he).1, ih entry.2 (hentries entry he).2⟩) []).bind fun fields =>
          respects_pure _
    | interpolation parts =>
      refine Respects.bind (respects_mapAll fun part hpart => ?_) fun texts => respects_pure _
      have hclosed := List.all_eq_true.mp h part hpart
      cases part with
      | text source => exact respects_pure _
      | var name => simp at hclosed
    | input => exact respects_fail _

/-- Whatever the variables of its caller are, a call whose arguments read none of them comes to the
same value or to the same error, prints the same, and leaves the same functions and enums. -/
theorem call_independent_of_frames (fuel : Fuel) (name : String) (args : List Expr)
    (hargs : ∀ arg ∈ args, arg.closed = true) (s s' : State) (h : s.SameTables s') :
    (eval fuel (.call name args) s).Matches State.SameTables (eval fuel (.call name args) s') := by
  have hclosed : (Expr.call name args).closed = true := by
    unfold Expr.closed
    exact (Expr.allClosed_iff args).mpr hargs
  exact respects_closed fuel.rounds fuel.depth _ hclosed s s' h

def successor : Function where
  params := ["n"]
  body := [.print (.var "n"), .ret (.binary .add (.var "n") (.int 1))]

/-- Both callers have a variable with the name of the parameter. -/
theorem successor_between_callers :
    (∃ s₁, eval ⟨4, 0⟩ (.call "f" [.int 41]) ⟨[("f", successor)], [], [("n", .int 1)], [], ""⟩ =
      .done (.int 42) s₁) ∧
    (eval ⟨4, 0⟩ (.call "f" [.int 41])
      ⟨[("f", successor)], [], [("n", .int 1)], [], ""⟩).Matches State.SameTables
        (eval ⟨4, 0⟩ (.call "f" [.int 41])
          ⟨[("f", successor)], [], [("n", .str "one")], [[("y", .nil)]], ""⟩) :=
  ⟨⟨_, rfl⟩, call_independent_of_frames ⟨4, 0⟩ "f" [.int 41] (by simp [Expr.closed]) _ _
    ⟨fun _ => rfl, fun _ => rfl, rfl⟩⟩

end Run

end Armature
