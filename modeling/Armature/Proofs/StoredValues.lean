import Armature.Proofs.Kinds
import Armature.Proofs.Declarations
import Armature.Proofs.Sessions

/-!
# Properties of all values

A property of values is inherited if it holds of all simple values, and is kept when a composite is
built and when one is taken apart. Such a property holds of every value that a run computes, and of
every variable that it leaves behind.
-/

namespace Armature

/-! ## Inherited properties -/

namespace Value

def isComposite : Value → Bool
  | array _ | tuple _ | dict _ => true
  | _ => false

structure Inherited (P : Value → Prop) : Prop where
  simple : ∀ v, v.isComposite = false → P v
  array : ∀ items, P (.array items) ↔ ∀ v ∈ items, P v
  tuple : ∀ items, P (.tuple items) ↔ ∀ v ∈ items, P v
  /-- A dict that is built from entries, of which later ones may replace earlier ones. -/
  dict : ∀ entries, (∀ e ∈ entries, P e.2) → P (.dict (Bindings.setAll [] entries))
  field : ∀ fields, P (.dict fields) → ∀ e ∈ fields, P e.2

theorem binary_simple {op : BinaryOp} {a b v : Value} (h : binary op a b = .ok v) :
    v.isComposite = false := by
  have hnumber (m n : Number) : (numberOp op m n).isComposite = false := by
    unfold numberOp
    split
    · cases op <;> rfl
    · cases op <;> rfl
  unfold binary at h
  split at h
  · cases h
    rfl
  · cases h
    rfl
  · unfold stringOp at h
    split at h
    · cases h
      rfl
    · cases h
      rfl
    · cases h
      rfl
    · cases h
  · split at h
    · cases h
      exact hnumber _ _
    · cases h

theorem unary_simple {op : UnaryOp} {a v : Value} (h : unary op a = .ok v) :
    v.isComposite = false := by
  unfold unary at h
  split at h
  · cases h
    rfl
  · split at h
    · cases h
      rfl
    · cases h
      rfl
    · cases h

variable {P : Value → Prop}

theorem Inherited.at? (hP : Inherited P) {target position v : Value} (htarget : P target)
    (h : Value.at? target position = .ok v) : P v := by
  unfold Value.at? at h
  split at h
  · exact (hP.array _).mp htarget v (List.mem_of_getElem? (itemAt_ok h).2)
  · exact (hP.tuple _).mp htarget v (List.mem_of_getElem? (itemAt_ok h).2)
  · split at h
    · rename_i hget
      cases h
      exact hP.field _ htarget _ (Bindings.mem_of_get? _ _ _ hget)
    · cases h
  · split at h
    · cases h
      exact hP.simple _ rfl
    · cases h
  · cases h

theorem Inherited.elements? (hP : Inherited P) {v : Value} {items : List Value} (hv : P v)
    (h : v.elements? = .ok items) : ∀ item ∈ items, P item := by
  cases v with
  | array =>
    cases h
    exact (hP.array _).mp hv
  | tuple =>
    cases h
    exact (hP.tuple _).mp hv
  | dict =>
    cases h
    intro item hitem
    obtain ⟨_, -, rfl⟩ := List.mem_map.mp hitem
    exact hP.simple _ rfl
  | str =>
    cases h
    intro item hitem
    obtain ⟨_, -, rfl⟩ := List.mem_map.mp hitem
    exact hP.simple _ rfl
  | _ => cases h

end Value

/-- A returned value has the property. -/
def Flow.All (P : Value → Prop) : Flow → Prop
  | next => True
  | returned v => P v

/-- If a round ends its loop, it is as `Flow.All` says. -/
def EndsWith (P : Value → Prop) : Option Flow → Prop
  | none => True
  | some flow => flow.All P

def Bindings.All (P : Value → Prop) (frame : Locals) : Prop :=
  ∀ name v, frame.get? name = some v → P v

/-- The variables of all open calls have the property. -/
def State.All (P : Value → Prop) (s : State) : Prop := ∀ frame ∈ s.frames, Bindings.All P frame

section

variable {P : Value → Prop}

theorem Bindings.All.set {frame : Locals} (h : All P frame) (name : String) {v : Value} (hv : P v) :
    All P (frame.set name v) := by
  intro other w hw
  by_cases heq : name = other
  · subst heq
    rw [get?_set_self] at hw
    cases hw
    exact hv
  · rw [get?_set_of_ne _ _ heq] at hw
    exact h other w hw

theorem Bindings.all_setAll {entries : List (String × Value)} (h : ∀ e ∈ entries, P e.2) :
    All P (setAll [] entries) := by
  intro name v hv
  exact h _ ((mem_of_get?_setAll hv).resolve_right nofun)

namespace State

variable {s : State}

theorem all_iff :
    s.All P ↔ Bindings.All P s.locals ∧ ∀ frame ∈ s.callers, Bindings.All P frame :=
  List.forall_mem_cons

theorem All.setVar (h : s.All P) (name : String) {v : Value} (hv : P v) :
    State.All P { s with locals := s.locals.set name v } :=
  all_iff.mpr ⟨(all_iff.mp h).1.set name hv, (all_iff.mp h).2⟩

theorem All.enter (h : s.All P) {args : Locals} (hargs : Bindings.All P args) :
    (s.enter args).All P :=
  all_iff.mpr ⟨hargs, h⟩

theorem All.leave (h : s.All P) : s.leave.All P := by
  unfold State.leave
  split
  · exact h
  · rename_i caller rest hcallers
    have hall := (all_iff.mp h).2
    rw [hcallers] at hall
    exact hall

end State

end

/-! ## Runs -/

namespace Run

variable {α β : Type} {P : Value → Prop} {Q : α → Prop} {R : β → Prop}

/-- If the variables have the property `P` before the run, they have it after it, however it ends,
and its result is as `Q` says. -/
def Keeps (P : Value → Prop) (Q : α → Prop) (x : Run α) : Prop :=
  ∀ s, s.All P → (∀ s', (x s).state? = some s' → s'.All P) ∧ ∀ a s', x s = .done a s' → Q a

theorem Keeps.done {x : Run α} (h : Keeps P Q x) {s s' : State} {a : α} (hs : s.All P)
    (hx : x s = .done a s') : Q a ∧ s'.All P :=
  ⟨(h s hs).2 a s' hx, (h s hs).1 s' (congrArg Outcome.state? hx)⟩

theorem Keeps.mono {Q' : α → Prop} {x : Run α} (h : Keeps P Q x) (hQ : ∀ a, Q a → Q' a) :
    Keeps P Q' x :=
  fun s hs => ⟨(h s hs).1, fun a s' ha => hQ a ((h s hs).2 a s' ha)⟩

theorem Keeps.still {x : Run α}
    (h : ∀ s, s.All P → (∃ a, x s = .done a s ∧ Q a) ∨ ∃ e, x s = .failed e s) : Keeps P Q x := by
  intro s hs
  rcases h s hs with ⟨a, ha, hQ⟩ | ⟨e, he⟩
  · rw [ha]
    constructor
    · intro s' hs'
      cases hs'
      exact hs
    · intro b s' hb
      cases hb
      exact hQ
  · rw [he]
    constructor
    · intro s' hs'
      cases hs'
      exact hs
    · exact nofun

theorem keeps_pure {a : α} (h : Q a) : Keeps P Q (pure a) := .still fun _ _ => .inl ⟨a, rfl, h⟩

theorem keeps_fail (e : RuntimeError) : Keeps P Q (fail e) := .still fun _ _ => .inr ⟨e, rfl⟩

theorem keeps_cutShort : Keeps P Q cutShort := fun _ _ => ⟨nofun, nofun⟩

theorem Keeps.bind {x : Run α} {f : α → Run β} (hx : Keeps P Q x)
    (hf : ∀ a, Q a → Keeps P R (f a)) : Keeps P R (x >>= f) := by
  intro s hs
  obtain ⟨hstate, hvalue⟩ := hx s hs
  change (∀ s', (Run.bind x f s).state? = some s' → _) ∧ ∀ b s', Run.bind x f s = .done b s' → _
  unfold Run.bind
  cases h : x s with
  | done a s₁ =>
    rw [h] at hstate
    exact hf a (hvalue a s₁ h) s₁ (hstate s₁ rfl)
  | failed e s₁ =>
    rw [h] at hstate
    exact ⟨hstate, nofun⟩
  | outOfFuel => exact ⟨nofun, nofun⟩

theorem keeps_update {f : State → State} {Q : Unit → Prop} (hQ : Q ())
    (h : ∀ s, s.All P → (f s).All P) : Keeps P Q (update f) := by
  intro s hs
  constructor
  · intro s' hs'
    cases hs'
    exact h s hs
  · intro a s' _
    exact hQ

theorem keeps_lift {x : Except RuntimeError α} (h : ∀ a, x = .ok a → Q a) : Keeps P Q (lift x) := by
  cases x with
  | ok a => exact keeps_pure (h a rfl)
  | error e => exact keeps_fail e

theorem keeps_setVar (name : String) {v : Value} (hv : P v) :
    Keeps P (fun _ => True) (setVar name v) :=
  keeps_update trivial fun _ hs => hs.setVar name hv

theorem keeps_getVar (hP : Value.Inherited P) (name : String) : Keeps P P (getVar name) := by
  refine .still fun s hs => ?_
  unfold getVar
  cases hv : s.locals.get? name with
  | some v => exact .inl ⟨v, rfl, (State.all_iff.mp hs).1 name v hv⟩
  | none =>
    cases s.enums.get? name with
    | some cases => exact .inl ⟨_, rfl, hP.simple _ rfl⟩
    | none => exact .inr ⟨_, rfl⟩

theorem keeps_getCounter (name : String) : Keeps P (fun _ => True) (getCounter name) := by
  refine .still fun s _ => ?_
  unfold getCounter
  split
  · exact .inl ⟨_, rfl, trivial⟩
  · exact .inr ⟨_, rfl⟩

theorem keeps_asBound (error : Kind → RuntimeError) (v : Value) :
    Keeps P (fun _ => True) (asBound error v) := by
  cases v with
  | int i => exact keeps_pure trivial
  | _ => exact keeps_fail _

theorem keeps_forEach (step : α → Run Flow) (items : List α)
    (h : ∀ a ∈ items, Keeps P (Flow.All P) (step a)) :
    Keeps P (Flow.All P) (forEach step items) := by
  induction items with
  | nil => exact keeps_pure trivial
  | cons a rest ih =>
    rw [List.forall_mem_cons] at h
    refine h.1.bind fun flow hflow => ?_
    cases flow with
    | next => exact ih h.2
    | returned v => exact keeps_pure hflow

theorem keeps_repeated {step : Run (Option Flow)} (h : Keeps P (EndsWith P) step) (rounds : Nat) :
    Keeps P (Flow.All P) (repeated step rounds) := by
  induction rounds with
  | zero => exact keeps_cutShort
  | succ rounds ih =>
    refine h.bind fun r hr => ?_
    cases r with
    | none => exact ih
    | some flow => exact keeps_pure hr

theorem keeps_countedStep (hP : Value.Inherited P) (var : String) (stop : Int64) {body : Run Flow}
    (h : Keeps P (Flow.All P) body) : Keeps P (EndsWith P) (countedStep var stop body) := by
  refine (keeps_getCounter var).bind fun i _ => ?_
  split
  · exact keeps_pure (a := some Flow.next) trivial
  · refine h.bind fun flow hflow => ?_
    cases flow with
    | returned v => exact keeps_pure (a := some (Flow.returned v)) hflow
    | next =>
      exact (keeps_getCounter var).bind fun i _ =>
        (keeps_setVar var (hP.simple (.int _) rfl)).bind fun _ _ => keeps_pure (a := none) trivial

theorem keeps_conditionStep {test : Run Value} {body : Run Flow} (htest : Keeps P P test)
    (h : Keeps P (Flow.All P) body) : Keeps P (EndsWith P) (conditionStep test body) := by
  refine htest.bind fun v _ => ?_
  split
  · exact keeps_pure (a := some Flow.next) trivial
  · refine h.bind fun flow hflow => ?_
    cases flow with
    | returned v => exact keeps_pure (a := some (Flow.returned v)) hflow
    | next => exact keeps_pure (a := none) trivial

theorem keeps_mapAll (f : α → Run β) (items : List α) (h : ∀ a ∈ items, Keeps P R (f a)) :
    Keeps P (fun bs => ∀ b ∈ bs, R b) (mapAll f items) := by
  induction items with
  | nil => exact keeps_pure nofun
  | cons a rest ih =>
    rw [List.forall_mem_cons] at h
    exact h.1.bind fun b hb => (ih h.2).bind fun bs hbs =>
      keeps_pure (List.forall_mem_cons.mpr ⟨hb, hbs⟩)

theorem keeps_dictFields (f : Expr → Run Value) (given : Bindings Value)
    (entries : List (Expr × Expr)) (h : ∀ e ∈ entries, Keeps P P (f e.1) ∧ Keeps P P (f e.2)) :
    Keeps P (fun fields => ∃ pairs, (∀ e ∈ pairs, P e.2) ∧ fields = given.setAll pairs)
      (dictFields f given entries) := by
  induction entries generalizing given with
  | nil => exact keeps_pure ⟨[], nofun, rfl⟩
  | cons entry rest ih =>
    rw [List.forall_mem_cons] at h
    refine h.1.1.bind fun key _ => ?_
    cases key with
    | str key =>
      refine h.1.2.bind fun value hvalue => ?_
      refine (ih (given.set key value) h.2).mono ?_
      rintro fields ⟨pairs, hpairs, rfl⟩
      exact ⟨(key, value) :: pairs, List.forall_mem_cons.mpr ⟨hvalue, hpairs⟩, rfl⟩
    | _ => exact keeps_fail _

theorem keeps_inFrame {args : Locals} {body : Run α} (hargs : Bindings.All P args)
    (h : Keeps P Q body) : Keeps P Q (inFrame args body) := by
  intro s hs
  obtain ⟨hstate, hvalue⟩ := h (s.enter args) (hs.enter hargs)
  unfold inFrame
  cases hbody : body (s.enter args) with
  | done a s₁ =>
    rw [hbody] at hstate
    constructor
    · intro s' hs'
      cases hs'
      exact (hstate s₁ rfl).leave
    · intro b s' hb
      cases hb
      exact hvalue a s₁ hbody
  | failed e s₁ =>
    rw [hbody] at hstate
    constructor
    · intro s' hs'
      cases hs'
      exact (hstate s₁ rfl).leave
    · exact nofun
  | outOfFuel => exact ⟨nofun, nofun⟩

/-! ## Evaluation -/

section Level

variable {rounds depth : Nat} (hP : Value.Inherited P)
  (heval : ∀ e, Keeps P P (evalWithin rounds depth e))
  (hexec : ∀ st, Keeps P (Flow.All P) (execWithin rounds depth st))

include hexec in
theorem keeps_block (body : List Stmt) :
    Keeps P (Flow.All P) (forEach (execWithin rounds depth) body) :=
  keeps_forEach _ body fun st _ => hexec st

include hP heval hexec

theorem keeps_eval_succ (e : Expr) : Keeps P P (evalWithin rounds (depth + 1) e) := by
  have hmapAll (items : List Expr) := keeps_mapAll _ items fun e _ => heval e
  cases e with
  | int | float | str | bool | nil => exact keeps_pure (hP.simple _ rfl)
  | var name => exact keeps_getVar hP name
  | binary op lhs rhs =>
    exact (heval lhs).bind fun a _ => (heval rhs).bind fun b _ =>
      keeps_lift fun v hv => hP.simple v (Value.binary_simple hv)
  | unary op operand =>
    exact (heval operand).bind fun a _ => keeps_lift fun v hv => hP.simple v (Value.unary_simple hv)
  | call name args =>
    have hfunction : Keeps P (fun _ => True) (getFunction name) := by
      refine .still fun s _ => ?_
      unfold getFunction
      cases s.functions.get? name with
      | some f => exact .inl ⟨f, rfl, trivial⟩
      | none => exact .inr ⟨_, rfl⟩
    have harity (f : Function) : Keeps P (fun _ => True) (checkArity name f args.length) := by
      unfold checkArity
      split
      · exact keeps_pure trivial
      · exact keeps_fail _
    refine hfunction.bind fun f _ => (harity f).bind fun _ _ => (hmapAll args).bind fun vs hvs => ?_
    have hargs : Bindings.All P (Bindings.setAll [] (f.params.zip vs)) :=
      Bindings.all_setAll fun e he => hvs e.2 (List.of_mem_zip he).2
    refine (keeps_inFrame hargs (keeps_block hexec f.body)).bind fun flow hflow => keeps_pure ?_
    cases flow with
    | next => exact hP.simple _ rfl
    | returned v => exact hflow
  | array items => exact (hmapAll items).bind fun vs hvs => keeps_pure ((hP.array vs).mpr hvs)
  | tuple items => exact (hmapAll items).bind fun vs hvs => keeps_pure ((hP.tuple vs).mpr hvs)
  | dict entries =>
    refine (keeps_dictFields _ [] entries fun e _ => ⟨heval e.1, heval e.2⟩).bind ?_
    rintro _ ⟨pairs, hpairs, rfl⟩
    exact keeps_pure (hP.dict pairs hpairs)
  | index target position =>
    exact (heval target).bind fun a ha => (heval position).bind fun b _ =>
      keeps_lift fun v hv => hP.at? ha hv
  | interpolation parts =>
    have hpart (part : Part) : Keeps P (fun _ => True) (partText part) := by
      cases part with
      | text source => exact keeps_pure trivial
      | var name => exact (keeps_getVar hP name).bind fun v _ => keeps_pure trivial
    exact (keeps_mapAll _ parts fun part _ => hpart part).bind fun ts _ =>
      keeps_pure (hP.simple _ rfl)
  | input => exact keeps_fail _

theorem keeps_exec_succ (st : Stmt) :
    Keeps P (Flow.All P) (execWithin rounds (depth + 1) st) := by
  have hnext : Keeps P (Flow.All P) (pure .next) := keeps_pure trivial
  cases st with
  | print value =>
    have hprint (text : String) : Keeps P (fun _ => True) (printLine text) :=
      keeps_update trivial fun _ hs => hs
    exact (heval value).bind fun v _ => (hprint v.text).bind fun _ _ => hnext
  | decl name value =>
    exact (heval value).bind fun v hv => (keeps_setVar name hv).bind fun _ _ => hnext
  | loop var range body =>
    have hbody := keeps_block hexec body
    cases range with
    | counted start stop =>
      exact (heval start).bind fun a _ => (keeps_asBound _ a).bind fun i _ =>
        (keeps_setVar var (hP.simple (.int i) rfl)).bind fun _ _ => (heval stop).bind fun b _ =>
        (keeps_asBound _ b).bind fun j _ => keeps_repeated (keeps_countedStep hP var j hbody) rounds
    | collection items =>
      refine (heval items).bind fun v hv =>
        (keeps_lift fun vs hvs => hP.elements? hv hvs).bind fun vs hvs => ?_
      exact keeps_forEach _ vs fun item hitem =>
        (keeps_setVar var (hvs item hitem)).bind fun _ _ => hbody
    | condition test => exact keeps_repeated (keeps_conditionStep (heval test) hbody) rounds
  | cond test thenBody elseBody =>
    refine (heval test).bind fun v _ => ?_
    split
    · exact keeps_block hexec thenBody
    · exact keeps_block hexec _
  | func name params body =>
    have hset (f : Function) : Keeps P (fun _ => True) (setFunction name f) :=
      keeps_update trivial fun _ hs => hs
    exact (hset _).bind fun _ _ => hnext
  | enum name cases =>
    have hset : Keeps P (fun _ => True) (setEnum name cases) :=
      keeps_update trivial fun _ hs => hs
    exact hset.bind fun _ _ => hnext
  | ret value => exact (heval value).bind fun v hv => keeps_pure hv
  | tryCatch | throw => exact keeps_fail _
  | expr value => exact (heval value).bind fun _ _ => hnext

end Level

theorem keeps_within (hP : Value.Inherited P) (rounds depth : Nat) :
    (∀ e, Keeps P P (evalWithin rounds depth e)) ∧
      ∀ st, Keeps P (Flow.All P) (execWithin rounds depth st) := by
  induction depth with
  | zero => exact ⟨fun _ => keeps_cutShort, fun _ => keeps_cutShort⟩
  | succ depth ih => exact ⟨keeps_eval_succ hP ih.1 ih.2, keeps_exec_succ hP ih.1 ih.2⟩

end Run

end Armature
