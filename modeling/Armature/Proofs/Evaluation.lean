import Armature.Eval.Run

/-!
# Finished runs

What can be said of a run that came to its end, step by step, and which frames it leaves as they
were.
-/

namespace Armature.Run

variable {α β : Type}

/-! ## Steps that are done -/

theorem bind_done (x : Run α) (f : α → Run β) (b : β) (s s' : State) :
    (x >>= f) s = .done b s' ↔ ∃ a s₁, x s = .done a s₁ ∧ f a s₁ = .done b s' := by
  change Run.bind x f s = _ ↔ _
  unfold Run.bind
  cases x s with
  | done a s₁ =>
    constructor
    · intro h
      exact ⟨a, s₁, rfl, h⟩
    · rintro ⟨_, _, h, hf⟩
      cases h
      exact hf
  | failed e s₁ => simp
  | outOfFuel => simp

theorem pure_done (a b : α) (s s' : State) :
    (pure a : Run α) s = .done b s' ↔ a = b ∧ s = s' := by
  change Outcome.done a s = _ ↔ _
  simp

theorem fail_done (e : RuntimeError) (a : α) (s s' : State) :
    (fail e : Run α) s = .done a s' ↔ False := by
  simp [fail]

theorem lift_done (x : Except RuntimeError α) (a : α) (s s' : State) :
    lift x s = .done a s' ↔ x = .ok a ∧ s = s' := by
  cases x with
  | ok b => simp [lift, pure_done]
  | error e => simp [lift, fail_done]

theorem setVar_done (name : String) (v : Value) (a : Unit) (s s' : State) :
    setVar name v s = .done a s' ↔ { s with locals := s.locals.set name v } = s' := by
  simp [setVar, update]

theorem setEnum_done (name : String) (cases : List String) (a : Unit) (s s' : State) :
    setEnum name cases s = .done a s' ↔ { s with enums := s.enums.set name cases } = s' := by
  simp [setEnum, update]

theorem printLine_done (text : String) (a : Unit) (s s' : State) :
    printLine text s = .done a s' ↔ { s with output := s.output ++ text ++ "\n" } = s' := by
  simp [printLine, update]

theorem getVar_done (name : String) (v : Value) (s s' : State) :
    getVar name s = .done v s' ↔ s = s' ∧ (s.locals.get? name = some v ∨
      s.locals.get? name = none ∧ ∃ cases, s.enums.get? name = some cases ∧
        v = .enum name cases) := by
  unfold getVar
  cases s.locals.get? name with
  | some w => simp [and_comm]
  | none =>
    cases s.enums.get? name with
    | some cases => simp [and_comm, eq_comm]
    | none => simp

theorem getFunction_done (name : String) (f : Function) (s s' : State) :
    getFunction name s = .done f s' ↔ s.functions.get? name = some f ∧ s = s' := by
  unfold getFunction
  cases s.functions.get? name with
  | some g => simp
  | none => simp

theorem getCounter_done (name : String) (i : Int64) (s s' : State) :
    getCounter name s = .done i s' ↔ s.locals.get? name = some (.int i) ∧ s = s' := by
  unfold getCounter
  split
  · rename_i j hj
    simp [hj]
  · rename_i hne
    simp only [reduceCtorEq, false_iff]
    rintro ⟨h, -⟩
    exact hne i h

theorem inFrame_done (args : Locals) (body : Run α) (a : α) (s s' : State) :
    inFrame args body s = .done a s' ↔
      ∃ s₁, body (s.enter args) = .done a s₁ ∧ s₁.leave = s' := by
  unfold inFrame
  cases body (s.enter args) with
  | done b s₁ =>
    simp only [Outcome.done.injEq]
    constructor
    · rintro ⟨rfl, rfl⟩
      exact ⟨s₁, ⟨rfl, rfl⟩, rfl⟩
    · rintro ⟨_, ⟨rfl, rfl⟩, rfl⟩
      exact ⟨rfl, rfl⟩
  | failed e s₁ => simp
  | outOfFuel => simp

theorem checkArity_done (name : String) (f : Function) (given : Nat) (a : Unit) (s s' : State) :
    checkArity name f given s = .done a s' ↔ f.params.length = given ∧ s = s' := by
  unfold checkArity
  split
  · rename_i h
    simp [pure_done, h]
  · rename_i h
    simp [fail_done, h]

theorem asBound_done (error : Kind → RuntimeError) (v : Value) (i : Int64) (s s' : State) :
    asBound error v s = .done i s' ↔ v = .int i ∧ s = s' := by
  cases v with
  | int j => simp [asBound, pure_done]
  | _ => simp [asBound, fail_done]

theorem length_mapAll {f : α → Run β} {items : List α} {bs : List β} {s s' : State}
    (h : mapAll f items s = .done bs s') : bs.length = items.length := by
  induction items generalizing bs s with
  | nil =>
    obtain ⟨rfl, -⟩ := (pure_done _ _ _ _).mp h
    rfl
  | cons a rest ih =>
    simp only [mapAll, bind_done, pure_done] at h
    obtain ⟨b, s₁, -, bs, s₂, hrest, rfl, rfl⟩ := h
    rw [List.length_cons, List.length_cons, ih hrest]

theorem repeated_done (step : Run (Option Flow)) (rounds : Nat) (flow : Flow) (s s' : State)
    (h : repeated step (rounds + 1) s = .done flow s') :
    (∃ s₁, step s = .done none s₁ ∧ repeated step rounds s₁ = .done flow s') ∨
      step s = .done (some flow) s' := by
  simp only [repeated, bind_done] at h
  obtain ⟨r, s₁, hstep, h⟩ := h
  cases r with
  | none => exact .inl ⟨s₁, hstep, h⟩
  | some flow' =>
    obtain ⟨rfl, rfl⟩ := (pure_done _ _ _ _).mp h
    exact .inr hstep

theorem countedStep_done (var : String) (stop : Int64) (body : Run Flow) (r : Option Flow)
    (s s' : State) (h : countedStep var stop body s = .done r s') :
    ∃ i, s.locals.get? var = some (.int i) ∧
      ((stop ≤ i ∧ r = some .next ∧ s' = s) ∨
      (¬ stop ≤ i ∧ ∃ v, body s = .done (.returned v) s' ∧ r = some (.returned v)) ∨
      (¬ stop ≤ i ∧ ∃ s₁ j, body s = .done .next s₁ ∧ s₁.locals.get? var = some (.int j) ∧
        r = none ∧ s' = { s₁ with locals := s₁.locals.set var (.int (j + 1)) })) := by
  simp only [countedStep, bind_done, getCounter_done] at h
  obtain ⟨i, _, ⟨hi, rfl⟩, h⟩ := h
  refine ⟨i, hi, ?_⟩
  split at h
  · rename_i hle
    obtain ⟨rfl, rfl⟩ := (pure_done _ _ _ _).mp h
    exact .inl ⟨hle, rfl, rfl⟩
  · rename_i hlt
    rw [bind_done] at h
    obtain ⟨flow, s₁, hbody, h⟩ := h
    cases flow with
    | returned v =>
      obtain ⟨rfl, rfl⟩ := (pure_done _ _ _ _).mp h
      exact .inr (.inl ⟨hlt, v, hbody, rfl⟩)
    | next =>
      simp only [bind_done, getCounter_done, setVar_done, pure_done] at h
      obtain ⟨j, _, ⟨hj, rfl⟩, _, _, rfl, rfl, rfl⟩ := h
      exact .inr (.inr ⟨hlt, s₁, j, hbody, hj, rfl, rfl⟩)

/-! ## Statements that are done -/

section

variable {rounds depth : Nat} {flow : Flow} {s s' : State}

theorem exec_print_done {e : Expr}
    (h : execWithin rounds (depth + 1) (.print e) s = .done flow s') :
    ∃ v s₁, evalWithin rounds depth e s = .done v s₁ ∧ flow = .next ∧
      s' = { s₁ with output := s₁.output ++ v.text ++ "\n" } := by
  obtain ⟨v, s₁, hv, h⟩ := (bind_done _ _ _ _ _).mp h
  simp only [bind_done, printLine_done, pure_done] at h
  obtain ⟨_, _, rfl, rfl, rfl⟩ := h
  exact ⟨v, s₁, hv, rfl, rfl⟩

theorem exec_decl_done {name : String} {e : Expr}
    (h : execWithin rounds (depth + 1) (.decl name e) s = .done flow s') :
    ∃ v s₁, evalWithin rounds depth e s = .done v s₁ ∧ flow = .next ∧
      s' = { s₁ with locals := s₁.locals.set name v } := by
  obtain ⟨v, s₁, hv, h⟩ := (bind_done _ _ _ _ _).mp h
  simp only [bind_done, setVar_done, pure_done] at h
  obtain ⟨_, _, rfl, rfl, rfl⟩ := h
  exact ⟨v, s₁, hv, rfl, rfl⟩

theorem exec_ret_done {e : Expr} (h : execWithin rounds (depth + 1) (.ret e) s = .done flow s') :
    ∃ v, evalWithin rounds depth e s = .done v s' ∧ flow = .returned v := by
  obtain ⟨v, _, hv, h⟩ := (bind_done _ _ _ _ _).mp h
  obtain ⟨rfl, rfl⟩ := (pure_done _ _ _ _).mp h
  exact ⟨v, hv, rfl⟩

theorem exec_expr_done {e : Expr} (h : execWithin rounds (depth + 1) (.expr e) s = .done flow s') :
    ∃ v, evalWithin rounds depth e s = .done v s' ∧ flow = .next := by
  obtain ⟨v, _, hv, h⟩ := (bind_done _ _ _ _ _).mp h
  obtain ⟨rfl, rfl⟩ := (pure_done _ _ _ _).mp h
  exact ⟨v, hv, rfl⟩

theorem exec_enum_done {name : String} {cases : List String}
    (h : execWithin rounds (depth + 1) (.enum name cases) s = .done flow s') :
    flow = .next ∧ s' = { s with enums := s.enums.set name cases } := by
  obtain ⟨_, _, hset, h⟩ := (bind_done _ _ _ _ _).mp h
  obtain rfl := (setEnum_done _ _ _ _ _).mp hset
  obtain ⟨rfl, rfl⟩ := (pure_done _ _ _ _).mp h
  exact ⟨rfl, rfl⟩

/-- The end of a counted loop is computed after its variable has been set. -/
theorem exec_loop_done {name : String} {start stop : Expr} {body : List Stmt}
    (h : execWithin rounds (depth + 1) (.loop name (.counted start stop) body) s =
      .done flow s') :
    ∃ i s₁ j s₂, evalWithin rounds depth start s = .done (.int i) s₁ ∧
      evalWithin rounds depth stop { s₁ with locals := s₁.locals.set name (.int i) } =
        .done (.int j) s₂ ∧
      repeated (countedStep name j (forEach (execWithin rounds depth) body)) rounds s₂ =
        .done flow s' := by
  obtain ⟨v, s₁, hv, h⟩ := (bind_done _ _ _ _ _).mp h
  simp only [bind_done, asBound_done, setVar_done] at h
  obtain ⟨i, _, ⟨rfl, rfl⟩, _, _, rfl, _, s₂, hw, j, _, ⟨rfl, rfl⟩, h⟩ := h
  exact ⟨i, s₁, j, s₂, hv, hw, h⟩

theorem exec_cond_done {test : Expr} {thenBody : List Stmt} {elseBody : Option (List Stmt)}
    (h : execWithin rounds (depth + 1) (.cond test thenBody elseBody) s = .done flow s') :
    ∃ v s₁, evalWithin rounds depth test s = .done v s₁ ∧
      (if v.truthy then forEach (execWithin rounds depth) thenBody
        else forEach (execWithin rounds depth) (elseBody.getD [])) s₁ = .done flow s' :=
  (bind_done _ _ _ _ _).mp h

end

end Armature.Run

namespace Armature

/-! ## Frames -/

/-- The state that a run ended in. -/
def Outcome.state? {α : Type} : Outcome α → Option State
  | done _ s | failed _ s => some s
  | outOfFuel => none

theorem State.leave_fields (s : State) :
    s.leave.functions = s.functions ∧ s.leave.enums = s.enums ∧ s.leave.output = s.output := by
  unfold State.leave
  split <;> exact ⟨rfl, rfl, rfl⟩

/-- The variables that a statement binds, other than in its blocks. -/
def Stmt.binds : Stmt → List String
  | decl name _ => [name]
  | loop _ (.condition _) _ => []
  | loop var _ _ => [var]
  | _ => []

/-- The blocks that run in the frame of the statement. -/
def Stmt.blocks : Stmt → List (List Stmt)
  | loop _ _ body => [body]
  | cond _ thenBody elseBody => [thenBody, elseBody.getD []]
  | _ => []

/-- The frames are the same, and text may have been added to the output. -/
structure State.SameFrames (s s' : State) : Prop where
  locals : s'.locals = s.locals
  callers : s'.callers = s.callers
  output : ∃ text, s'.output = s.output ++ text

/-- All frames but the innermost are the same, and text may have been added to the output. -/
structure State.SameCallers (s s' : State) : Prop where
  callers : s'.callers = s.callers
  output : ∃ text, s'.output = s.output ++ text

namespace Run

variable {α β : Type} {R : State → State → Prop}

/-- However the run ends, the state after it is related to the one before. -/
def Relates (R : State → State → Prop) (x : Run α) : Prop :=
  ∀ s s', (x s).state? = some s' → R s s'

/-- A relation between states that is kept when one run follows another. -/
structure Lasting (R : State → State → Prop) : Prop where
  refl : ∀ s, R s s
  trans : ∀ s s₁ s₂, R s s₁ → R s₁ s₂ → R s s₂

theorem lasting_sameFrames : Lasting State.SameFrames where
  refl _ := ⟨rfl, rfl, "", by simp⟩
  trans := by
    rintro s s₁ s₂ ⟨hl, hc, t, ht⟩ ⟨hl', hc', t', ht'⟩
    exact ⟨hl'.trans hl, hc'.trans hc, t ++ t', by rw [ht', ht, String.append_assoc]⟩

theorem lasting_sameCallers : Lasting State.SameCallers where
  refl _ := ⟨rfl, "", by simp⟩
  trans := by
    rintro s s₁ s₂ ⟨hc, t, ht⟩ ⟨hc', t', ht'⟩
    exact ⟨hc'.trans hc, t ++ t', by rw [ht', ht, String.append_assoc]⟩

theorem Relates.mono {S : State → State → Prop} {x : Run α} (h : Relates R x)
    (hRS : ∀ s s', R s s' → S s s') : Relates S x :=
  fun s s' hs => hRS s s' (h s s' hs)

theorem Relates.still (hR : Lasting R) {x : Run α}
    (h : ∀ s, (∃ a, x s = .done a s) ∨ ∃ e, x s = .failed e s) : Relates R x := by
  intro s s' hs
  rcases h s with ⟨a, ha⟩ | ⟨e, he⟩
  · rw [ha] at hs
    cases hs
    exact hR.refl s
  · rw [he] at hs
    cases hs
    exact hR.refl s

theorem relates_pure (hR : Lasting R) (a : α) : Relates R (pure a : Run α) :=
  .still hR fun _ => .inl ⟨a, rfl⟩

theorem relates_fail (hR : Lasting R) (e : RuntimeError) : Relates R (fail e : Run α) :=
  .still hR fun _ => .inr ⟨e, rfl⟩

theorem relates_cutShort : Relates R (cutShort : Run α) := by
  intro s s' hs
  cases hs

theorem Relates.bind (hR : Lasting R) {x : Run α} {f : α → Run β} (hx : Relates R x)
    (hf : ∀ a, Relates R (f a)) : Relates R (x >>= f) := by
  intro s s' hs
  change (Run.bind x f s).state? = some s' at hs
  unfold Run.bind at hs
  have hxs := hx s
  cases hx : x s with
  | done a s₁ =>
    rw [hx] at hs hxs
    exact hR.trans s s₁ s' (hxs s₁ rfl) (hf a s₁ s' hs)
  | failed e s₁ =>
    rw [hx] at hs hxs
    exact hxs s' hs
  | outOfFuel =>
    rw [hx] at hs
    cases hs

theorem relates_lift (hR : Lasting R) (x : Except RuntimeError α) : Relates R (lift x) := by
  cases x with
  | ok a => exact relates_pure hR a
  | error e => exact relates_fail hR e

theorem relates_forEach (hR : Lasting R) (step : α → Run Flow) (items : List α)
    (h : ∀ a ∈ items, Relates R (step a)) : Relates R (forEach step items) := by
  induction items with
  | nil => exact relates_pure hR _
  | cons a rest ih =>
    rw [List.forall_mem_cons] at h
    refine h.1.bind hR fun flow => ?_
    cases flow with
    | next => exact ih h.2
    | returned v => exact relates_pure hR _

theorem relates_repeated (hR : Lasting R) (step : Run (Option Flow)) (h : Relates R step)
    (rounds : Nat) : Relates R (repeated step rounds) := by
  induction rounds with
  | zero => exact relates_cutShort
  | succ rounds ih =>
    refine h.bind hR fun flow => ?_
    cases flow with
    | none => exact ih
    | some flow => exact relates_pure hR _

theorem relates_mapAll (hR : Lasting R) (f : α → Run β) (items : List α)
    (h : ∀ a ∈ items, Relates R (f a)) : Relates R (mapAll f items) := by
  induction items with
  | nil => exact relates_pure hR _
  | cons a rest ih =>
    rw [List.forall_mem_cons] at h
    exact h.1.bind hR fun b => (ih h.2).bind hR fun bs => relates_pure hR _

theorem relates_asKey (hR : Lasting R) (v : Value) : Relates R (asKey v) := by
  cases v with
  | str key => exact relates_pure hR _
  | _ => exact relates_fail hR _

theorem relates_asBound (hR : Lasting R) (error : Kind → RuntimeError) (v : Value) :
    Relates R (asBound error v) := by
  cases v with
  | int i => exact relates_pure hR _
  | _ => exact relates_fail hR _

theorem relates_dictFields (hR : Lasting R) (f : Expr → Run Value) (fields : Bindings Value)
    (entries : List (Expr × Expr))
    (h : ∀ entry ∈ entries, Relates R (f entry.1) ∧ Relates R (f entry.2)) :
    Relates R (dictFields f fields entries) := by
  induction entries generalizing fields with
  | nil => exact relates_pure hR _
  | cons entry rest ih =>
    rw [List.forall_mem_cons] at h
    exact h.1.1.bind hR fun key => (relates_asKey hR key).bind hR fun key =>
      h.1.2.bind hR fun value => ih (fields.set key value) h.2

theorem relates_getVar (hR : Lasting R) (name : String) : Relates R (getVar name) := by
  refine .still hR fun s => ?_
  unfold getVar
  cases s.locals.get? name with
  | some v => exact .inl ⟨v, rfl⟩
  | none =>
    cases s.enums.get? name with
    | some cases => exact .inl ⟨_, rfl⟩
    | none => exact .inr ⟨_, rfl⟩

theorem relates_getFunction (hR : Lasting R) (name : String) : Relates R (getFunction name) := by
  refine .still hR fun s => ?_
  unfold getFunction
  cases s.functions.get? name with
  | some f => exact .inl ⟨f, rfl⟩
  | none => exact .inr ⟨_, rfl⟩

theorem relates_getCounter (hR : Lasting R) (name : String) : Relates R (getCounter name) := by
  refine .still hR fun s => ?_
  unfold getCounter
  split
  · exact .inl ⟨_, rfl⟩
  · exact .inr ⟨_, rfl⟩

theorem relates_partText (hR : Lasting R) (part : Part) : Relates R (partText part) := by
  cases part with
  | text source => exact relates_pure hR _
  | var name => exact (relates_getVar hR name).bind hR fun v => relates_pure hR _

theorem relates_update (f : State → State) (h : ∀ s, R s (f s)) : Relates R (update f) := by
  intro s s' hs
  cases hs
  exact h s

theorem relates_inFrame (args : Locals) (body : Run α) (h : Relates State.SameCallers body) :
    Relates State.SameFrames (inFrame args body) := by
  intro s s' hs
  have hleave (s₁ : State) (hs₁ : State.SameCallers (s.enter args) s₁) :
      State.SameFrames s s₁.leave := by
    obtain ⟨hcallers, htext⟩ := hs₁
    have hcallers' : s₁.callers = s.locals :: s.callers := hcallers
    simp only [State.leave, hcallers']
    exact ⟨rfl, rfl, htext⟩
  have hbody := h (s.enter args)
  unfold inFrame at hs
  cases hx : body (s.enter args) with
  | done a s₁ =>
    rw [hx] at hs hbody
    cases hs
    exact hleave s₁ (hbody s₁ rfl)
  | failed e s₁ =>
    rw [hx] at hs hbody
    cases hs
    exact hleave s₁ (hbody s₁ rfl)
  | outOfFuel =>
    rw [hx] at hs
    cases hs

theorem sameCallers_of_sameFrames (s s' : State) (h : State.SameFrames s s') :
    State.SameCallers s s' :=
  ⟨h.callers, h.output⟩

theorem relates_exec_succ {rounds depth : Nat} (hR : Lasting R) (st : Stmt)
    (heval : ∀ e, Relates R (evalWithin rounds depth e))
    (hblocks : ∀ body ∈ st.blocks, Relates R (forEach (execWithin rounds depth) body))
    (hset : ∀ name ∈ st.binds, ∀ v, Relates R (setVar name v))
    (hprint : ∀ text, Relates R (printLine text))
    (hfunction : ∀ name f, Relates R (setFunction name f))
    (henum : ∀ name cases, Relates R (setEnum name cases)) :
    Relates R (execWithin rounds (depth + 1) st) := by
  have hnext : Relates R (pure .next : Run Flow) := relates_pure hR _
  cases st with
  | print value =>
    exact (heval value).bind hR fun v => (hprint v.text).bind hR fun _ => hnext
  | decl name value =>
    exact (heval value).bind hR fun v => (hset name List.mem_cons_self v).bind hR fun _ => hnext
  | loop var range body =>
    have hbody := hblocks body List.mem_cons_self
    cases range with
    | counted start stop =>
      have hvar := hset var List.mem_cons_self
      refine (heval start).bind hR fun a => (relates_asBound hR _ a).bind hR fun start =>
        (hvar _).bind hR fun _ => (heval stop).bind hR fun b =>
        (relates_asBound hR _ b).bind hR fun stop => relates_repeated hR _ ?_ rounds
      refine (relates_getCounter hR var).bind hR fun i => ?_
      split
      · exact relates_pure hR _
      · refine hbody.bind hR fun flow => ?_
        cases flow with
        | next =>
          exact (relates_getCounter hR var).bind hR fun i => (hvar _).bind hR fun _ =>
            relates_pure hR _
        | returned v => exact relates_pure hR _
    | collection items =>
      have hvar := hset var List.mem_cons_self
      exact (heval items).bind hR fun v => (relates_lift hR _).bind hR fun items =>
        relates_forEach hR _ items fun item _ => (hvar item).bind hR fun _ => hbody
    | condition test =>
      refine relates_repeated hR _ ((heval test).bind hR fun v => ?_) rounds
      split
      · exact relates_pure hR _
      · refine hbody.bind hR fun flow => ?_
        cases flow with
        | next => exact relates_pure hR _
        | returned v => exact relates_pure hR _
  | cond test thenBody elseBody =>
    refine (heval test).bind hR fun v => ?_
    split
    · exact hblocks thenBody List.mem_cons_self
    · exact hblocks _ (List.mem_cons_of_mem _ List.mem_cons_self)
  | func name params body => exact (hfunction name _).bind hR fun _ => hnext
  | ret value => exact (heval value).bind hR fun v => relates_pure hR _
  | enum name cases => exact (henum name cases).bind hR fun _ => hnext
  | tryCatch | throw => exact relates_fail hR _
  | expr value => exact (heval value).bind hR fun _ => hnext

section Steps

variable {rounds depth : Nat}
  (heval : ∀ e, Relates State.SameFrames (evalWithin rounds depth e))
  (hexec : ∀ st, Relates State.SameCallers (execWithin rounds depth st))

include hexec in
theorem relates_block (body : List Stmt) :
    Relates State.SameCallers (forEach (execWithin rounds depth) body) :=
  relates_forEach lasting_sameCallers _ body fun st _ => hexec st

include heval hexec in
theorem evalWithin_succ (e : Expr) :
    Relates State.SameFrames (evalWithin rounds (depth + 1) e) := by
  have hR := lasting_sameFrames
  cases e with
  | int | float | str | bool | nil => exact relates_pure hR _
  | var name => exact relates_getVar hR name
  | binary op lhs rhs =>
    exact (heval lhs).bind hR fun a => (heval rhs).bind hR fun b => relates_lift hR _
  | unary op operand => exact (heval operand).bind hR fun a => relates_lift hR _
  | call name args =>
    refine (relates_getFunction hR name).bind hR fun f => ?_
    refine Relates.bind hR ?_ fun _ => (relates_mapAll hR _ args fun e _ => heval e).bind hR fun args => ?_
    · refine .still hR fun s => ?_
      unfold checkArity
      split
      · exact .inl ⟨_, rfl⟩
      · exact .inr ⟨_, rfl⟩
    · exact (relates_inFrame _ _ (relates_block hexec f.body)).bind hR fun flow =>
        relates_pure hR _
  | array items | tuple items =>
    exact (relates_mapAll hR _ items fun e _ => heval e).bind hR fun vs => relates_pure hR _
  | dict entries =>
    exact (relates_dictFields hR _ [] entries fun entry _ => ⟨heval entry.1, heval entry.2⟩).bind hR
      fun fields => relates_pure hR _
  | index target position =>
    exact (heval target).bind hR fun a => (heval position).bind hR fun b => relates_lift hR _
  | interpolation parts =>
    exact (relates_mapAll hR _ parts fun part _ => relates_partText hR part).bind hR fun ts =>
      relates_pure hR _
  | input => exact relates_fail hR _

include heval hexec in
theorem execWithin_succ (st : Stmt) :
    Relates State.SameCallers (execWithin rounds (depth + 1) st) := by
  refine relates_exec_succ lasting_sameCallers st
    (fun e => (heval e).mono sameCallers_of_sameFrames) (fun body _ => relates_block hexec body)
    ?_ ?_ ?_ ?_
  · exact fun name _ v => relates_update _ fun _ => ⟨rfl, "", by simp⟩
  · exact fun text => relates_update _ fun s => ⟨rfl, text ++ "\n", String.append_assoc ..⟩
  · exact fun name f => relates_update _ fun _ => ⟨rfl, "", by simp⟩
  · exact fun name cases => relates_update _ fun _ => ⟨rfl, "", by simp⟩

end Steps

theorem frames_kept (rounds depth : Nat) :
    (∀ e, Relates State.SameFrames (evalWithin rounds depth e)) ∧
      ∀ st, Relates State.SameCallers (execWithin rounds depth st) := by
  induction depth with
  | zero => exact ⟨fun _ => relates_cutShort, fun _ => relates_cutShort⟩
  | succ depth ih =>
    exact ⟨evalWithin_succ ih.1 ih.2, execWithin_succ ih.1 ih.2⟩

end Run

end Armature
