import Armature.Proofs.Tracking

/-!
# Frames that agree with a run

A frame agrees with the variables of a run at the end of every block whose branches and loops keep
shapes, if it did at the start. Inside a loop, the frame to agree with is the one at its end: a
variable of the body has its value from the round before, and no shape yet.
-/

namespace Armature

/-! ## States that agree with a frame -/

/-- The variables of the state agree with the frame. -/
structure State.Agrees (isEnum : String → Bool) (table : Bindings Function) (f : Frame) (s : State) :
    Prop where
  known : s.Known isEnum table
  shapes : f.Agrees s.locals

namespace Frame

theorem Agrees.set {f f' : Frame} {locals : Locals} {name : String} {v : Value} {symbol : Symbol}
    (h : f.Agrees locals)
    (hothers : ∀ other old, name ≠ other → f.lookup other = some old →
      ∃ new, f'.lookup other = some new ∧ new.shape.outline = old.shape.outline)
    (hname : f'.lookup name = some symbol) (hv : symbol.shape.admits v = true) :
    f'.Agrees (locals.set name v) := by
  intro other w hw
  by_cases heq : name = other
  · subst heq
    rw [Bindings.get?_set_self] at hw
    cases hw
    exact ⟨symbol, hname, hv⟩
  · rw [Bindings.get?_set_of_ne _ _ heq] at hw
    obtain ⟨old, hold, hadmits⟩ := h other w hw
    obtain ⟨new, hnew, houtline⟩ := hothers other old heq hold
    refine ⟨new, hnew, ?_⟩
    rw [← Shape.admits_outline, houtline, Shape.admits_outline, hadmits]

theorem Keeps.admits {f f' : Frame} {name : String} {symbol : Symbol} (h : f.Keeps f')
    (hsymbol : f.lookup name = some symbol) :
    ∃ symbol', f'.lookup name = some symbol' ∧
      ∀ v, symbol'.shape.admits v = symbol.shape.admits v := by
  obtain ⟨symbol', hsymbol', houtline⟩ := h name symbol hsymbol
  refine ⟨symbol', hsymbol', fun v => ?_⟩
  rw [← Shape.admits_outline, houtline, Shape.admits_outline]

end Frame

section

variable {isEnum : String → Bool} {table : Bindings Function} {f f' : Frame} {s s' : State}

theorem State.Agrees.tells {scope : Scope} (h : s.Agrees isEnum table f) (hf : f.Named isEnum)
    (hkeeps : scope.frame.Keeps f) : scope.Tells isEnum table s where
  known := h.known
  names := by
    intro name v hv
    obtain ⟨symbol, hsymbol, -⟩ := h.shapes name v hv
    exact hf name symbol hsymbol
  shapes := by
    intro name v symbol hv hsymbol
    obtain ⟨old, hold, hadmits⟩ := h.shapes name v hv
    obtain ⟨new, hnew, hsame⟩ := hkeeps.admits hsymbol
    rw [hold] at hnew
    cases hnew
    rw [← hsame, hadmits]

theorem Scope.Tells.set {scope : Scope} {frame : Frame} {name : String} {v : Value}
    {symbol : Symbol} (h : scope.Tells isEnum table s) (hname : isEnum name = false)
    (hlookup : ∀ other, frame.lookup other =
      if name = other then some symbol else scope.frame.lookup other)
    (hv : symbol.shape.admits v = true) :
    Scope.Tells isEnum table { scope with frame } { s with locals := s.locals.set name v } where
  known := ⟨h.known.functions, h.known.enums⟩
  names := by
    intro other w hw
    by_cases heq : name = other
    · rw [← heq, hname]
    · exact h.names other w ((Bindings.get?_set_of_ne _ _ heq).symm.trans hw)
  shapes := by
    intro other w symbol' hw hsymbol
    rw [hlookup] at hsymbol
    split at hsymbol
    · rename_i heq
      subst heq
      obtain rfl := Option.some.inj ((Bindings.get?_set_self _ _ _).symm.trans hw)
      cases hsymbol
      exact hv
    · rename_i hne
      exact h.shapes other w symbol' ((Bindings.get?_set_of_ne _ _ hne).symm.trans hw) hsymbol

theorem State.Agrees.of_keeps (h : s.Agrees isEnum table f) (hkeeps : f.Keeps f') :
    s.Agrees isEnum table f' :=
  ⟨h.known, hkeeps.agrees h.shapes⟩

theorem State.Agrees.of_locals (h : s.Agrees isEnum table f) (hknown : s'.Known isEnum table)
    (hlocals : s'.locals = s.locals) : s'.Agrees isEnum table f :=
  ⟨hknown, by rw [hlocals]; exact h.shapes⟩

end

/-! ## Lowered statements -/

section Lowered

variable (isEnum : String → Bool) (callees : Bindings Callee)

/-- The statement is lowered in a scope that tells variables from enums. -/
structure Stmt.Lowers (st : Stmt) (scope scope' : Scope) : Prop where
  code : ∃ c, Lower.stmt st scope = .ok (c, scope')
  distinct : st.distinct isEnum = true
  callees : scope.functions = callees
  named : scope.Named isEnum

/-- The block is lowered in a scope that tells variables from enums. -/
structure Stmt.AllLower (body : List Stmt) (scope scope' : Scope) : Prop where
  code : ∃ c, Lower.block body scope = .ok (c, scope')
  distinct : Stmt.allDistinct isEnum body = true
  callees : scope.functions = callees
  named : scope.Named isEnum

/-- The body of the function is lowered, and its branches and loops keep shapes. -/
def Function.Compiled (f : Function) : Prop :=
  f.distinct isEnum = true ∧ ∃ name c session session',
    Lower.function name f session = .ok (c, session') ∧ session.functions = callees ∧
    (session.enter true).Named isEnum ∧ f.steady session = true

end Lowered

namespace Stmt

variable {isEnum : String → Bool} {callees : Bindings Callee} {scope scope' : Scope}

theorem Lowers.after {st : Stmt} (h : st.Lowers isEnum callees scope scope') :
    scope'.functions = callees ∧ scope'.Named isEnum := by
  obtain ⟨c, hc⟩ := h.code
  exact ⟨(Lower.stmt_emits st c scope scope' hc).functions.trans h.callees,
    Lower.stmt_named st c scope scope' hc h.named h.distinct⟩

theorem AllLower.after {body : List Stmt} (h : AllLower isEnum callees body scope scope') :
    scope'.functions = callees ∧ scope'.Named isEnum := by
  obtain ⟨c, hc⟩ := h.code
  exact ⟨(Lower.block_emits body c scope scope' hc).functions.trans h.callees,
    Lower.block_named body c scope scope' hc h.named h.distinct⟩

theorem AllLower.cons {st : Stmt} {rest : List Stmt}
    (h : AllLower isEnum callees (st :: rest) scope scope') :
    ∃ scope₁, st.Lowers isEnum callees scope scope₁ ∧
      AllLower isEnum callees rest scope₁ scope' := by
  obtain ⟨c, hc⟩ := h.code
  obtain ⟨c₁, c₂, scope₁, h₁, h₂, -⟩ := Lower.block_cons_ok st rest c scope scope' hc
  have hdistinct := h.distinct
  rw [allDistinct, Bool.and_eq_true] at hdistinct
  have hst : st.Lowers isEnum callees scope scope₁ := ⟨⟨c₁, h₁⟩, hdistinct.1, h.callees, h.named⟩
  exact ⟨scope₁, hst, ⟨c₂, h₂⟩, hdistinct.2, hst.after.1, hst.after.2⟩

theorem Lowers.loopBody {var : String} {start stop : Expr} {body : List Stmt}
    (h : (loop var (.counted start stop) body).Lowers isEnum callees scope scope') :
    AllLower isEnum callees body (scope.inLoop var) scope' := by
  obtain ⟨c, hc⟩ := h.code
  rw [Lower.stmt] at hc
  obtain ⟨_, _, code, symbol, frame, -, hlookup, hframe, -, -, hcode⟩ := Lower.loop_body hc
  have hdistinct := h.distinct
  rw [Stmt.distinct, Bool.and_eq_true, Bool.not_eq_true'] at hdistinct
  refine ⟨⟨code, hcode⟩, hdistinct.2, h.callees, h.named.enums, ?_⟩
  intro name symbol' hsymbol
  rw [hframe] at hsymbol
  exact Lower.named_bind h.named.symbols hdistinct.1 hlookup name symbol' hsymbol

theorem Lowers.branches {looped : Bool} {test : Expr} {thenBody : List Stmt}
    {elseBody : Option (List Stmt)} {scope₁ scope₂ : Scope}
    (h : (cond test thenBody elseBody).Lowers isEnum callees scope scope')
    (hbranches : Lower.Branches looped thenBody (elseBody.getD []) (scope.labelled .otherwise)
      scope₁ scope₂ scope') :
    AllLower isEnum callees thenBody (scope.labelled .otherwise) scope₁ ∧
      AllLower isEnum callees (elseBody.getD []) scope₂ scope' := by
  have hdistinct : allDistinct isEnum thenBody = true ∧
      allDistinct isEnum (elseBody.getD []) = true := by
    have hst := h.distinct
    cases elseBody with
    | none => exact ⟨hst, rfl⟩
    | some elseBody =>
      rw [Stmt.distinct, Bool.and_eq_true] at hst
      exact hst
  have hfirst : AllLower isEnum callees thenBody (scope.labelled .otherwise) scope₁ :=
    ⟨hbranches.first, hdistinct.1, h.callees, ⟨h.named.enums, h.named.symbols⟩⟩
  obtain ⟨hcallees, hnamed⟩ := hfirst.after
  refine ⟨hfirst, hbranches.second, hdistinct.2, ?_, ?_⟩
  · rw [hbranches.between]
    exact hcallees
  · rw [hbranches.between]
    exact ⟨hnamed.enums, hnamed.symbols⟩

end Stmt

/-! ## Statements that bind nothing -/

/-- The statement binds a variable, or has statements inside it. -/
def Stmt.declares : Stmt → Bool
  | decl .. | loop .. | cond .. => true
  | _ => false

theorem Run.partText_state {parts : List Part} {texts : List String} {s s' : State}
    (h : Run.mapAll Run.partText parts s = .done texts s') : s' = s := by
  induction parts generalizing texts s with
  | nil => exact ((Run.pure_done _ _ _ _).mp h).2.symm
  | cons part rest ih =>
    simp only [Run.mapAll, Run.bind_done, Run.pure_done] at h
    obtain ⟨text, s₁, hpart, texts', s₂, hrest, -, rfl⟩ := h
    obtain rfl : s₁ = s := by
      cases part with
      | text source => exact ((Run.pure_done _ _ _ _).mp hpart).2.symm
      | var name =>
        simp only [Run.partText, Run.bind_done, Run.getVar_done, Run.pure_done] at hpart
        obtain ⟨_, _, ⟨rfl, -⟩, -, rfl⟩ := hpart
        rfl
    exact ih hrest

section Level

variable {isEnum : String → Bool} {table : Bindings Function} {callees : Bindings Callee}
  {rounds depth : Nat} {scope scope' : Scope} {s s' : State} {v : Value} {flow : Flow} {f : Frame}

theorem Lower.printElement_position {name : String} {position : Expr} {c : Asm.Code}
    (h : Lower.printElement name position scope = .ok (c, scope')) :
    (∃ w, position.literal? = some w) ∨ (∃ p, Lower.expr scope 0 position = .ok p) ∨
      ∃ p, Lower.expr scope 0 (.index (.var name) position) = .ok p := by
  simp only [Lower.printElement, Lowering.bind_ok, Lowering.get_ok] at h
  obtain ⟨_, _, ⟨rfl, rfl⟩, h⟩ := h
  have hvalue (h : Lower.printValue (.index (.var name) position) scope = .ok (c, scope')) :
      ∃ p, Lower.expr scope 0 (.index (.var name) position) = .ok p := by
    simp only [Lower.printValue, Lowering.bind_ok, Lowering.value_ok] at h
    obtain ⟨p, _, ⟨hp, -⟩, -⟩ := h
    exact ⟨p, hp⟩
  cases hview : Lower.arrayView scope name position with
  | error e => simp [hview, Lowering.fail_ok] at h
  | ok view =>
    simp only [hview] at h
    cases view with
    | some view =>
      unfold Lower.arrayView at hview
      split at hview
      · exact .inl ⟨_, rfl⟩
      · exact .inl ⟨_, rfl⟩
      · cases hview
    | none =>
      cases hshape : scope.shape? name with
      | none =>
        simp only [hshape] at h
        exact .inr (.inr (hvalue h))
      | some entry =>
        obtain ⟨slot, shape⟩ := entry
        simp only [hshape] at h
        cases shape with
        | array layout =>
          cases hinner : layout.inner with
          | none =>
            simp only [hinner] at h
            exact .inr (.inr (hvalue h))
          | some columns =>
            simp only [hinner, Lower.printRow, Lowering.bind_ok, Lowering.value_ok] at h
            obtain ⟨p, _, ⟨hp, -⟩, -⟩ := h
            exact .inr (.inl ⟨p, hp⟩)
        | _ => exact .inr (.inr (hvalue h))

section Exprs

variable (hexprs : ∀ n ≤ depth, ExprsHaveKinds isEnum table callees rounds n)
  (hcallees : scope.functions = callees) (hnamed : scope.Named isEnum)
  (hs : scope.Tells isEnum table s)

include hexprs hcallees hnamed hs

theorem eval_known {d : Nat} {e : Expr} {c : Lower.ValueCode} (hc : Lower.expr scope d e = .ok c)
    (hv : Run.evalWithin rounds depth e s = .done v s') : s'.Known isEnum table :=
  (hexprs depth (Nat.le_refl _) e scope d c s v s' hc hcallees hnamed hs hv).2

/-- A value that is printed may be a composite, which has no code as a value. -/
theorem print_known {e : Expr} {c : Asm.Code} (hc : Lower.print e scope = .ok (c, scope'))
    (hv : Run.evalWithin rounds depth e s = .done v s') : s'.Known isEnum table := by
  have hvalue (h : Lower.printValue e scope = .ok (c, scope')) : s'.Known isEnum table := by
    simp only [Lower.printValue, Lowering.bind_ok, Lowering.value_ok] at h
    obtain ⟨p, _, ⟨hp, -⟩, -⟩ := h
    exact eval_known hexprs hcallees hnamed hs hp hv
  unfold Lower.print at hc
  split at hc
  · cases depth with
    | zero => cases hv
    | succ depth =>
      simp only [Run.evalWithin, Run.bind_done, Run.pure_done] at hv
      obtain ⟨_, _, hparts, -, rfl⟩ := hv
      rw [Run.partText_state hparts]
      exact hs.known
  · obtain ⟨rfl, -⟩ := (Run.getVar_done _ _ _ _).mp (Run.eval_var hv)
    exact hs.known
  · rename_i name position
    cases depth with
    | zero => cases hv
    | succ depth =>
      have hposition := Lower.printElement_position hc
      rw [← or_assoc] at hposition
      rcases hposition with hposition | ⟨p, hp⟩
      · obtain ⟨a, s₁, b, ha, hb, -⟩ := Run.eval_index hv
        obtain ⟨rfl, -⟩ := (Run.getVar_done _ _ _ _).mp (Run.eval_var ha)
        exact ((hexprs depth (Nat.le_succ _)).position (d := 0) hcallees hnamed hs hb hposition).known
      · exact eval_known hexprs hcallees hnamed hs hp hv
  · exact hvalue hc

theorem exec_still {st : Stmt} (hst : st.Lowers isEnum callees scope scope')
    (hstill : st.declares = false)
    (hrun : Run.execWithin rounds (depth + 1) st s = .done flow s') :
    scope'.frame.symbols = scope.frame.symbols ∧ s'.Known isEnum table ∧
      s'.locals = s.locals ∧ Scalar.int.admits (Run.result flow) = true := by
  obtain ⟨c, hc⟩ := hst.code
  cases st with
  | print e =>
    rw [Lower.stmt] at hc
    obtain ⟨v, s₁, hv, rfl, rfl⟩ := Run.exec_print_done hrun
    have hknown := print_known hexprs hcallees hnamed hs hc hv
    have hlocals := Run.locals_of_eval hv
    exact ⟨(Lower.tacit_print e _ _ _ hc).1, ⟨hknown.functions, hknown.enums⟩, hlocals, rfl⟩
  | expr e =>
    simp only [Lower.stmt, Lowering.bind_ok, Lowering.value_ok, Lowering.pure_ok] at hc
    obtain ⟨value, _, ⟨hvalue, rfl⟩, -, rfl⟩ := hc
    obtain ⟨v, hv, rfl⟩ := Run.exec_expr_done hrun
    exact ⟨rfl, eval_known hexprs hcallees hnamed hs hvalue hv, Run.locals_of_eval hv, rfl⟩
  | ret e =>
    rw [Lower.stmt] at hc
    obtain ⟨_, code, -, hvalue, rfl, -⟩ := Lower.ret_ok e c scope scope' hc
    obtain ⟨v, hv, rfl⟩ := Run.exec_ret_done hrun
    obtain ⟨hint, hknown⟩ :=
      hexprs depth (Nat.le_refl _) e _ 0 _ s v _ hvalue hcallees hnamed hs hv
    exact ⟨rfl, hknown, Run.locals_of_eval hv, hint⟩
  | enum name cases =>
    cases hc
    obtain ⟨rfl, rfl⟩ := Run.exec_enum_done hrun
    refine ⟨rfl, ⟨hs.known.functions, ?_⟩, rfl, rfl⟩
    intro other cases' hcases
    by_cases heq : name = other
    · rw [← heq]
      exact hst.distinct
    · rw [Bindings.get?_set_of_ne _ _ heq] at hcases
      exact hs.known.enums other cases' hcases
  | func | tryCatch | throw =>
    rw [Lower.stmt] at hc
    cases hc
  | decl | loop | cond => cases hstill

end Exprs

/-! ## Statements that bind a variable -/

section Binding

variable (hexprs : ∀ n ≤ depth, ExprsHaveKinds isEnum table callees rounds n)
  {f' : Frame} {name : String} (hs : s.Agrees isEnum table f) (hf : f.Named isEnum)
  (hkeeps : scope.frame.Keeps f)
  (hothers : ∀ other old, name ≠ other → f.lookup other = some old →
    ∃ new, f'.lookup other = some new ∧ new.shape.outline = old.shape.outline)

include hexprs hs hf hkeeps hothers

theorem exec_decl {e : Expr} (hst : (Stmt.decl name e).Lowers isEnum callees scope scope')
    (hkeeps' : scope'.frame.Keeps f')
    (hrun : Run.execWithin rounds (depth + 1) (.decl name e) s = .done flow s') :
    s'.Agrees isEnum table f' ∧ Scalar.int.admits (Run.result flow) = true := by
  obtain ⟨c, hc⟩ := hst.code
  rw [Lower.stmt] at hc
  obtain ⟨frame, symbol, rfl, hshaped, hlookup⟩ := Lower.declare_shaped hc
  have hdistinct := hst.distinct
  rw [Stmt.distinct, Bool.and_eq_true] at hdistinct
  obtain ⟨v, s₁, hv, rfl, rfl⟩ := Run.exec_decl_done hrun
  obtain ⟨hadmits, htells⟩ := shaped_admits hexprs hst.callees hst.named (hs.tells hf hkeeps) hshaped
    hdistinct.2 hv
  have hbound : frame.lookup name = some symbol := by rw [hlookup, if_pos rfl]
  obtain ⟨symbol', hsymbol', hsame⟩ := hkeeps'.admits hbound
  refine ⟨⟨⟨htells.known.functions, htells.known.enums⟩, ?_⟩, rfl⟩
  change f'.Agrees (s₁.locals.set name v)
  rw [Run.locals_of_eval hv]
  exact hs.shapes.set hothers hsymbol' ((hsame v).trans hadmits)

theorem exec_loop {start stop : Expr} {body : List Stmt}
    (hst : (Stmt.loop name (.counted start stop) body).Lowers isEnum callees scope scope')
    (hkeeps' : (scope.inLoop name).frame.Keeps f')
    (hrun : Run.execWithin rounds (depth + 1) (.loop name (.counted start stop) body) s =
      .done flow s') :
    ∃ j s₁, s₁.Agrees isEnum table f' ∧
      (∃ symbol, f'.lookup name = some symbol ∧ ∀ i, symbol.shape.admits (.int i) = true) ∧
      Run.repeated (Run.countedStep name j (Run.forEach (Run.execWithin rounds depth) body)) rounds
        s₁ = .done flow s' := by
  obtain ⟨c, hc⟩ := hst.code
  rw [Lower.stmt] at hc
  obtain ⟨startCode, stopCode, -, symbol, frame, hshape, hlookup, hframe, hstart, hstop, -⟩ :=
    Lower.loop_body hc
  have hdistinct := hst.distinct
  rw [Stmt.distinct, Bool.and_eq_true, Bool.not_eq_true'] at hdistinct
  have htells := hs.tells hf hkeeps
  obtain ⟨i, s₁, j, s₂, hv, hw, hrun⟩ := Run.exec_loop_done hrun
  have hknown := eval_known hexprs hst.callees hst.named htells hstart hv
  have hlocals : s₁.locals = s.locals := Run.locals_of_eval hv
  have hadmits (i : Int64) : symbol.shape.admits (.int i) = true := by
    rw [hshape]
    rfl
  -- The end of the range is computed where the variable has its first value.
  have hset : Scope.Tells isEnum table { scope with frame }
      { s₁ with locals := s₁.locals.set name (.int i) } := by
    refine Scope.Tells.set (htells.of_locals hknown hlocals) hdistinct.1 hlookup (hadmits i)
  have hnamed : Scope.Named isEnum { scope with frame } :=
    ⟨hst.named.enums, Lower.named_bind hst.named.symbols hdistinct.1 hlookup⟩
  have hcallees : { scope with frame }.functions = callees := hst.callees
  have hknown₂ := eval_known hexprs hcallees hnamed hset hstop hw
  have hbound : (scope.inLoop name).frame.lookup name = some symbol := by
    rw [hframe, hlookup, if_pos rfl]
  obtain ⟨symbol', hsymbol', hsame⟩ := hkeeps'.admits hbound
  refine ⟨j, s₂, ⟨hknown₂, ?_⟩, ⟨symbol', hsymbol', fun i => (hsame _).trans (hadmits i)⟩, hrun⟩
  rw [Run.locals_of_eval hw]
  change f'.Agrees (s₁.locals.set name (.int i))
  rw [hlocals]
  exact hs.shapes.set hothers hsymbol' ((hsame _).trans (hadmits i))

end Binding

/-- Each round of a loop sets its variable to an integer again. -/
theorem rounds_agree {var : String} {stop : Int64} {body : Run Flow} {symbol : Symbol} {n : Nat}
    (hvar : f.lookup var = some symbol) (hint : ∀ i, symbol.shape.admits (.int i) = true)
    (hbody : ∀ s flow s', s.Agrees isEnum table f → body s = .done flow s' →
      s'.Agrees isEnum table f ∧ Scalar.int.admits (Run.result flow) = true)
    (hs : s.Agrees isEnum table f)
    (hrun : Run.repeated (Run.countedStep var stop body) n s = .done flow s') :
    s'.Agrees isEnum table f ∧ Scalar.int.admits (Run.result flow) = true := by
  induction n generalizing s with
  | zero => cases hrun
  | succ n ih =>
    rcases Run.repeated_done _ _ _ _ _ hrun with ⟨s₁, hstep, hrest⟩ | hstep
    · obtain ⟨_, -, ⟨-, hr, -⟩ | ⟨-, _, -, hr⟩ | ⟨-, s₂, j, hbody₂, -, -, rfl⟩⟩ :=
        Run.countedStep_done _ _ _ _ _ _ hstep
      · cases hr
      · cases hr
      · obtain ⟨hs₂, -⟩ := hbody s .next s₂ hs hbody₂
        have hset := hs₂.shapes.set (fun _ old _ hold => ⟨old, hold, rfl⟩) hvar (hint (j + 1))
        have hs₁ : State.Agrees isEnum table f
            { s₂ with locals := s₂.locals.set var (.int (j + 1)) } :=
          ⟨⟨hs₂.known.functions, hs₂.known.enums⟩, hset⟩
        exact ih hs₁ hrest
    · obtain ⟨_, -, ⟨-, hr, rfl⟩ | ⟨-, v, hbody', hr⟩ | ⟨-, _, _, -, -, hr, -⟩⟩ :=
        Run.countedStep_done _ _ _ _ _ _ hstep
      · cases hr
        exact ⟨hs, rfl⟩
      · cases hr
        exact hbody s (.returned v) s' hs hbody'
      · cases hr

end Level

/-! ## One level of evaluation -/

section Depth

variable (isEnum : String → Bool) (table : Bindings Function) (callees : Bindings Callee)
  (rounds depth : Nat)

/-- Inside a loop, statements that nest no deeper keep a state in agreement with every frame that
keeps the shapes at their end. -/
def LoopedAgree : Prop :=
  ∀ st scope scope' f s flow s', Stmt.Lowers isEnum callees st scope scope' →
    st.steady true scope = true → scope.frame.Keeps scope'.frame → scope'.frame.Keeps f →
    f.Named isEnum → s.Agrees isEnum table f → Run.execWithin rounds depth st s = .done flow s' →
    s'.Agrees isEnum table f ∧ Scalar.int.admits (Run.result flow) = true

/-- Outside loops, statements that nest no deeper lead from the frame before to the frame after. -/
def StmtsAgree : Prop :=
  ∀ st scope scope' s flow s', Stmt.Lowers isEnum callees st scope scope' →
    st.steady false scope = true → s.Agrees isEnum table scope.frame →
    Run.execWithin rounds depth st s = .done flow s' →
    s'.Known isEnum table ∧ (flow = .next → scope'.frame.Agrees s'.locals) ∧
      Scalar.int.admits (Run.result flow) = true

end Depth

section Blocks

variable {isEnum : String → Bool} {table : Bindings Function} {callees : Bindings Callee}
  {rounds depth : Nat} {scope scope' : Scope} {s s' : State} {flow : Flow} {f : Frame}

theorem LoopedAgree.block (h : LoopedAgree isEnum table callees rounds depth) {body : List Stmt}
    (hbody : Stmt.AllLower isEnum callees body scope scope')
    (hsteady : Stmt.allSteady true body scope = true) (hkeeps : scope'.frame.Keeps f)
    (hf : f.Named isEnum) (hs : s.Agrees isEnum table f)
    (hrun : Run.forEach (Run.execWithin rounds depth) body s = .done flow s') :
    s'.Agrees isEnum table f ∧ Scalar.int.admits (Run.result flow) = true := by
  induction body generalizing scope s with
  | nil =>
    obtain ⟨rfl, rfl⟩ := (Run.pure_done _ _ _ _).mp hrun
    exact ⟨hs, rfl⟩
  | cons st rest ih =>
    obtain ⟨scope₁, hst, hrest⟩ := hbody.cons
    obtain ⟨c₁, hc₁⟩ := hst.code
    obtain ⟨c₂, hc₂⟩ := hrest.code
    rw [Stmt.allSteady, Bool.and_eq_true, Bool.and_eq_true] at hsteady
    obtain ⟨⟨hsteady₁, hkeeps₁⟩, hsteady₂⟩ := hsteady
    have hsteady₂ := Lowering.check_of_leaves hsteady₂ hc₁
    have hkeeps₁ := Lowering.keeps_of_keepsShapes hkeeps₁ hc₁
    simp only [Run.forEach, Run.bind_done] at hrun
    obtain ⟨flow₁, s₁, hrun₁, hrun⟩ := hrun
    have hfirst := h st scope scope₁ f s flow₁ s₁ hst hsteady₁ hkeeps₁
      ((Lower.block_keeps hc₂ hsteady₂).trans hkeeps) hf hs hrun₁
    cases flow₁ with
    | next => exact ih hrest hsteady₂ hfirst.1 hrun
    | returned v =>
      obtain ⟨rfl, rfl⟩ := (Run.pure_done _ _ _ _).mp hrun
      exact hfirst

theorem StmtsAgree.block (h : StmtsAgree isEnum table callees rounds depth) {body : List Stmt}
    (hbody : Stmt.AllLower isEnum callees body scope scope')
    (hsteady : Stmt.allSteady false body scope = true) (hs : s.Agrees isEnum table scope.frame)
    (hrun : Run.forEach (Run.execWithin rounds depth) body s = .done flow s') :
    s'.Known isEnum table ∧ (flow = .next → scope'.frame.Agrees s'.locals) ∧
      Scalar.int.admits (Run.result flow) = true := by
  induction body generalizing scope s with
  | nil =>
    obtain ⟨rfl, rfl⟩ := (Run.pure_done _ _ _ _).mp hrun
    obtain ⟨c, hc⟩ := hbody.code
    obtain ⟨-, rfl⟩ := (Lowering.pure_ok _ _ _ _).mp hc
    exact ⟨hs.known, fun _ => hs.shapes, rfl⟩
  | cons st rest ih =>
    obtain ⟨scope₁, hst, hrest⟩ := hbody.cons
    obtain ⟨c₁, hc₁⟩ := hst.code
    rw [Stmt.allSteady, Bool.and_eq_true, Bool.and_eq_true] at hsteady
    obtain ⟨⟨hsteady₁, -⟩, hsteady₂⟩ := hsteady
    simp only [Run.forEach, Run.bind_done] at hrun
    obtain ⟨flow₁, s₁, hrun₁, hrun⟩ := hrun
    obtain ⟨hknown, hagrees, hint⟩ := h st scope scope₁ s flow₁ s₁ hst hsteady₁ hs hrun₁
    cases flow₁ with
    | next => exact ih hrest (Lowering.check_of_leaves hsteady₂ hc₁) ⟨hknown, hagrees rfl⟩ hrun
    | returned v =>
      obtain ⟨rfl, rfl⟩ := (Run.pure_done _ _ _ _).mp hrun
      exact ⟨hknown, by simp, hint⟩

end Blocks

section Level

variable {isEnum : String → Bool} {table : Bindings Function} {callees : Bindings Callee}
  {rounds depth : Nat} (hexprs : ∀ n ≤ depth, ExprsHaveKinds isEnum table callees rounds n)
  (hlooped : LoopedAgree isEnum table callees rounds depth)

include hexprs

theorem exec_cond {test : Expr} {thenBody : List Stmt} {elseBody : Option (List Stmt)}
    {scope : Scope} {c : Lower.ValueCode} {f : Frame} {s s' : State} {flow : Flow}
    (hc : Lower.expr scope 0 test = .ok c) (hcallees : scope.functions = callees)
    (hnamed : scope.Named isEnum) (hf : f.Named isEnum) (hkeeps : scope.frame.Keeps f)
    (hs : s.Agrees isEnum table f)
    (hrun : Run.execWithin rounds (depth + 1) (.cond test thenBody elseBody) s = .done flow s') :
    ∃ s₁, s₁.Agrees isEnum table f ∧
      (Run.forEach (Run.execWithin rounds depth) thenBody s₁ = .done flow s' ∨
        Run.forEach (Run.execWithin rounds depth) (elseBody.getD []) s₁ = .done flow s') := by
  obtain ⟨v, s₁, hv, hrun⟩ := Run.exec_cond_done hrun
  have hknown := eval_known hexprs hcallees hnamed (hs.tells hf hkeeps) hc hv
  refine ⟨s₁, hs.of_locals hknown (Run.locals_of_eval hv), ?_⟩
  split at hrun
  · exact .inl hrun
  · exact .inr hrun

include hlooped

theorem loopedAgree_succ : LoopedAgree isEnum table callees rounds (depth + 1) := by
  intro st scope scope' f s flow s' hst hsteady hkeeps hkeeps' hf hs hrun
  obtain ⟨c, hc⟩ := hst.code
  have htells := hs.tells hf (hkeeps.trans hkeeps')
  have hothers (name other : String) (old : Symbol) (_ : name ≠ other)
      (hold : f.lookup other = some old) :
      ∃ new, f.lookup other = some new ∧ new.shape.outline = old.shape.outline :=
    ⟨old, hold, rfl⟩
  cases hdeclares : st.declares with
  | false =>
    obtain ⟨-, hknown, hlocals, hint⟩ :=
      exec_still hexprs hst.callees hst.named htells hst hdeclares hrun
    exact ⟨hs.of_locals hknown hlocals, hint⟩
  | true =>
    cases st with
    | decl name e =>
      exact exec_decl hexprs hs hf (hkeeps.trans hkeeps') (hothers name) hst hkeeps' hrun
    | loop var range body =>
      cases range with
      | counted start stop =>
        rw [Lower.stmt] at hc
        obtain ⟨_, _, code, _, _, -, -, -, -, -, hcode⟩ := Lower.loop_body hc
        have hbody := Stmt.Lowers.loopBody hst
        rw [Stmt.steady] at hsteady
        obtain ⟨j, s₁, hs₁, ⟨symbol, hsymbol, hint⟩, hrounds⟩ := exec_loop hexprs hs hf
          (hkeeps.trans hkeeps') (hothers var) hst
          ((Lower.block_keeps hcode hsteady).trans hkeeps') hrun
        exact rounds_agree hsymbol hint (fun s flow s' hs hrun =>
          hlooped.block hbody hsteady hkeeps' hf hs hrun) hs₁ hrounds
      | collection | condition =>
        rw [Lower.stmt] at hc
        cases hc
    | cond test thenBody elseBody =>
      obtain ⟨⟨v, hv⟩, scope₁, scope₂, hbranches⟩ := Lower.cond_branches hc hsteady
      obtain ⟨hfirst, hsecond⟩ := hst.branches hbranches
      obtain ⟨s₁, hs₁, hrun | hrun⟩ := exec_cond hexprs hv hst.callees
        ⟨hst.named.enums, hst.named.symbols⟩ hf (hkeeps.trans hkeeps') hs hrun
      · exact hlooped.block hfirst hbranches.firstSteady (hbranches.secondKeeps.trans hkeeps') hf hs₁
          hrun
      · exact hlooped.block hsecond hbranches.secondSteady hkeeps' hf hs₁ hrun
    | _ => cases hdeclares

theorem stmtsAgree_succ (hstmts : StmtsAgree isEnum table callees rounds depth) :
    StmtsAgree isEnum table callees rounds (depth + 1) := by
  intro st scope scope' s flow s' hst hsteady hs hrun
  obtain ⟨c, hc⟩ := hst.code
  have htells := hs.tells hst.named.symbols (.refl scope.frame)
  cases hdeclares : st.declares with
  | false =>
    obtain ⟨hsymbols, hknown, hlocals, hint⟩ :=
      exec_still hexprs hst.callees hst.named htells hst hdeclares hrun
    refine ⟨hknown, fun _ => ?_, hint⟩
    intro name v hv
    rw [Frame.lookup, hsymbols]
    rw [hlocals] at hv
    exact hs.shapes name v hv
  | true =>
    cases st with
    | decl name e =>
      rw [Lower.stmt] at hc
      obtain ⟨frame, symbol, rfl, -, hlookup⟩ := Lower.declare_shaped hc
      have hothers (other : String) (old : Symbol) (hne : name ≠ other)
          (hold : scope.frame.lookup other = some old) :
          ∃ new, frame.lookup other = some new ∧ new.shape.outline = old.shape.outline :=
        ⟨old, by rw [hlookup, if_neg hne, hold], rfl⟩
      obtain ⟨hs', hint⟩ := exec_decl hexprs hs hst.named.symbols (.refl _) hothers hst (.refl _)
        hrun
      exact ⟨hs'.known, fun _ => hs'.shapes, hint⟩
    | loop var range body =>
      cases range with
      | counted start stop =>
        rw [Lower.stmt] at hc
        obtain ⟨_, _, code, _, frame, -, hlookup, hframe, -, -, hcode⟩ := Lower.loop_body hc
        have hbody := Stmt.Lowers.loopBody hst
        rw [Stmt.steady] at hsteady
        have hkeeps := Lower.block_keeps hcode hsteady
        obtain ⟨j, s₁, hs₁, ⟨symbol, hsymbol, hint⟩, hrounds⟩ := exec_loop hexprs hs
          hst.named.symbols (.refl _) (fun other old hne hold =>
            hkeeps other old (by rw [hframe, hlookup, if_neg hne, hold])) hst hkeeps hrun
        obtain ⟨hs', hint'⟩ := rounds_agree hsymbol hint (fun s flow s' hs hrun =>
          hlooped.block hbody hsteady (.refl _) hbody.after.2.symbols hs hrun) hs₁ hrounds
        exact ⟨hs'.known, fun _ => hs'.shapes, hint'⟩
      | collection | condition =>
        rw [Lower.stmt] at hc
        cases hc
    | cond test thenBody elseBody =>
      obtain ⟨⟨v, hv⟩, scope₁, scope₂, hbranches⟩ := Lower.cond_branches hc hsteady
      obtain ⟨hfirst, hsecond⟩ := hst.branches hbranches
      obtain ⟨s₁, hs₁, hrun | hrun⟩ := exec_cond hexprs hv hst.callees
        ⟨hst.named.enums, hst.named.symbols⟩ hst.named.symbols (.refl _) hs hrun
      · obtain ⟨hknown, hagrees, hint⟩ := hstmts.block hfirst hbranches.firstSteady hs₁ hrun
        exact ⟨hknown, fun hnext => hbranches.secondKeeps.agrees (hagrees hnext), hint⟩
      · refine hstmts.block hsecond hbranches.secondSteady ?_ hrun
        rw [hbranches.between]
        exact hs₁.of_keeps hbranches.firstKeeps
    | _ => cases hdeclares

end Level

/-! ## Calls -/

section Calls

variable {isEnum : String → Bool} {table : Bindings Function} {callees : Bindings Callee}
  {rounds depth : Nat}

theorem parameters_agree {i : Nat} {params : List String} {args : List Value} {c : Asm.Code}
    {scope scope' : Scope} {locals : Locals} (h : Lower.parameters i params scope = .ok (c, scope'))
    (hnames : params.all (!isEnum ·) = true) (hlen : params.length = args.length)
    (hargs : args.all Scalar.int.admits = true) (hnamed : scope.frame.Named isEnum)
    (hagrees : scope.frame.Agrees locals) :
    scope'.frame.Agrees (locals.setAll (params.zip args)) ∧ scope'.frame.Named isEnum := by
  induction params generalizing i args c scope locals with
  | nil =>
    obtain ⟨-, rfl⟩ := (Lowering.pure_ok _ _ _ _).mp h
    exact ⟨hagrees, hnamed⟩
  | cons param rest ih =>
    cases args with
    | nil => cases hlen
    | cons v args =>
      simp only [Lower.parameters, Lowering.bind_ok, Lowering.take_ok, Lowering.pure_ok] at h
      obtain ⟨slot, _, ⟨frame, hassign, rfl⟩, c', _, hrest, -, rfl⟩ := h
      obtain ⟨symbol, -, hshape, hlookup⟩ := Frame.assign_lookup hassign
      rw [List.all_cons, Bool.and_eq_true] at hnames hargs
      refine ih hrest hnames.2 (Nat.succ.inj hlen) hargs.2 ?_ ?_
      · exact Lower.named_bind hnamed (by simpa using hnames.1) hlookup
      · have hbound : frame.lookup param = some symbol := by rw [hlookup, if_pos rfl]
        refine hagrees.set
          (fun other old hne hold => ⟨old, by rw [hlookup, if_neg hne, hold], rfl⟩) hbound ?_
        rw [hshape]
        exact hargs.1

theorem callsReturnInts
    (hcompiled : ∀ name f callee, table.get? name = some f → callees.get? name = some callee →
      f.Compiled isEnum callees)
    (hstmts : StmtsAgree isEnum table callees rounds depth) :
    CallsReturnInts isEnum table callees rounds depth := by
  intro name g callee args flow s s' hg hcallee hlen hargs hknown hrun
  obtain ⟨hdistinct, name', c, session, session', hfunction, hcallees, hnamed, hsteady⟩ :=
    hcompiled name g callee hg hcallee
  rw [Function.distinct, Bool.and_eq_true] at hdistinct
  obtain ⟨-, scope₁, scope', params, body, -, hparams, hbody, -⟩ :=
    Lower.function_ok name' g c session session' hfunction
  have hsteady := Lowering.check_of_leaves hsteady hparams
  have hempty : Frame.empty.Agrees [] := nofun
  obtain ⟨hagrees, hnamed₁⟩ := parameters_agree hparams hdistinct.1 hlen hargs nofun hempty
  obtain ⟨-, frame, rfl⟩ := Lower.parameters_ok 0 g.params params _ scope₁ hparams
  obtain ⟨s₁, hrun₁, rfl⟩ := (Run.inFrame_done _ _ _ _ _).mp hrun
  have hlower : Stmt.AllLower isEnum callees g.body _ scope' :=
    ⟨⟨body, hbody⟩, hdistinct.2, hcallees, hnamed.enums, hnamed₁⟩
  have hentered : State.Agrees isEnum table frame
      (s.enter (Bindings.setAll [] (g.params.zip args))) :=
    ⟨⟨hknown.functions, hknown.enums⟩, hagrees⟩
  obtain ⟨hknown₁, -, hint⟩ := hstmts.block hlower hsteady hentered hrun₁
  obtain ⟨hfunctions, henums, -⟩ := s₁.leave_fields
  exact ⟨hint, by rw [hfunctions]; exact hknown₁.functions, by rw [henums]; exact hknown₁.enums⟩

theorem all_agree
    (hcompiled : ∀ name f callee, table.get? name = some f → callees.get? name = some callee →
      f.Compiled isEnum callees) (rounds depth : Nat) :
    (∀ n ≤ depth, ExprsHaveKinds isEnum table callees rounds n) ∧
      LoopedAgree isEnum table callees rounds depth ∧
      StmtsAgree isEnum table callees rounds depth := by
  induction depth with
  | zero =>
    refine ⟨?_, ?_, ?_⟩
    · intro n hn e scope d c s v s' hc hcallees hnamed hs hv
      obtain rfl : n = 0 := by omega
      cases hv
    · intro st scope scope' f s flow s' hst hsteady hkeeps hkeeps' hf hs hrun
      cases hrun
    · intro st scope scope' s flow s' hst hsteady hs hrun
      cases hrun
  | succ depth ih =>
    obtain ⟨hexprs, hlooped, hstmts⟩ := ih
    refine ⟨?_, loopedAgree_succ hexprs hlooped, stmtsAgree_succ hexprs hlooped hstmts⟩
    intro n hn
    by_cases heq : n = depth + 1
    · subst heq
      exact exprsHaveKinds_succ hexprs (callsReturnInts hcompiled hstmts)
    · exact hexprs n (by omega)

end Calls

/-! ## Blocks -/

/-- A block keeps a frame in agreement with the variables of a run, if its branches and loops keep
shapes, variables and enums have different names, keys of a dict are distinct, and the functions
that it can call are compiled under the same conditions. -/
theorem block_agrees {isEnum : String → Bool} {body : List Stmt} {c : Asm.Code}
    {scope scope' : Scope} {fuel : Fuel} {s s' : State} (hnamed : scope.Named isEnum)
    (henums : ∀ name cases, s.enums.get? name = some cases → isEnum name = true)
    (hcompiled : ∀ name f callee, s.functions.get? name = some f →
      scope.functions.get? name = some callee → f.Compiled isEnum scope.functions)
    (hdistinct : Stmt.allDistinct isEnum body = true)
    (hsteady : Stmt.allSteady false body scope = true) (hagrees : scope.frame.Agrees s.locals)
    (hlower : Lower.block body scope = .ok (c, scope'))
    (hrun : Run.forEach (Run.exec fuel) body s = .done .next s') :
    scope'.frame.Agrees s'.locals := by
  obtain ⟨-, -, hstmts⟩ := all_agree hcompiled fuel.rounds fuel.depth
  obtain ⟨-, hafter, -⟩ := hstmts.block ⟨⟨c, hlower⟩, hdistinct, rfl, hnamed⟩ hsteady
    ⟨⟨rfl, henums⟩, hagrees⟩ hrun
  exact hafter rfl

/-- Why branches must keep shapes: a variable gets another one in a branch that is not taken. -/
def untakenBranch : List Stmt :=
  [.decl "x" (.int 1), .cond (.bool false) [.decl "x" (.float ⟨0x4004000000000000⟩)] none]

theorem untakenBranch_disagrees : ∃ c scope' s', Frame.empty.Agrees State.initial.locals ∧
    Lower.block untakenBranch (Lower.Declared.none.session.enter false) = .ok (c, scope') ∧
    Run.forEach (Run.exec ⟨3, 1⟩) untakenBranch .initial = .done .next s' ∧
    ¬ scope'.frame.Agrees s'.locals := by
  refine ⟨_, _, _, nofun, rfl, rfl, ?_⟩
  intro h
  obtain ⟨symbol, hsymbol, hadmits⟩ := h "x" (.int 1) rfl
  cases hsymbol
  cases hadmits

def sign : Function where
  params := ["n"]
  body := [.cond (.binary .lt (.var "n") (.int 0)) [.ret (.int (-1))] none, .ret (.int 1)]

/-- A block that calls the function. A variable changes its shape before the loop, and keeps it in
the loop. -/
def signs : List Stmt :=
  [.enum "color" ["red", "green"],
    .decl "x" (.index (.var "color") (.str "green")),
    .decl "x" (.array [.int 1, .int 2]),
    .decl "pair" (.dict [(.str "sum", .int 0), (.str "seen", .array [.bool true])]),
    .loop "i" (.counted (.int 0) (.int 2))
      [.cond (.binary .gt (.call "sign" [.var "i"]) (.index (.var "x") (.int 0)))
        [.decl "x" (.array [.int 4, .var "i"])]
        (some [.decl "y" (.float ⟨0x4004000000000000⟩)])]]

def signSession : Session := (Lower.Declared.none.function "sign" sign).session

/-- Where the block is lowered. -/
def signScope : Scope := signSession.enter false

theorem signScope_named : signScope.Named (· = "color") := ⟨nofun, nofun⟩

theorem sign_compiled : sign.Compiled (· = "color") signScope.functions := by
  obtain ⟨r, hlower⟩ : ∃ r, Lower.function "sign" sign signSession = .ok r :=
    exists_ok_of_isOk (by decide +kernel)
  exact ⟨by decide +kernel, "sign", r.1, signSession, r.2, hlower, rfl, ⟨nofun, nofun⟩,
    by decide +kernel⟩

/-- All statements were run. -/
def Outcome.isNext : Outcome Flow → Bool
  | .done .next _ => true
  | _ => false

theorem signs_agree : ∃ c scope' s', Lower.block signs signScope = .ok (c, scope') ∧
    Run.forEach (Run.exec ⟨9, 4⟩) signs { State.initial with functions := [("sign", sign)] } =
      .done .next s' ∧
    scope'.frame.Agrees s'.locals := by
  generalize hs : { State.initial with functions := [("sign", sign)] } = s
  obtain ⟨c, scope', hlower⟩ : ∃ c scope', Lower.block signs signScope = .ok (c, scope') := by
    obtain ⟨r, hlower⟩ : ∃ r, Lower.block signs signScope = .ok r :=
      exists_ok_of_isOk (by decide +kernel)
    exact ⟨r.1, r.2, hlower⟩
  obtain ⟨s', hrun⟩ : ∃ s', Run.forEach (Run.exec ⟨9, 4⟩) signs s = .done .next s' := by
    have hnext : (Run.forEach (Run.exec ⟨9, 4⟩) signs s).isNext = true := by
      subst hs
      decide +kernel
    cases hrun : Run.forEach (Run.exec ⟨9, 4⟩) signs s with
    | done flow s' =>
      rw [hrun] at hnext
      cases flow with
      | next => exact ⟨s', rfl⟩
      | returned v => cases hnext
    | failed | outOfFuel =>
      rw [hrun] at hnext
      cases hnext
  refine ⟨c, scope', s', hlower, hrun, block_agrees signScope_named ?_ ?_ ?_ ?_ ?_ hlower hrun⟩
  · subst hs
    intro name v hv
    cases hv
  · intro name f callee hf _
    subst hs
    obtain ⟨-, rfl⟩ : "sign" = name ∧ sign = f := by
      simpa [Bindings.get?] using hf
    exact sign_compiled
  · decide +kernel
  · decide +kernel
  · subst hs
    intro name v hv
    cases hv

end Armature
