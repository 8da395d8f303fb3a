import Armature.Proofs.Bodies
import Armature.Proofs.Loops

/-!
# Functions on integers

Blocks, and functions that are called with their arguments in registers. What is known of runs that
nest less deep gives what is known of the next depth.
-/

namespace Armature.Process

open A64 (Machine XReg)
open Asm (Code Image Label Line)

variable {image : Image} {env : Process image} {place : Label → Nat} {table : Bindings Function}
  {callees : Bindings Callee} {rounds depth : Nat}

/-- Statements that nest no deeper do what the evaluator does. -/
def StmtsExecute (env : Process image) (place : Label → Nat) (table : Bindings Function)
    (callees : Bindings Callee) (rounds depth : Nat) : Prop :=
  ∀ st scope scope' done c f s flow s', st.basic = true → Lower.stmt st scope = .ok (c, scope') →
    scope.functions = callees → (∀ label, scope.returnTo = some label → label = done) →
    scope.Ints → f.Ints → scope'.frame.Extends f → s.Fits table f →
    Run.execWithin rounds depth st s = .done flow s' →
    env.Executes place table f depth scope.frame.used done c s flow s'

/-! ## Blocks -/

theorem executes_block (hstmts : StmtsExecute env place table callees rounds depth)
    {body : List Stmt} {scope scope' : Scope} {done : Label} {c : Code} {f : Frame} {s s' : State}
    {flow : Flow} (hbody : Stmt.allBasic body = true)
    (hc : Lower.block body scope = .ok (c, scope')) (hcallees : scope.functions = callees)
    (hdone : ∀ label, scope.returnTo = some label → label = done) (hscope : scope.Ints)
    (hf : f.Ints) (hextends : scope'.frame.Extends f) (hs : s.Fits table f)
    (hrun : Run.forEach (Run.execWithin rounds depth) body s = .done flow s') :
    env.Executes place table f depth scope.frame.used done c s flow s' := by
  induction body generalizing scope c s with
  | nil =>
    obtain ⟨rfl, rfl⟩ := (Lowering.pure_ok _ _ _ _).mp hc
    obtain ⟨rfl, rfl⟩ := (Run.pure_done _ _ _ _).mp hrun
    exact executes_nil hs
  | cons st rest ih =>
    simp only [Stmt.allBasic, Bool.and_eq_true] at hbody
    obtain ⟨c₁, c₂, scope₁, h₁, h₂, rfl⟩ := Lower.block_cons_ok st rest c scope scope' hc
    obtain ⟨hscope₁, hextends₁⟩ := Lower.stmt_ints st c₁ scope scope₁ h₁ hscope hbody.1
    obtain ⟨-, hextends₂⟩ := Lower.block_ints rest c₂ scope₁ scope' h₂ hscope₁ hbody.2
    have hemits := Lower.stmt_emits st c₁ scope scope₁ h₁
    simp only [Run.forEach, Run.bind_done] at hrun
    obtain ⟨flow₁, s₁, hrun₁, hrun⟩ := hrun
    have hfirst := hstmts st scope scope₁ done c₁ f s flow₁ s₁ hbody.1 h₁ hcallees hdone hscope hf
      (hextends₂.trans hextends) hs hrun₁
    cases flow₁ with
    | next =>
      refine hfirst.append ?_ hextends₁.used_le
      exact ih hbody.2 h₂ (hemits.functions.trans hcallees) (by rw [hemits.returnTo]; exact hdone)
        hscope₁ hfirst.fits hrun
    | returned v =>
      obtain ⟨rfl, rfl⟩ := (Run.pure_done _ _ _ _).mp hrun
      exact hfirst.returned

/-! ## One more level -/

section Level

variable (hexprs : ∀ n ≤ depth, ExprsCompute env place table callees rounds n)
  (hstmts : StmtsExecute env place table callees rounds depth) {scope scope' : Scope}
  {done : Label} {c : Code} {f : Frame} {s s' : State} {flow : Flow}
  (hcallees : scope.functions = callees) (hscope : scope.Ints) (hf : f.Ints)
  (hextends : scope'.frame.Extends f) (hs : s.Fits table f)

include hexprs hcallees hscope hf hextends hs

theorem executes_print {e : Expr} (he : e.basic = true)
    (hc : Lower.print e scope = .ok (c, scope'))
    (hrun : Run.execWithin rounds (depth + 1) (.print e) s = .done flow s') :
    env.Executes place table f (depth + 1) scope.frame.used done c s flow s' := by
  obtain ⟨value, hvalue, rfl, rfl⟩ := Lower.print_basic hscope he hc
  obtain ⟨v, s₁, hv, rfl, rfl⟩ := Run.exec_print_done hrun
  exact (hexprs depth (Nat.le_refl _) e _ 0 value f s v s₁ he hvalue hcallees hf hscope.frame
    hextends hs hv).print.mono

theorem executes_decl {name : String} {e : Expr} (he : e.basic = true)
    (hkind : e.basicKind = .int) (hc : Lower.declare name e scope = .ok (c, scope'))
    (hrun : Run.execWithin rounds (depth + 1) (.decl name e) s = .done flow s') :
    env.Executes place table f (depth + 1) scope.frame.used done c s flow s' := by
  obtain ⟨code, slot, frame, hvalue, hassign, rfl, rfl⟩ := Lower.declare_basic hscope he hkind hc
  obtain ⟨-, hextends', symbol, hsymbol, rfl⟩ := hscope.frame.assign hassign
  obtain ⟨v, s₁, hv, rfl, rfl⟩ := Run.exec_decl_done hrun
  have hcomputes := hexprs depth (Nat.le_refl _) e scope 0 _ f s v s₁ he hvalue hcallees hf
    hscope.frame (hextends'.trans hextends) hs hv
  obtain ⟨i, rfl⟩ := hcomputes.kind.int
  exact (hcomputes.assign hf (hextends.lookup name symbol hsymbol)).mono

theorem executes_ret {e : Expr} (he : e.basic = true) (hc : Lower.ret e scope = .ok (c, scope'))
    (hdone : ∀ label, scope.returnTo = some label → label = done)
    (hrun : Run.execWithin rounds (depth + 1) (.ret e) s = .done flow s') :
    env.Executes place table f (depth + 1) scope.frame.used done c s flow s' := by
  obtain ⟨label, code, hlabel, hvalue, rfl, rfl⟩ := Lower.ret_ok e c scope scope' hc
  obtain rfl := hdone label hlabel
  obtain ⟨v, hv, rfl⟩ := Run.exec_ret_done hrun
  exact (hexprs depth (Nat.le_refl _) e _ 0 _ f s v _ he hvalue hcallees hf hscope.frame
    hextends hs hv).ret.mono

theorem executes_expr {e : Expr} (he : e.basic = true)
    (hc : Lower.stmt (.expr e) scope = .ok (c, scope'))
    (hrun : Run.execWithin rounds (depth + 1) (.expr e) s = .done flow s') :
    env.Executes place table f (depth + 1) scope.frame.used done c s flow s' := by
  simp only [Lower.stmt, Lowering.bind_ok, Lowering.value_ok, Lowering.pure_ok] at hc
  obtain ⟨value, _, ⟨hvalue, rfl⟩, rfl, rfl⟩ := hc
  obtain ⟨v, hv, rfl⟩ := Run.exec_expr_done hrun
  exact (hexprs depth (Nat.le_refl _) e _ 0 _ f s v _ he hvalue hcallees hf hscope.frame
    hextends hs hv).execute.mono

include hstmts

theorem executes_loop {var : String} {start stop : Expr} {body : List Stmt}
    (hstart : start.basic = true) (hstop : stop.basic = true)
    (hbody : Stmt.allBasic body = true)
    (hc : Lower.loop var start stop (Lower.block body) scope = .ok (c, scope'))
    (hdone : ∀ label, scope.returnTo = some label → label = done)
    (hrun : Run.execWithin rounds (depth + 1) (.loop var (.counted start stop) body) s =
      .done flow s') :
    env.Executes place table f (depth + 1) scope.frame.used done c s flow s' := by
  obtain ⟨startCode, counter, frame₁, stopCode, stopSlot, frame₂, loopCode, hstart', hcounter,
    hstop', hslot, hloop, rfl⟩ := Lower.loop_ok var start stop _ c scope scope' hc
  obtain ⟨code, top, exit, -, -, hcode, rfl⟩ := Lower.countedLoop_ok _ _ _ _ _ _ hloop
  obtain ⟨hints₁, hextends₁, symbol, hsymbol, rfl⟩ := hscope.frame.assign hcounter
  obtain ⟨hints₂, hextends₂, -, hindex, hused⟩ := hints₁.hidden hslot
  obtain ⟨-, hextends₃⟩ := Lower.block_ints body code _ scope' hcode ⟨hints₂, hscope.enums⟩ hbody
  have hframe₂ : frame₂.Extends f := hextends₃.trans hextends
  have hframe₁ : frame₁.Extends f := hextends₂.trans hframe₂
  have hsymbol' := hframe₁.lookup var symbol hsymbol
  obtain ⟨i, s₁, j, s₂, hv, hw, hrun⟩ := Run.exec_loop_done hrun
  have hfirst := hexprs depth (Nat.le_refl _) start scope 0 _ f s _ s₁ hstart hstart' hcallees hf
    hscope.frame (hextends₁.trans hframe₁) hs hv
  have hassign : env.Executes place table f depth scope.frame.used done
      (startCode ++ [Lower.storeX .x0 symbol.slot]) s .next _ := hfirst.assign hf hsymbol'
  have hsecond := hexprs depth (Nat.le_refl _) stop { scope with frame := frame₁ } 0 _ f _ _ s₂
    hstop hstop' hcallees hf hints₁ hframe₁ hassign.fits hw
  have hle₁ := hextends₁.used_le
  have hle₂ := hints₂.used_le
  have hfree : ¬ f.Owns stopSlot := fun ⟨name, symbol, hsymbol, hslot'⟩ =>
    hints₁.hidden_free hslot hframe₂ name symbol hsymbol hslot'
  have hrest : env.Executes place table f depth scope.frame.used done
      (stopCode ++ Lower.storeX .x0 stopSlot :: (Lower.loopHead top exit symbol.slot stopSlot
        ++ code ++ Lower.loopTail top exit symbol.slot)) _ flow s' :=
    hsecond.loop hf hsymbol' (by omega) (by omega) hle₂ hfree
      (fun s flow s₁ hs hrun => executes_block hstmts hbody hcode hcallees hdone
        ⟨hints₂, hscope.enums⟩ hf hextends hs hrun) hrun
  have hall := (hassign.append hrest (Nat.le_refl _)).mono
  simpa [Lower.store, Lower.loopHead, Lower.loopTail] using hall

theorem executes_cond {test : Expr} {thenBody : List Stmt} {elseBody : Option (List Stmt)}
    (hst : (Stmt.cond test thenBody elseBody).basic = true)
    (hc : Lower.stmt (.cond test thenBody elseBody) scope = .ok (c, scope'))
    (hdone : ∀ label, scope.returnTo = some label → label = done)
    (hrun : Run.execWithin rounds (depth + 1) (.cond test thenBody elseBody) s = .done flow s') :
    env.Executes place table f (depth + 1) scope.frame.used done c s flow s' := by
  obtain ⟨v, s₁, hv, hrun⟩ := Run.exec_cond_done hrun
  cases elseBody with
  | none =>
    simp only [Stmt.basic, Bool.and_eq_true] at hst
    obtain ⟨otherwise, testCode, thenCode, -, htest, hthen, rfl⟩ :=
      Lower.cond_none_ok test thenBody c scope scope' hc
    obtain ⟨-, hextends'⟩ := Lower.block_ints thenBody thenCode _ scope' hthen
      ⟨hscope.frame, hscope.enums⟩ hst.2
    have hdecides := decides_jumpUnless hexprs htest hst.1 hcallees hf hscope.frame
      (hextends'.trans hextends) hs hv
    cases hmet : v.truthy with
    | true =>
      rw [hmet, if_pos rfl] at hrun
      rw [hmet] at hdecides
      exact (hdecides.enter (executes_block hstmts hst.2 hthen hcallees hdone
        ⟨hscope.frame, hscope.enums⟩ hf hextends hdecides.fits hrun)).mono
    | false =>
      rw [hmet] at hrun hdecides
      obtain ⟨rfl, rfl⟩ := (Run.pure_done _ _ _ _).mp hrun
      exact hdecides.skip.mono
  | some elseBody =>
    simp only [Stmt.basic, Bool.and_eq_true] at hst
    obtain ⟨⟨htest', hthen'⟩, helse'⟩ := hst
    obtain ⟨otherwise, endIf, testCode, thenCode, elseCode, scope₁, -, -, htest, hthen, helse, rfl⟩ :=
      Lower.cond_some_ok test thenBody elseBody c scope scope' hc
    obtain ⟨hscope₁, hextends₁⟩ := Lower.block_ints thenBody thenCode _ scope₁ hthen
      ⟨hscope.frame, hscope.enums⟩ hthen'
    obtain ⟨-, hextends₂⟩ := Lower.block_ints elseBody elseCode _ scope' helse
      ⟨hscope₁.frame, hscope₁.enums⟩ helse'
    have hframe₁ : scope₁.frame.Extends f := hextends₂.trans hextends
    have hemits := Lower.block_emits thenBody thenCode _ scope₁ hthen
    have hdecides := decides_jumpUnless hexprs htest htest' hcallees hf hscope.frame
      (hextends₁.trans hframe₁) hs hv
    cases hmet : v.truthy with
    | true =>
      rw [hmet, if_pos rfl] at hrun
      rw [hmet] at hdecides
      exact (hdecides.first (executes_block hstmts hthen' hthen hcallees hdone
        ⟨hscope.frame, hscope.enums⟩ hf hframe₁ hdecides.fits hrun)).mono
    | false =>
      rw [hmet] at hrun hdecides
      have hexec := executes_block hstmts helse' helse (hemits.functions.trans hcallees)
        (fun label hlabel => hdone label (hemits.returnTo.symm.trans hlabel))
        ⟨hscope₁.frame, hscope₁.enums⟩ hf hextends hdecides.fits hrun
      exact (hdecides.second (hexec.weaken hextends₁.used_le)).mono

end Level

theorem stmtsExecute_zero : StmtsExecute env place table callees rounds 0 := by
  intro st scope scope' done c f s flow s' hst hc hcallees hdone hscope hf hextends hs hrun
  cases hrun

theorem stmtsExecute_succ (hexprs : ∀ n ≤ depth, ExprsCompute env place table callees rounds n)
    (hstmts : StmtsExecute env place table callees rounds depth) :
    StmtsExecute env place table callees rounds (depth + 1) := by
  intro st scope scope' done c f s flow s' hst hc hcallees hdone hscope hf hextends hs hrun
  cases st with
  | print e =>
    rw [Lower.stmt] at hc
    exact executes_print hexprs hcallees hscope hf hextends hs hst hc hrun
  | decl name e =>
    rw [Lower.stmt] at hc
    simp only [Stmt.basic, Bool.and_eq_true, decide_eq_true_eq] at hst
    exact executes_decl hexprs hcallees hscope hf hextends hs hst.1 hst.2 hc hrun
  | loop var range body =>
    cases range with
    | counted start stop =>
      rw [Lower.stmt] at hc
      simp only [Stmt.basic, Bool.and_eq_true] at hst
      exact executes_loop hexprs hstmts hcallees hscope hf hextends hs hst.1.1 hst.1.2 hst.2 hc
        hdone hrun
    | collection items => cases hst
    | condition test => cases hst
  | cond test thenBody elseBody =>
    exact executes_cond hexprs hstmts hcallees hscope hf hextends hs hst hc hdone hrun
  | ret e =>
    rw [Lower.stmt] at hc
    exact executes_ret hexprs hcallees hscope hf hextends hs hst hc hdone hrun
  | expr e => exact executes_expr hexprs hcallees hscope hf hextends hs hst hc hrun
  | func | enum | tryCatch | throw => cases hst

/-! ## Parameters -/

theorem parameters_ints {i : Nat} {params : List String} {scope scope' : Scope} {c : Code}
    (h : Lower.parameters i params scope = .ok (c, scope')) (hscope : scope.frame.Ints) :
    scope'.frame.Ints ∧ scope.frame.Extends scope'.frame := by
  induction params generalizing i c scope with
  | nil =>
    obtain ⟨-, rfl⟩ := (Lowering.pure_ok _ _ _ _).mp h
    exact ⟨hscope, .refl _⟩
  | cons param rest ih =>
    simp only [Lower.parameters, Lowering.bind_ok, Lowering.take_ok, Lowering.pure_ok] at h
    obtain ⟨slot, _, ⟨frame, hassign, rfl⟩, c', _, hrest, -, rfl⟩ := h
    obtain ⟨hints, hextends, -⟩ := hscope.assign hassign
    obtain ⟨hints', hextends'⟩ := ih hrest hints
    exact ⟨hints', hextends.trans hextends'⟩

theorem parameters_bind (env : Process image) (place : Label → Nat) (table : Bindings Function)
    {i : Nat} {params : List String} {args : List Value} {scope scope' : Scope} {c : Code} {f : Frame}
    (h : Lower.parameters i params scope = .ok (c, scope')) (hscope : scope.frame.Ints)
    (hf : f.Ints) (hextends : scope'.frame.Extends f) (hlen : params.length = args.length)
    (hargs : ∀ v ∈ args, v.HasWord .int) (hcount : i + params.length ≤ 8) (s : State) :
    let s' := { s with locals := s.locals.setAll (params.zip args) }
    (s.Fits table f → s'.Fits table f) ∧
      ∀ base m k, env.Represents f base s m → env.Installed place k c →
        (∀ j v, args[j]? = some v → m.x (XReg.argument (i + j)).num = v.word) →
        env.Leads (env.pc k) m (env.pc (k + Code.size c)) fun m' =>
          env.Represents f base s' m' ∧ Steady f 0 base m m' := by
  induction params generalizing i args c scope s with
  | nil =>
    obtain ⟨rfl, -⟩ := (Lowering.pure_ok _ _ _ _).mp h
    exact ⟨fun hs => hs, fun base m k hm _ _ => .refl ⟨hm, .refl f 0 base m⟩⟩
  | cons param rest ih =>
    cases args with
    | nil => cases hlen
    | cons v args =>
      simp only [Lower.parameters, Lowering.bind_ok, Lowering.take_ok, Lowering.pure_ok] at h
      obtain ⟨slot, _, ⟨frame, hassign, rfl⟩, c', _, hrest, rfl, rfl⟩ := h
      obtain ⟨hints, -, symbol, hsymbol, rfl⟩ := hscope.assign hassign
      obtain ⟨-, hextends'⟩ := parameters_ints hrest hints
      have hsymbol' := (hextends'.trans hextends).lookup param symbol hsymbol
      have hslot := (hf.symbol param symbol hsymbol').2.2
      have hused := hf.used_le
      obtain ⟨n, rfl⟩ := (hargs v List.mem_cons_self).int
      rw [List.length_cons] at hcount
      obtain ⟨hfits, hcode⟩ := ih hrest hints (by simpa using hlen)
        (fun v hv => hargs v (List.mem_cons_of_mem _ hv)) (by omega)
        { s with locals := s.locals.set param (.int n) }
      refine ⟨fun hs => hfits (hs.set hsymbol'), ?_⟩
      intro base m k hm hk hregs
      rw [installed_cons] at hk
      have hget : m.get (.argument i) = n.toBitVec := by
        rw [m.get_of_ne _ (ne_of_toNat_lt (by rw [toNat_argument i (by omega)]; omega)).2.2]
        exact hregs 0 _ rfl
      refine (hk.1.storeX hm.frame symbol.slot (by omega)).trans ?_
      rintro _ rfl
      rw [hget]
      refine ((hcode base _ _ (hm.set hf hsymbol') hk.2 ?_).mono ?_).cast
        (by rw [Code.size_cons, ← Nat.add_assoc])
      · intro j v hv
        rw [Machine.x_store, show i + 1 + j = i + (j + 1) by omega]
        exact hregs (j + 1) v hv
      · rintro m' ⟨hm', hsteady⟩
        exact ⟨hm', (steady_store _ (by omega) ⟨param, symbol, hsymbol', rfl⟩).trans hsteady⟩

/-! ## Calls -/

/-- The functions that the evaluator knows are in the code, where calls go to. -/
def Linked (env : Process image) (place : Label → Nat) (table : Bindings Function)
    (callees : Bindings Callee) : Prop :=
  ∀ name g callee, table.get? name = some g → callees.get? name = some callee →
    ∃ session session' code, Lower.function name g session = .ok (code, session') ∧
      session.functions = callees ∧ session.enums = [] ∧ Stmt.allBasic g.body = true ∧
      env.Installed place (place callee.entry) code

theorem Executes.finish {f : Frame} {used base k : Nat} {done : Label} {body : Code}
    {s s₁ : State} {flow : Flow} {m : Machine}
    (h : env.Executes place table f depth used done body s flow s₁)
    (hm : env.Represents f base s m) (hsp : m.sp.toNat = base) (hroom : env.HasRoom depth m)
    (hk : env.Installed place k (body ++ Lower.constant .x0 0 ++ [.mark done])) :
    env.Leads (env.pc k) m (env.pc (k + Code.size (body ++ Lower.constant .x0 0 ++ [.mark done])))
      fun m' => m'.get .x0 = (Run.result flow).word ∧ env.Represents f base s₁ m' ∧
        Steady f used base m m' := by
  rw [installed_append, installed_append, installed_cons] at hk
  obtain ⟨⟨hbody, hconstant⟩, hmark, -⟩ := hk
  have hdone : place done = k + Code.size (body ++ Lower.constant .x0 0 ++ [.mark done]) := by
    rw [hmark.marked done rfl]
    simp [Line.size, Line.body]
  have hrun := h.code base m k hm hsp hroom hbody
  rw [← hdone]
  cases flow with
  | returned v => exact hrun
  | next =>
    refine hrun.trans ?_
    rintro m₁ ⟨-, hm₁, hsteady⟩
    refine ((hconstant.constant .x0 0 (by decide)).mono ?_).cast ?_
    · rintro _ rfl
      have hquiet := Machine.quiet_put 0 m₁ .x0 0 (Machine.not_survives_of_lt 0 _ (by decide))
      exact ⟨m₁.get_put_self .x0 0 (by decide), hm₁.quiet hquiet rfl hm₁.output,
        hsteady.trans (steady_of_quiet hm₁.frame hquiet)⟩
    · rw [hdone]
      simp [Line.size, Line.body, Nat.add_assoc]

theorem Executes.returns {f : Frame} {used : Nat} {entry done : Label} {params body : Code}
    {args : List Value} {s s₀ s₁ : State} {flow : Flow} (hcount : args.length ≤ 8)
    (hfunctions : s.functions = table) (henums : s.enums = [])
    (hbind : ∀ base m k, env.Represents f base (s.enter []) m → env.Installed place k params →
      (∀ j v, args[j]? = some v → m.x (XReg.argument (0 + j)).num = v.word) →
      env.Leads (env.pc k) m (env.pc (k + Code.size params)) fun m' =>
        env.Represents f base s₀ m' ∧ Steady f 0 base m m')
    (h : env.Executes place table f depth used done body s₀ flow s₁)
    (hk : env.Installed place (place entry) (.mark entry :: (Lower.prologue ++ (params ++ body ++
      Lower.constant .x0 0 ++ [.mark done]) ++ Lower.epilogue))) :
    env.Returns (depth + 1) (env.pc (place entry)) s args (Run.result flow) s₁.leave := by
  obtain ⟨hleave₁, hleave₂, hleave₃⟩ := s₁.leave_fields
  refine ⟨?_, ?_, ?_, ?_⟩
  · cases flow with
    | next => trivial
    | returned v => exact h.kind v rfl
  · rw [hleave₁, h.fits.functions, hfunctions]
  · rw [hleave₂, h.fits.enums, henums]
  · intro m haligned hroom hhigh hregs hout
    have hbytes : frameBytes = 2208 := rfl
    have hlow := hroom.succ
    have hcode : Line.mark entry :: (Lower.prologue ++ (params ++ body ++ Lower.constant .x0 0 ++
        [.mark done]) ++ Lower.epilogue) =
        .mark entry :: (Lower.prologue ++ (params ++ ((body ++ Lower.constant .x0 0 ++
          [.mark done]) ++ Lower.epilogue))) := by
      simp
    rw [hcode, installed_cons, installed_append, installed_append, installed_append] at hk
    obtain ⟨-, hprologue, hparams, hbody, hepilogue⟩ := hk
    refine (hprologue.prologue haligned (by omega) hhigh).trans ?_
    rintro m₁ ⟨hframe, hsp₁, hentered, hregs₁, hout₁⟩
    refine (hbind _ m₁ _ ⟨hframe, by simp [State.enter], hout₁.trans hout⟩ hparams ?_).trans ?_
    · intro j v hv
      have hj : j < args.length := (List.getElem?_eq_some_iff.mp hv).1
      have := toNat_argument j (by omega)
      rw [Nat.zero_add, hregs₁ _ (by omega), hregs j v hv]
    rintro m₂ ⟨hm₂, hsteady₂⟩
    have hsp₂ : m₂.sp.toNat = m.sp.toNat - frameBytes := by rw [hsteady₂.sp]; exact hsp₁
    refine (h.finish hm₂ hsp₂ (by unfold HasRoom; omega) hbody).trans ?_
    rintro m₃ ⟨hx0, hm₃, hsteady₃⟩
    have hentered₃ := hentered.congr fun a ha =>
      (hsteady₃.above a ha).trans (hsteady₂.above a ha)
    refine (hepilogue.epilogue hm₃.frame hentered₃ hhigh).mono ?_
    rintro m' ⟨hkept, hx0', hout'⟩
    exact ⟨hx0'.trans hx0, hkept, by rw [hout', hm₃.output, hleave₃]⟩

theorem callsReturn (hlinked : Linked env place table callees)
    (hstmts : StmtsExecute env place table callees rounds depth) :
    CallsReturn env place table callees rounds depth := by
  intro name g callee args flow s s' hg hcallee hlen hcount hargs hfunctions henums hrun
  obtain ⟨session, session', code, hcode, rfl, henums', hbasic, hinstalled⟩ :=
    hlinked name g callee hg hcallee
  obtain ⟨callee', scope₁, scope', params, body, hcallee', hparams, hbody, -, rfl⟩ :=
    Lower.function_ok name g code session session' hcode
  obtain rfl : callee = callee' := Option.some.inj (hcallee.symm.trans hcallee')
  obtain ⟨-, frame₁, rfl⟩ := Lower.parameters_ok 0 g.params params _ scope₁ hparams
  obtain ⟨hints₁, -⟩ := parameters_ints hparams Frame.ints_empty
  obtain ⟨hscope', hextends⟩ := Lower.block_ints g.body body _ scope' hbody ⟨hints₁, henums'⟩ hbasic
  obtain ⟨s₁, hrun₁, rfl⟩ := (Run.inFrame_done _ _ _ _ _).mp hrun
  have hempty : (s.enter []).Fits table scope'.frame := ⟨by simp [State.enter], hfunctions, henums⟩
  obtain ⟨hfits, hbind⟩ := parameters_bind env place table hparams Frame.ints_empty hscope'.frame
    hextends hlen hargs (by omega) (s.enter [])
  have hexec : env.Executes place table scope'.frame depth frame₁.used (session.enter true).done
      body _ flow s₁ :=
    executes_block hstmts hbasic hbody rfl (fun _ hlabel => (Option.some.inj hlabel).symm)
      ⟨hints₁, henums'⟩ hscope'.frame (.refl _) (hfits hempty) hrun₁
  exact hexec.returns hcount hfunctions henums hbind hinstalled

/-! ## All depths -/

theorem all_execute (hlinked : Linked env place table callees) (depth : Nat) :
    (∀ n ≤ depth, ExprsCompute env place table callees rounds n) ∧
      StmtsExecute env place table callees rounds depth := by
  induction depth with
  | zero =>
    refine ⟨?_, stmtsExecute_zero⟩
    intro n hn e scope d c f s v s' he hc hcallees hf hints hextends hs hv
    obtain rfl : n = 0 := by omega
    cases hv
  | succ depth ih =>
    obtain ⟨hexprs, hstmts⟩ := ih
    refine ⟨?_, stmtsExecute_succ hexprs hstmts⟩
    intro n hn
    by_cases heq : n = depth + 1
    · subst heq
      intro e scope d c f s v s' he hc hcallees hf hints hextends hs hv
      exact computes_succ (hexprs depth (Nat.le_refl _)) hcallees hf hints hextends
        (callsReturn hlinked hstmts) he hc hs hv
    · exact hexprs n (by omega)

end Armature.Process
