import Armature.Proofs.Calls
import Armature.Proofs.Evaluation
import Armature.Proofs.Integers

/-!
# Expressions on integers

The code of an expression computes the word of its value, in a machine whose slots hold the
variables of the evaluator's innermost frame.
-/

namespace Armature

open A64 (Machine XReg)
open Asm (Code Image Label Line)

/-! ## States and machines -/

/-- All variables are integers that have a slot in the frame. There are no enums. -/
structure State.Fits (table : Bindings Function) (f : Frame) (s : State) : Prop where
  locals : ∀ name v, s.locals.get? name = some v →
    v.HasWord .int ∧ ∃ symbol, f.lookup name = some symbol
  functions : s.functions = table
  enums : s.enums = []

theorem State.Fits.of_locals {table : Bindings Function} {f : Frame} {s s' : State}
    (h : s.Fits table f) (hlocals : s'.locals = s.locals) (hfunctions : s'.functions = s.functions)
    (henums : s'.enums = s.enums) : s'.Fits table f where
  locals := by rw [hlocals]; exact h.locals
  functions := hfunctions.trans h.functions
  enums := henums.trans h.enums

theorem State.Fits.set {table : Bindings Function} {f : Frame} {s : State} {name : String}
    {symbol : Symbol} {i : Int64} (h : s.Fits table f) (hsymbol : f.lookup name = some symbol) :
    State.Fits table f { s with locals := s.locals.set name (.int i) } where
  locals other v hv := by
    by_cases heq : name = other
    · subst heq
      rw [Bindings.get?_set_self] at hv
      cases hv
      exact ⟨trivial, symbol, hsymbol⟩
    · rw [Bindings.get?_set_of_ne _ _ heq] at hv
      exact h.locals other v hv
  functions := h.functions
  enums := h.enums

namespace Process

variable {image : Image} {env : Process image} {place : Label → Nat} {table : Bindings Function}
  {f : Frame} {base : Nat} {s s' : State} {m m' : Machine}

/-- The machine has the variables in their slots, and has printed what the evaluator has. -/
structure Represents (env : Process image) (f : Frame) (base : Nat) (s : State) (m : Machine) :
    Prop where
  frame : env.InFrame base m
  slots : ∀ name v symbol, s.locals.get? name = some v → f.lookup name = some symbol →
    m.stack (base + symbol.slot.distance) = v.word
  output : m.output = Bytes.ofText s.output

theorem Represents.congr (h : env.Represents f base s m) (hframe : env.InFrame base m')
    (hstack : ∀ a, base + 64 ≤ a → m'.stack a = m.stack a) (hlocals : s'.locals = s.locals)
    (houtput : m'.output = Bytes.ofText s'.output) : env.Represents f base s' m' where
  frame := hframe
  slots name v symbol hv hs := by
    rw [hlocals] at hv
    have hdistance : symbol.slot.distance = 64 + 8 * symbol.slot.index.toNat := rfl
    rw [hstack _ (by omega), h.slots name v symbol hv hs]
  output := houtput

theorem Represents.quiet {d : Nat} (h : env.Represents f base s m) (hm : m.Quiet d m')
    (hlocals : s'.locals = s.locals) (houtput : m'.output = Bytes.ofText s'.output) :
    env.Represents f base s' m' :=
  h.congr (h.frame.quiet hm) (fun a ha => hm.stack a (by have := h.frame.below; omega)) hlocals
    houtput

theorem Represents.pushed {d : Nat} {x : BitVec 64} (h : env.Represents f base s m)
    (hm : Pushed d m x m') (hl : env.stackLow + 16 ≤ m.sp.toNat) (hlocals : s'.locals = s.locals)
    (houtput : m'.output = Bytes.ofText s'.output) : env.Represents f base s' m' :=
  h.congr (hm.inFrame h.frame hl) (fun a ha => hm.stack a (by have := h.frame.below; omega))
    hlocals houtput

/-- There is stack for so many frames. -/
def HasRoom (env : Process image) (room : Nat) (m : Machine) : Prop :=
  env.stackLow + frameBytes * room ≤ m.sp.toNat

theorem HasRoom.succ {room : Nat} (h : env.HasRoom (room + 1) m) :
    env.stackLow + frameBytes * room + 2208 ≤ m.sp.toNat := by
  have hsucc : frameBytes * (room + 1) = frameBytes * room + 2208 := Nat.mul_succ _ _
  unfold HasRoom at h
  omega

theorem HasRoom.pred {room : Nat} (h : env.HasRoom (room + 1) m) : env.HasRoom room m := by
  have := h.succ
  unfold HasRoom
  omega

theorem HasRoom.pushed {room d : Nat} {x : BitVec 64} (h : env.HasRoom (room + 1) m)
    (hm : Pushed d m x m') : env.HasRoom room m' := by
  have := h.succ
  unfold HasRoom
  rw [hm.toNat_sp]
  omega

theorem HasRoom.of_sp {room : Nat} (h : env.HasRoom room m) (hm : m'.sp = m.sp) :
    env.HasRoom room m' := by
  unfold HasRoom
  rw [hm]
  exact h

/-! ## Expressions -/

/-- The code does what the evaluation from `s` to `s'` does. It needs stack for so many frames. -/
structure Computes (env : Process image) (place : Label → Nat) (table : Bindings Function)
    (f : Frame) (room d : Nat) (c : Lower.ValueCode) (s : State) (v : Value) (s' : State) :
    Prop where
  kind : v.HasWord c.kind
  fits : s'.Fits table f
  locals : s'.locals = s.locals
  code : ∀ base m k, env.Represents f base s m → env.HasRoom room m →
    env.Installed place k c.code →
    env.Yields d k (k + Code.size c.code) m v.word (Bytes.ofText s'.output)

variable {room d : Nat} {s₁ s₂ : State} {v w r : Value}

theorem computes_constant {kind : Scalar} (hs : s.Fits table f) (hv : v.HasWord kind) :
    env.Computes place table f room d ⟨kind, Lower.constant .x0 v.word⟩ s v s where
  kind := hv
  fits := hs
  locals := rfl
  code base m k hm _ hk := by
    rw [← hm.output]
    exact .of_put (hk.constant .x0 v.word (by decide))

theorem computes_var {name : String} {symbol : Symbol} (hf : f.Ints) (hs : s.Fits table f)
    (hv : s.locals.get? name = some v) (hsymbol : f.lookup name = some symbol) :
    env.Computes place table f room d ⟨.int, [Lower.loadX .x0 symbol.slot]⟩ s v s where
  kind := (hs.locals name v hv).1
  fits := hs
  locals := rfl
  code base m k hm _ hk := by
    rw [← hm.output, ← hm.slots name v symbol hv hsymbol]
    have hslot := (hf.symbol name symbol hsymbol).2.2
    have hle := hf.used_le
    have hload := ((installed_cons ..).mp hk).1
    exact .of_put (hload.loadX hm.frame symbol.slot (by omega) (by decide))

theorem Computes.binary {op : BinaryOp} {left right c : Lower.ValueCode}
    (hleft : env.Computes place table f room d left s v s₁)
    (hright : env.Computes place table f room d right s₁ w s₂)
    (hc : Lower.binary op left right = .ok c) (hr : Value.binary op v w = .ok r) :
    env.Computes place table f (room + 1) d c s r s₂ where
  kind := hasWord_binary hleft.kind.ne_float hright.kind.ne_float
    (encodes_word env hleft.kind) (encodes_word env hright.kind) hc hr
  fits := hright.fits
  locals := hright.locals.trans hleft.locals
  code base m k hm hroom hk := by
    have hlow := hroom.succ
    have hhigh := hm.frame.high
    have hbelow := hm.frame.below
    refine Installed.binary (fun k hk => hleft.code base m k hm hroom.pred hk) ?_ hm.frame.aligned
      (by omega) (by omega) hleft.kind.ne_float hright.kind.ne_float (encodes_word env hleft.kind)
      (encodes_word env hright.kind) hc hr hk
    intro k x m₂ hk hpushed hout
    exact hright.code base m₂ k (hm.pushed hpushed (by omega) hleft.locals hout)
      (hroom.pushed hpushed) hk

theorem Computes.unary {op : UnaryOp} {operand c : Lower.ValueCode}
    (h : env.Computes place table f room d operand s v s₁)
    (hc : Lower.unary op operand = .ok c) (hr : Value.unary op v = .ok r) :
    env.Computes place table f (room + 1) d c s r s₁ where
  kind := hasWord_unary h.kind.ne_float (encodes_word env h.kind) hc hr
  fits := h.fits
  locals := h.locals
  code base m k hm hroom hk :=
    Installed.unary h.kind.ne_float (encodes_word env h.kind)
      (fun hk => h.code base m k hm hroom.pred hk) hc hr hk

/-! ## Arguments -/

theorem toNat_staging (i : Nat) (hi : i < 9) : (XReg.staging i).num.toNat = 19 + i := by
  simp only [XReg.staging, BitVec.toNat_ofNat]
  omega

theorem toNat_argument (i : Nat) (hi : i < 8) : (XReg.argument i).num.toNat = i := by
  simp only [XReg.argument, BitVec.toNat_ofNat]
  omega

theorem ne_of_toNat_lt {n : BitVec 5} (h : n.toNat < 28) : n ≠ 28 ∧ n ≠ 29 ∧ n ≠ 31 := by
  refine ⟨?_, ?_, ?_⟩ <;> rintro rfl <;> exact absurd h (by decide)

theorem not_survives_staging (d : Nat) (hd : d < 9) :
    ¬ Machine.Survives d (XReg.staging d).num := by
  have h := toNat_staging d hd
  obtain ⟨h28, h29, h31⟩ := ne_of_toNat_lt (n := (XReg.staging d).num) (by omega)
  rintro (⟨-, hlt⟩ | heq | heq | heq)
  · omega
  · exact h28 heq
  · exact h29 heq
  · exact h31 heq

/-- The code computes the arguments of a call and stages them. -/
structure Stages (env : Process image) (place : Label → Nat) (table : Bindings Function)
    (f : Frame) (room d : Nat) (c : Code) (s : State) (vs : List Value) (s' : State) : Prop where
  kinds : ∀ v ∈ vs, v.HasWord .int
  fits : s'.Fits table f
  locals : s'.locals = s.locals
  code : ∀ base m k, env.Represents f base s m → env.HasRoom room m → env.Installed place k c →
    env.Leads (env.pc k) m (env.pc (k + Code.size c)) fun m' =>
      (∀ i v, vs[i]? = some v → m'.x (XReg.staging (d + i)).num = v.word) ∧ m.Quiet d m' ∧
        m'.output = Bytes.ofText s'.output

theorem stages_nil (hs : s.Fits table f) : env.Stages place table f room d [] s [] s where
  kinds := by simp
  fits := hs
  locals := rfl
  code base m k hm _ _ := .refl ⟨by simp, .refl d m, hm.output⟩

theorem Computes.stage {value : Code} {rest : Code} {vs : List Value} (hd : d < 9)
    (h : env.Computes place table f room d ⟨.int, value⟩ s v s₁)
    (hrest : env.Stages place table f room (d + 1) rest s₁ vs s₂) :
    env.Stages place table f room d (value ++ .instr (.mov (.staging d) .x0) :: rest) s (v :: vs)
      s₂ where
  kinds := by
    intro w hw
    rcases List.mem_cons.mp hw with rfl | hw
    · exact h.kind
    · exact hrest.kinds w hw
  fits := hrest.fits
  locals := hrest.locals.trans h.locals
  code base m k hm hroom hk := by
    rw [installed_append, installed_cons] at hk
    obtain ⟨hvalue, hmov, hrest'⟩ := hk
    have hmoves (m : Machine) : env.perform? m (.mov (.staging d) .x0) =
        some (m.put (.staging d) (m.get .x0)) :=
      congrArg some (m.set_of_ne _ _ (ne_of_toNat_lt (by rw [toNat_staging d hd]; omega)).2.2)
    refine (h.code base m k hm hroom hvalue).trans ?_
    rintro m₁ ⟨hx0, hquiet₁, hout₁⟩
    refine (hmov.instr trivial (hmoves m₁)).trans ?_
    rintro m₂ rfl
    have hquiet₂ := hquiet₁.trans (Machine.quiet_put d m₁ (.staging d) (m₁.get .x0)
      (not_survives_staging d hd))
    refine ((hrest.code base _ _ (hm.quiet hquiet₂ h.locals hout₁) (hroom.of_sp hquiet₂.sp)
      hrest').mono ?_).cast (by simp only [Code.size_append, Code.size_cons, Nat.add_assoc])
    rintro m' ⟨hstaged, hquiet, hout⟩
    refine ⟨?_, hquiet₂.trans (hquiet.mono (Nat.le_succ d)), hout⟩
    intro i w hw
    cases i with
    | zero =>
      cases hw
      have hsurvives : Machine.Survives (d + 1) (XReg.staging d).num := by
        have := toNat_staging d hd
        exact .inl ⟨by omega, by omega⟩
      rw [Nat.add_zero, hquiet.regs _ hsurvives, Machine.x_put_self, hx0]
    | succ i =>
      rw [show d + (i + 1) = d + 1 + i by omega]
      exact hstaged i w hw

theorem performAll?_passArguments (env : Process image) (m : Machine) (d count : Nat)
    (hcount : count ≤ 8) (hd : d + count ≤ 9) :
    ∃ m', env.performAll? m ((List.range count).map fun i => .mov (.argument i) (.staging (d + i)))
        = some m' ∧
      (∀ i < count, m'.x (XReg.argument i).num = m.x (XReg.staging (d + i)).num) ∧
      (∀ n : BitVec 5, 8 ≤ n.toNat → m'.x n = m.x n) ∧ m'.stack = m.stack ∧
      m'.output = m.output := by
  induction count with
  | zero => exact ⟨m, rfl, by simp, fun _ _ => rfl, rfl, rfl⟩
  | succ count ih =>
    obtain ⟨m₁, hall, hpassed, hregs, hstack, houtput⟩ := ih (by omega) (by omega)
    have hsource := toNat_staging (d + count) (by omega)
    have htarget := toNat_argument count (by omega)
    have hmove : env.perform? m₁ (.mov (.argument count) (.staging (d + count))) =
        some (m₁.put (.argument count) (m.x (XReg.staging (d + count)).num)) := by
      rw [← hregs _ (by omega), ← m₁.get_of_ne _ (ne_of_toNat_lt (by omega)).2.2]
      exact congrArg some (m₁.set_of_ne _ _ (ne_of_toNat_lt (by omega)).2.2)
    refine ⟨m₁.put (.argument count) (m.x (XReg.staging (d + count)).num), ?_, ?_, ?_, hstack,
      houtput⟩
    · rw [List.range_succ, List.map_append, performAll?_append m m₁ _ _ hall]
      simp only [List.map_cons, List.map_nil, performAll?_cons, hmove, Option.bind_some,
        performAll?_nil]
    · intro i hi
      by_cases heq : i = count
      · rw [heq, Machine.x_put_self]
      · have hother := toNat_argument i (by omega)
        rw [Machine.x_put_of_ne, hpassed i (by omega)]
        intro h
        rw [h] at hother
        omega
    · intro n hn
      rw [Machine.x_put_of_ne, hregs n hn]
      rintro rfl
      omega

/-! ## Calls -/

/-- The code of a function, entered with the arguments in registers, does what its run from `s` to
`s'` does, and returns. -/
structure Returns (env : Process image) (room : Nat) (start : BitVec 64) (s : State)
    (args : List Value) (v : Value) (s' : State) : Prop where
  kind : v.HasWord .int
  functions : s'.functions = s.functions
  enums : s'.enums = s.enums
  code : ∀ m, m.sp.toNat % 16 = 0 → env.HasRoom room m → m.sp.toNat ≤ env.stackHigh →
    (∀ i v, args[i]? = some v → m.x (XReg.argument i).num = v.word) →
    m.output = Bytes.ofText s.output →
    env.Leads start m (m.x 30) fun m' =>
      m'.get .x0 = v.word ∧ m.Kept m' ∧ m'.output = Bytes.ofText s'.output

theorem Installed.passArguments {k count : Nat} (hcount : count ≤ 8) (hd : d + count ≤ 9)
    (h : env.Installed place k (Lower.passArguments d count)) :
    env.Leads (env.pc k) m (env.pc (k + Code.size (Lower.passArguments d count))) fun m' =>
      (∀ i < count, m'.x (XReg.argument i).num = m.x (XReg.staging (d + i)).num) ∧
        m.Quiet d m' ∧ m'.output = m.output := by
  obtain ⟨m', hall, hpassed, hregs, hstack, houtput⟩ :=
    performAll?_passArguments env m d count hcount hd
  have hcode : Lower.passArguments d count =
      ((List.range count).map fun i => .mov (.argument i) (.staging (d + i))).map .instr := by
    simp [Lower.passArguments]
  rw [hcode] at h ⊢
  rw [size_map_instr]
  refine (Installed.instrs _ h (by simp [A64.Instr.Fits]) hall).mono ?_
  rintro m' rfl
  refine ⟨hpassed, ⟨?_, by simp [hstack]⟩, houtput⟩
  intro n hn
  refine hregs n ?_
  rcases hn with ⟨hl, -⟩ | rfl | rfl | rfl
  · omega
  all_goals decide

theorem Stages.call {code : Code} {entry : Label} {args : List Value} (hcount : args.length ≤ 8)
    (hd : d + args.length ≤ 9) (hargs : env.Stages place table f room d code s args s₁)
    (hcall : env.Returns (room + 1) (env.pc (place entry)) s₁ args v s₂)
    (hlocals : s₂.locals = s₁.locals) :
    env.Computes place table f (room + 1) d
      ⟨.int, code ++ Lower.passArguments d args.length ++ [.call entry]⟩ s v s₂ where
  kind := hcall.kind
  fits := hargs.fits.of_locals hlocals hcall.functions hcall.enums
  locals := hlocals.trans hargs.locals
  code base m k hm hroom hk := by
    have hhigh := hm.frame.high
    have hbelow := hm.frame.below
    rw [installed_append, installed_append, installed_cons] at hk
    obtain ⟨⟨hcode, hpass⟩, hjump, -⟩ := hk
    refine (hargs.code base m k hm hroom.pred hcode).trans ?_
    rintro m₁ ⟨hstaged, hquiet₁, hout₁⟩
    refine (hpass.passArguments hcount hd).trans ?_
    rintro m₂ ⟨hpassed, hquiet₂, hout₂⟩
    rw [Code.size_append, ← Nat.add_assoc] at hjump
    refine hjump.call.trans ?_
    rintro _ rfl
    let back := env.pc (k + Code.size code + Code.size (Lower.passArguments d args.length) + 1)
    have hlink : ¬ Machine.Survives d XReg.x30.num := by
      have h30 : XReg.x30.num.toNat = 30 := rfl
      rintro (⟨-, hlt⟩ | heq | heq | heq)
      · omega
      all_goals exact absurd heq (by decide)
    have hquiet := (hquiet₁.trans hquiet₂).trans (Machine.quiet_put d m₂ .x30 back hlink)
    have hsp := hquiet.sp
    have hpassed' (i : Nat) (w : Value) (hw : args[i]? = some w) :
        (m₂.put .x30 back).x (XReg.argument i).num = w.word := by
      have hi : i < args.length := (List.getElem?_eq_some_iff.mp hw).1
      have hne : (XReg.argument i).num ≠ XReg.x30.num := by
        intro heq
        have := toNat_argument i (by omega)
        rw [heq] at this
        have h30 : XReg.x30.num.toNat = 30 := rfl
        omega
      rw [m₂.x_put_of_ne _ _ _ hne, hpassed i hi, hstaged i w hw]
    have hreturn := hcall.code (m₂.put .x30 back) (by rw [hsp]; exact hm.frame.aligned)
      (hroom.of_sp hsp) (by rw [hsp]; omega) hpassed' (hout₂.trans hout₁)
    have hback : (m₂.put .x30 back).x 30 = back := m₂.x_put_self .x30 back
    rw [hback] at hreturn
    refine (hreturn.mono ?_).cast (by simp [Line.size, Line.body, Nat.add_assoc])
    rintro m' ⟨hx0, hkept, hout⟩
    exact ⟨hx0, hquiet.trans (hkept.quiet (by omega)), hout⟩

/-! ## Evaluation -/

section Evaluation

variable (env place table) (callees : Bindings Callee) (rounds depth : Nat)

/-- Calls whose bodies nest no deeper do what the evaluator does. -/
def CallsReturn : Prop :=
  ∀ name g callee args flow s s', table.get? name = some g → callees.get? name = some callee →
    g.params.length = args.length → args.length ≤ 8 → (∀ v ∈ args, v.HasWord .int) →
    s.functions = table → s.enums = [] →
    Run.inFrame (Bindings.setAll [] (g.params.zip args))
      (Run.forEach (Run.execWithin rounds depth) g.body) s = .done flow s' →
    env.Returns (depth + 1) (env.pc (place callee.entry)) s args (Run.result flow) s'

/-- Expressions that nest no deeper do what the evaluator does. -/
def ExprsCompute : Prop :=
  ∀ e scope d c f s v s', e.basic = true → Lower.expr scope d e = .ok c →
    scope.functions = callees → f.Ints → scope.frame.Ints → scope.frame.Extends f →
    s.Fits table f → Run.evalWithin rounds depth e s = .done v s' →
    env.Computes place table f depth d c s v s'

end Evaluation

variable {callees : Bindings Callee} {rounds depth : Nat} {scope : Scope}
  (hexprs : ExprsCompute env place table callees rounds depth)
  (hcallees : scope.functions = callees) (hf : f.Ints) (hints : scope.frame.Ints)
  (hextends : scope.frame.Extends f)

include hexprs hcallees hf hints hextends

theorem stages_arguments {name : String} {args : List Expr} {code : Code} {vs : List Value}
    (hargs : Expr.allBasic args = true) (hd : d + args.length ≤ 9)
    (hcode : Lower.arguments scope d name args = .ok code) (hs : s.Fits table f)
    (heval : Run.mapAll (Run.evalWithin rounds depth) args s = .done vs s') :
    vs.length = args.length ∧ env.Stages place table f depth d code s vs s' := by
  induction args generalizing d code vs s with
  | nil =>
    obtain ⟨rfl, rfl⟩ := (Run.pure_done _ _ _ _).mp heval
    cases hcode
    exact ⟨rfl, stages_nil hs⟩
  | cons e rest ih =>
    simp only [Expr.allBasic, Bool.and_eq_true] at hargs
    obtain ⟨⟨kind, value⟩, rest', hvalue, hkind, hrest, rfl⟩ := Lower.arguments_cons hcode
    obtain rfl : kind = .int := hkind
    simp only [Run.mapAll, Run.bind_done, Run.pure_done] at heval
    obtain ⟨v, s₁, hv, vs, _, hvs, rfl, rfl⟩ := heval
    rw [List.length_cons] at hd
    have hfirst := hexprs e scope d _ f s v s₁ hargs.1 hvalue hcallees hf hints hextends hs hv
    obtain ⟨hlen, hstages⟩ := ih hargs.2 (by omega) hrest hfirst.fits hvs
    exact ⟨by simp [hlen], hfirst.stage (by omega) hstages⟩

theorem computes_succ (hcalls : CallsReturn env place table callees rounds depth) {e : Expr}
    {c : Lower.ValueCode} (he : e.basic = true) (hc : Lower.expr scope d e = .ok c)
    (hs : s.Fits table f) (hv : Run.evalWithin rounds (depth + 1) e s = .done v s') :
    env.Computes place table f (depth + 1) d c s v s' := by
  cases e with
  | int i =>
    obtain ⟨rfl, rfl⟩ := (Run.pure_done _ _ _ _).mp hv
    rw [Lower.expr] at hc
    cases hc
    exact computes_constant hs (v := .int i) trivial
  | bool b =>
    obtain ⟨rfl, rfl⟩ := (Run.pure_done _ _ _ _).mp hv
    rw [Lower.expr, ← Value.word_bool] at hc
    cases hc
    exact computes_constant hs (v := .bool b) trivial
  | var name =>
    rw [Lower.expr] at hc
    obtain ⟨symbol, hsymbol, rfl⟩ := Lower.varValue_int hints hc
    obtain ⟨rfl, hlocal | ⟨-, cases', henum, -⟩⟩ := (Run.getVar_done _ _ _ _).mp hv
    · exact computes_var hf hs hlocal (hextends.lookup name symbol hsymbol)
    · rw [hs.enums] at henum
      cases henum
  | binary op lhs rhs =>
    simp only [Expr.basic, Bool.and_eq_true] at he
    simp only [Lower.expr, bind_eq_ok] at hc
    obtain ⟨left, hleft, right, hright, hc⟩ := hc
    simp only [Run.evalWithin, Run.bind_done, Run.lift_done] at hv
    obtain ⟨a, s₁, ha, b, _, hb, hr, rfl⟩ := hv
    have hcomputes := hexprs lhs scope d left f s a s₁ he.1 hleft hcallees hf hints hextends hs ha
    exact hcomputes.binary (hexprs rhs scope d right f s₁ b _ he.2 hright hcallees hf hints
      hextends hcomputes.fits hb) hc hr
  | unary op operand =>
    simp only [Lower.expr, bind_eq_ok] at hc
    obtain ⟨value, hvalue, hc⟩ := hc
    simp only [Run.evalWithin, Run.bind_done, Run.lift_done] at hv
    obtain ⟨a, _, ha, hr, rfl⟩ := hv
    exact (hexprs operand scope d value f s a _ he hvalue hcallees hf hints hextends hs ha).unary
      hc hr
  | call name args =>
    simp only [Lower.expr, bind_eq_ok] at hc
    obtain ⟨callee, hcallee, code, hcode, hc⟩ := hc
    cases hc
    obtain ⟨hget, hcount, hd⟩ := Lower.callee_ok hcallee
    simp only [Run.evalWithin, Run.bind_done, Run.getFunction_done, Run.checkArity_done,
      Run.pure_done] at hv
    obtain ⟨g, _, ⟨hg, rfl⟩, _, _, ⟨harity, rfl⟩, vs, s₁, hvs, flow, _, hrun, rfl, rfl⟩ := hv
    obtain ⟨hlen, hstages⟩ :=
      stages_arguments hexprs hcallees hf hints hextends he hd hcode hs hvs
    have hframes := Run.relates_inFrame _ _
      (Run.relates_block (Run.frames_kept rounds depth).2 g.body) s₁ _ (by rw [hrun]; rfl)
    rw [← hlen] at hcount hd ⊢
    have hreturns := hcalls name g callee vs flow s₁ _ (hs.functions ▸ hg) (hcallees ▸ hget)
      (harity.trans hlen.symm) hcount hstages.kinds hstages.fits.functions hstages.fits.enums hrun
    exact hstages.call hcount hd hreturns hframes.locals
  | _ => cases he

end Process

end Armature
