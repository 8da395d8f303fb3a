import Armature.Lower.Stmt
import Armature.Proofs.Printing
import Armature.Proofs.Simulation

/-!
# Statements on integers

The code of a statement does to the slots of the frame what the statement does to the variables.
-/

namespace Armature

open A64 (Machine XReg)
open Asm (Code Image Label Line)

/-- The slot belongs to a variable. -/
def Frame.Owns (f : Frame) (slot : Slot) : Prop :=
  ∃ name symbol, f.lookup name = some symbol ∧ symbol.slot = slot

namespace Process

variable {image : Image} {env : Process image} {place : Label → Nat} {table : Bindings Function}
  {f : Frame} {base room used : Nat} {s s₁ s₂ : State} {m m₁ m₂ : Machine}

/-! ## What a statement may change -/

/-- What a statement leaves as it was. The first `used` slots are taken before it. -/
structure Steady (f : Frame) (used base : Nat) (m m' : Machine) : Prop where
  sp : m'.sp = m.sp
  slots : ∀ slot : Slot, slot.index.toNat < used → ¬ f.Owns slot →
    m'.stack (base + slot.distance) = m.stack (base + slot.distance)
  above : ∀ a, base + Frame.localBytes ≤ a → m'.stack a = m.stack a

theorem Steady.refl (f : Frame) (used base : Nat) (m : Machine) : Steady f used base m m :=
  ⟨rfl, fun _ _ _ => rfl, fun _ _ => rfl⟩

theorem Steady.trans (h : Steady f used base m m₁) (h' : Steady f used base m₁ m₂) :
    Steady f used base m m₂ where
  sp := h'.sp.trans h.sp
  slots slot hslot ho := (h'.slots slot hslot ho).trans (h.slots slot hslot ho)
  above a ha := (h'.above a ha).trans (h.above a ha)

theorem Steady.mono {used' : Nat} (h : Steady f used base m m₁) (hle : used' ≤ used) :
    Steady f used' base m m₁ where
  sp := h.sp
  slots slot hslot := h.slots slot (by omega)
  above := h.above

theorem steady_of_quiet {d : Nat} (hframe : env.InFrame base m) (h : m.Quiet d m₁) :
    Steady f used base m m₁ where
  sp := h.sp
  slots slot _ _ := h.stack _ (by have := hframe.below; omega)
  above a ha := h.stack a (by have := hframe.below; omega)

theorem steady_store {slot : Slot} (x : BitVec 64) (hslot : slot.index.toNat < 256)
    (ho : f.Owns slot) : Steady f used base m (m.store (base + slot.distance) x) where
  sp := rfl
  slots slot' _ ho' := by
    have hne : slot' ≠ slot := by
      rintro rfl
      exact ho' ho
    have := Slot.distance_ne hne
    rw [Machine.stack_store, if_neg (by omega)]
  above a ha := by
    have hbytes : Frame.localBytes = 2112 := rfl
    have hdistance : slot.distance = 64 + 8 * slot.index.toNat := rfl
    rw [Machine.stack_store, if_neg (by omega)]

/-! ## Variables -/

theorem Represents.set {name : String} {symbol : Symbol} {i : Int64} (hf : f.Ints)
    (hsymbol : f.lookup name = some symbol) (h : env.Represents f base s m) :
    env.Represents f base { s with locals := s.locals.set name (.int i) }
      (m.store (base + symbol.slot.distance) i.toBitVec) where
  frame := ⟨h.frame.register, h.frame.low, h.frame.below, h.frame.high, h.frame.aligned,
    h.frame.baseAligned⟩
  slots other v symbol' hv hsymbol' := by
    rw [Machine.stack_store]
    by_cases heq : name = other
    · subst heq
      rw [Bindings.get?_set_self] at hv
      rw [hsymbol] at hsymbol'
      cases hv
      cases hsymbol'
      rw [if_pos rfl]
      rfl
    · rw [Bindings.get?_set_of_ne _ _ heq] at hv
      have hne : symbol'.slot ≠ symbol.slot := fun hslot =>
        heq (hf.apart name other symbol symbol' hsymbol hsymbol' hslot.symm)
      have := Slot.distance_ne hne
      rw [if_neg (by omega)]
      exact h.slots other v symbol' hv hsymbol'
  output := h.output

/-! ## Runs of statements -/

/-- Where the code goes on after a statement. -/
def target (place : Label → Nat) (done : Label) (next : Nat) : Flow → Nat
  | .next => next
  | .returned _ => place done

/-- A value that is returned is in `x0`. -/
def Delivers (m : Machine) : Flow → Prop
  | .next => True
  | .returned v => m.get .x0 = v.word

/-- The code does what the statements do from `s` to `s'`. A return goes to the label `done`. -/
structure Executes (env : Process image) (place : Label → Nat) (table : Bindings Function)
    (f : Frame) (room used : Nat) (done : Label) (c : Code) (s : State) (flow : Flow)
    (s' : State) : Prop where
  fits : s'.Fits table f
  kind : ∀ v, flow = .returned v → v.HasWord .int
  code : ∀ base m k, env.Represents f base s m → m.sp.toNat = base → env.HasRoom room m →
    env.Installed place k c →
    env.Leads (env.pc k) m (env.pc (target place done (k + Code.size c) flow)) fun m' =>
      Delivers m' flow ∧ env.Represents f base s' m' ∧ Steady f used base m m'

variable {done : Label} {c c₁ c₂ : Code} {flow : Flow} {v : Value}

theorem executes_nil (hs : s.Fits table f) :
    env.Executes place table f room used done [] s .next s where
  fits := hs
  kind v hv := by cases hv
  code base m k hm _ _ _ := .refl ⟨trivial, hm, .refl f used base m⟩

theorem Executes.append {used' : Nat} (h₁ : env.Executes place table f room used done c₁ s .next s₁)
    (h₂ : env.Executes place table f room used' done c₂ s₁ flow s₂) (hle : used ≤ used') :
    env.Executes place table f room used done (c₁ ++ c₂) s flow s₂ where
  fits := h₂.fits
  kind := h₂.kind
  code base m k hm hsp hroom hk := by
    rw [installed_append] at hk
    refine (h₁.code base m k hm hsp hroom hk.1).trans ?_
    rintro m₁ ⟨-, hm₁, hsteady₁⟩
    rw [Code.size_append, ← Nat.add_assoc]
    refine (h₂.code base m₁ _ hm₁ (by rw [hsteady₁.sp]; exact hsp) (hroom.of_sp hsteady₁.sp)
      hk.2).mono ?_
    rintro m' ⟨hdelivers, hm', hsteady⟩
    exact ⟨hdelivers, hm', hsteady₁.trans (hsteady.mono hle)⟩

theorem Executes.returned (h : env.Executes place table f room used done c₁ s (.returned v) s₁) :
    env.Executes place table f room used done (c₁ ++ c₂) s (.returned v) s₁ where
  fits := h.fits
  kind := h.kind
  code base m k hm hsp hroom hk := h.code base m k hm hsp hroom ((installed_append ..).mp hk).1

theorem Executes.weaken {used' : Nat} (h : env.Executes place table f room used' done c s flow s₁)
    (hle : used ≤ used') : env.Executes place table f room used done c s flow s₁ where
  fits := h.fits
  kind := h.kind
  code base m k hm hsp hroom hk := by
    refine (h.code base m k hm hsp hroom hk).mono ?_
    rintro m' ⟨hdelivers, hm', hsteady⟩
    exact ⟨hdelivers, hm', hsteady.mono hle⟩

theorem Executes.mono (h : env.Executes place table f room used done c s flow s₁) :
    env.Executes place table f (room + 1) used done c s flow s₁ where
  fits := h.fits
  kind := h.kind
  code base m k hm hsp hroom hk := h.code base m k hm hsp hroom.pred hk

/-! ## Simple statements -/

variable {value : Lower.ValueCode}

theorem Computes.execute (h : env.Computes place table f room 0 value s v s₁) :
    env.Executes place table f room used done value.code s .next s₁ where
  fits := h.fits
  kind v hv := by cases hv
  code base m k hm _ hroom hk := by
    refine (h.code base m k hm hroom hk).mono ?_
    rintro m' ⟨-, hquiet, hout⟩
    exact ⟨trivial, hm.quiet hquiet h.locals hout, steady_of_quiet hm.frame hquiet⟩

theorem Computes.assign {code : Code} {name : String} {symbol : Symbol} {i : Int64} (hf : f.Ints)
    (h : env.Computes place table f room 0 ⟨.int, code⟩ s (.int i) s₁)
    (hsymbol : f.lookup name = some symbol) :
    env.Executes place table f room used done (code ++ [Lower.storeX .x0 symbol.slot]) s .next
      { s₁ with locals := s₁.locals.set name (.int i) } where
  fits := h.fits.set hsymbol
  kind v hv := by cases hv
  code base m k hm _ hroom hk := by
    have hslot := (hf.symbol name symbol hsymbol).2.2
    have hused := hf.used_le
    rw [installed_append, installed_cons] at hk
    refine (h.code base m k hm hroom hk.1).trans ?_
    rintro m₁ ⟨hx0, hquiet, hout⟩
    have hm₁ := hm.quiet hquiet h.locals hout
    refine ((hk.2.1.storeX hm₁.frame symbol.slot (by omega)).mono ?_).cast
      (by rw [Code.size_append, ← Nat.add_assoc]; rfl)
    rintro _ rfl
    rw [hx0]
    exact ⟨trivial, hm₁.set hf hsymbol, (steady_of_quiet hm.frame hquiet).trans
      (steady_store _ (by omega) ⟨name, symbol, hsymbol, rfl⟩)⟩

theorem Computes.ret {code : Code} (h : env.Computes place table f room 0 ⟨.int, code⟩ s v s₁) :
    env.Executes place table f room used done (code ++ [.jump done]) s (.returned v) s₁ where
  fits := h.fits
  kind w hw := by
    cases hw
    exact h.kind
  code base m k hm _ hroom hk := by
    rw [installed_append, installed_cons] at hk
    refine (h.code base m k hm hroom hk.1).trans ?_
    rintro m₁ ⟨hx0, hquiet, hout⟩
    refine hk.2.1.jump.mono ?_
    rintro _ rfl
    exact ⟨hx0, hm.quiet hquiet h.locals hout, steady_of_quiet hm.frame hquiet⟩

theorem Represents.printed {text : String} (hm : env.Represents f base s m)
    (hsp : m.sp.toNat = base) (h : Printed m (Bytes.ofText text) m₁) :
    env.Represents f base { s with output := s.output ++ text } m₁ ∧ Steady f used base m m₁ := by
  have hstack (a : Nat) (ha : base + 64 ≤ a) : m₁.stack a = m.stack a := h.stack a (by omega)
  refine ⟨?_, h.sp, ?_, ?_⟩
  · exact hm.congr (hm.frame.congr (h.saved 28 (by decide) (by decide)) h.sp) hstack rfl
      (by rw [h.output, hm.output, ← Bytes.ofText_append])
  · intro slot _ _
    have hdistance : slot.distance = 64 + 8 * slot.index.toNat := rfl
    exact hstack _ (by omega)
  · intro a ha
    have hbytes : Frame.localBytes = 2112 := rfl
    exact hstack a (by omega)

theorem Computes.print (h : env.Computes place table f room 0 value s v s₁) :
    env.Executes place table f room used done (value.code ++ Lower.printLine value.kind) s .next
      { s₁ with output := s₁.output ++ v.text ++ "\n" } where
  fits := h.fits.of_locals rfl rfl rfl
  kind v hv := by cases hv
  code base m k hm hsp hroom hk := by
    rw [installed_append] at hk
    refine (h.code base m k hm hroom hk.1).trans ?_
    rintro m₁ ⟨hx0, hquiet, hout⟩
    have hm₁ := hm.quiet hquiet h.locals hout
    have hsp₁ : m₁.sp.toNat = base := by rw [hquiet.sp]; exact hsp
    refine ((hk.2.printLine hm₁.frame h.kind hx0).mono ?_).cast
      (by rw [Code.size_append, ← Nat.add_assoc]; rfl)
    rintro m' hprinted
    obtain ⟨hm', hsteady⟩ := hm₁.printed hsp₁ hprinted
    rw [String.append_assoc]
    exact ⟨trivial, hm', (steady_of_quiet hm.frame hquiet).trans hsteady⟩

/-! ## Conditions -/

/-- The code goes on if the condition is met, and else to the label. -/
structure Decides (env : Process image) (place : Label → Nat) (table : Bindings Function)
    (f : Frame) (room : Nat) (otherwise : Label) (c : Code) (s : State) (met : Bool) (s' : State) :
    Prop where
  fits : s'.Fits table f
  locals : s'.locals = s.locals
  code : ∀ base m k, env.Represents f base s m → env.HasRoom room m → env.Installed place k c →
    env.Leads (env.pc k) m (env.pc (if met then k + Code.size c else place otherwise)) fun m' =>
      m.Quiet 0 m' ∧ m'.output = Bytes.ofText s'.output

variable {otherwise : Label} {left right : Lower.ValueCode} {w r : Value}

theorem Computes.decide (h : env.Computes place table f room 0 value s v s₁) :
    env.Decides place table f room otherwise
      (value.code ++ Lower.truth value.kind ++ [.jumpIfZero .x0 otherwise]) s v.truthy s₁ where
  fits := h.fits
  locals := h.locals
  code base m k hm hroom hk := by
    rw [installed_append, installed_append, installed_cons] at hk
    obtain ⟨⟨hvalue, htruth⟩, hjump, -⟩ := hk
    refine (Yields.after (h.code base m k hm hroom hvalue) fun m₁ hx0 =>
      htruth.truth 0 h.kind.ne_float (hx0 ▸ encodes_word env h.kind)).trans ?_
    rintro m₁ ⟨hx0, hquiet, hout⟩
    rw [Code.size_append, ← Nat.add_assoc] at hjump
    refine (hjump.jumpIfZero.mono ?_).cast ?_
    · rintro _ rfl
      exact ⟨hquiet, hout⟩
    · rw [hx0, Code.size_append, Code.size_append]
      cases v.truthy
      · rfl
      · simp only [if_true, if_neg (by decide : ¬ (1 : BitVec 64) = 0), Nat.add_assoc]
        rfl

theorem test_ints_ne {op : BinaryOp} {test : Lower.Test} (h : Lower.test? op = some test) :
    test.ints ≠ .al ∧ test.ints ≠ .nv ∧ op.isLogical = false := by
  cases op with
  | add | sub | mul | div | mod | and | or => cases h
  | _ =>
    cases h
    decide

theorem Computes.compare {op : BinaryOp} {test : Lower.Test} {cond : A64.Cond} {code : Code}
    (hleft : env.Computes place table f room 0 left s v s₁)
    (hright : env.Computes place table f room 0 right s₁ w s₂)
    (htest : Lower.test? op = some test)
    (hc : Lower.comparison op left right = .ok (cond, code))
    (hr : Value.binary op v w = .ok r) :
    env.Decides place table f (room + 1) otherwise (code ++ [.jumpIf cond.invert otherwise]) s
      r.truthy s₂ where
  fits := hright.fits
  locals := hright.locals.trans hleft.locals
  code base m k hm hroom hk := by
    have hlow := hroom.succ
    have hhigh := hm.frame.high
    have hbelow := hm.frame.below
    obtain ⟨hal, hnv, hop⟩ := test_ints_ne htest
    obtain ⟨a, b, ha, hb, rfl⟩ := Value.binary_of_word hop hleft.kind hright.kind hr
    rw [installed_append, installed_cons] at hk
    obtain ⟨hcode, hjump, -⟩ := hk
    obtain ⟨rfl, hleads⟩ := Installed.comparison
      (fun k hk => hleft.code base m k hm hroom.pred hk)
      (fun k x m₂ hk hpushed hout => hright.code base m₂ k
        (hm.pushed hpushed (by omega) hleft.locals hout) (hroom.pushed hpushed) hk)
      hm.frame.aligned (by omega) (by omega) hleft.kind.ne_float hright.kind.ne_float htest hc
      hcode
    refine hleads.trans ?_
    rintro m₁ ⟨hflags, hquiet, hout⟩
    refine (hjump.jumpIf.mono ?_).cast ?_
    · rintro _ rfl
      exact ⟨hquiet, hout⟩
    · rw [holds_invert _ _ hal hnv, hflags, holds_test op test htest, ← ha, ← hb,
        Code.size_append, ← Nat.add_assoc]
      cases test.ints.holds (.ofWords v.word w.word) <;> rfl

theorem decides_jumpUnless {callees : Bindings Callee} {rounds depth : Nat} {scope scope' : Scope}
    {e : Expr} (hexprs : ∀ n ≤ depth, ExprsCompute env place table callees rounds n)
    (hc : Lower.jumpUnless otherwise e scope = .ok (c, scope')) (he : e.basic = true)
    (hcallees : scope.functions = callees) (hf : f.Ints) (hints : scope.frame.Ints)
    (hextends : scope.frame.Extends f) (hs : s.Fits table f)
    (hv : Run.evalWithin rounds depth e s = .done v s₁) :
    env.Decides place table f depth otherwise c s v.truthy s₁ := by
  obtain ⟨-, ⟨value, hvalue, rfl⟩ | ⟨op, lhs, rhs, test, left, right, cond, code, rfl, htest, hleft,
    hright, hcomparison, rfl⟩⟩ := Lower.jumpUnless_ok _ _ _ _ _ hc
  · exact (hexprs depth (Nat.le_refl _) e scope 0 value f s v s₁ he hvalue hcallees hf hints
      hextends hs hv).decide
  · cases depth with
    | zero => cases hv
    | succ depth =>
      simp only [Expr.basic, Bool.and_eq_true] at he
      simp only [Run.evalWithin, Run.bind_done, Run.lift_done] at hv
      obtain ⟨a, s₂, ha, b, _, hb, hr, rfl⟩ := hv
      have hexprs' := hexprs depth (Nat.le_succ _)
      have hcomputes := hexprs' lhs scope 0 left f s a s₂ he.1 hleft hcallees hf hints hextends hs
        ha
      exact hcomputes.compare (hexprs' rhs scope 0 right f s₂ b _ he.2 hright hcallees hf hints
        hextends hcomputes.fits hb) htest hcomparison hr

/-! ## Conditional statements -/

theorem Decides.run {met : Bool} {k start : Nat}
    (h : env.Decides place table f room otherwise c s met s₁)
    (hbody : env.Executes place table f room used done c₁ s₁ flow s₂)
    (hm : env.Represents f base s m) (hsp : m.sp.toNat = base) (hroom : env.HasRoom room m)
    (hk : env.Installed place k c) (hstart : (if met then k + Code.size c else place otherwise) = start)
    (hk₁ : env.Installed place start c₁) :
    env.Leads (env.pc k) m (env.pc (target place done (start + Code.size c₁) flow)) fun m' =>
      Delivers m' flow ∧ env.Represents f base s₂ m' ∧ Steady f used base m m' := by
  subst hstart
  refine (h.code base m k hm hroom hk).trans ?_
  rintro m₁ ⟨hquiet, hout⟩
  refine (hbody.code base m₁ _ (hm.quiet hquiet h.locals hout) (by rw [hquiet.sp]; exact hsp)
    (hroom.of_sp hquiet.sp) hk₁).mono ?_
  rintro m' ⟨hdelivers, hm', hsteady⟩
  exact ⟨hdelivers, hm', (steady_of_quiet hm.frame hquiet).trans hsteady⟩

theorem Decides.skip (h : env.Decides place table f room otherwise c s false s₁) :
    env.Executes place table f room used done (c ++ c₁ ++ [.mark otherwise]) s .next s₁ where
  fits := h.fits
  kind v hv := by cases hv
  code base m k hm hsp hroom hk := by
    rw [installed_append, installed_append, installed_cons] at hk
    obtain ⟨⟨htest, -⟩, hmark, -⟩ := hk
    have hnil : env.Executes place table f room used done [] s₁ .next s₁ := executes_nil h.fits
    refine (h.run hnil hm hsp hroom htest (hmark.marked otherwise rfl) ?_).cast ?_
    · intro q l hl
      cases hl
    · simp [target, Line.size, Line.body]

theorem Decides.enter (h : env.Decides place table f room otherwise c s true s₁)
    (hbody : env.Executes place table f room used done c₁ s₁ flow s₂) :
    env.Executes place table f room used done (c ++ c₁ ++ [.mark otherwise]) s flow s₂ where
  fits := hbody.fits
  kind := hbody.kind
  code base m k hm hsp hroom hk := by
    rw [installed_append, installed_append] at hk
    refine (h.run hbody hm hsp hroom hk.1.1 rfl hk.1.2).cast ?_
    simp [Line.size, Line.body, Nat.add_assoc]

theorem Decides.first {endIf : Label} (h : env.Decides place table f room otherwise c s true s₁)
    (hbody : env.Executes place table f room used done c₁ s₁ flow s₂) :
    env.Executes place table f room used done
      (c ++ c₁ ++ [.jump endIf, .mark otherwise] ++ c₂ ++ [.mark endIf]) s flow s₂ where
  fits := hbody.fits
  kind := hbody.kind
  code base m k hm hsp hroom hk := by
    simp only [installed_append, installed_cons] at hk
    obtain ⟨⟨⟨⟨htest, hthen⟩, hjump, -⟩, -⟩, hmark, -⟩ := hk
    have hrun := h.run hbody hm hsp hroom htest rfl hthen
    cases flow with
    | returned v => exact hrun
    | next =>
      refine hrun.trans ?_
      rintro m₁ hm₁
      rw [Code.size_append, ← Nat.add_assoc] at hjump
      refine (hjump.jump.mono ?_).cast ?_
      · rintro _ rfl
        exact hm₁
      · rw [hmark.marked endIf rfl]
        simp [target, Line.size, Line.body]

theorem Decides.second {endIf : Label} (h : env.Decides place table f room otherwise c s false s₁)
    (hbody : env.Executes place table f room used done c₂ s₁ flow s₂) :
    env.Executes place table f room used done
      (c ++ c₁ ++ [.jump endIf, .mark otherwise] ++ c₂ ++ [.mark endIf]) s flow s₂ where
  fits := hbody.fits
  kind := hbody.kind
  code base m k hm hsp hroom hk := by
    simp only [installed_append, installed_cons] at hk
    obtain ⟨⟨⟨⟨htest, -⟩, -, hmark, -⟩, helse⟩, -⟩ := hk
    have hpos : k + Code.size (c ++ c₁ ++ [.jump endIf, .mark otherwise]) =
        k + Code.size (c ++ c₁) + Line.size (.jump endIf) := by
      simp [Line.size, Line.body, Nat.add_assoc]
    rw [hpos] at helse
    refine (h.run hbody hm hsp hroom htest (hmark.marked otherwise rfl) helse).cast ?_
    simp [Line.size, Line.body, Nat.add_assoc]

end Process

end Armature
