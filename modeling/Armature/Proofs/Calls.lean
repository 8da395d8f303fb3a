import Armature.Lower.Program
import Armature.Proofs.Computing

/-!
# Entering and leaving functions

The prologue saves registers above the slots of the new frame, and the epilogue brings them back
from there.
-/

namespace Armature.Process

open A64 (Instr Machine XReg)
open Asm (Code Image Label Line)

variable {image : Image} {env : Process image} {place : Label → Nat} {k : Nat}

/-! ## Pairs of registers on the stack -/

/-- What the pairs of registers held in `m₀` is on the stack, the first pair right below `top`. -/
def Spilled (m₀ m : Machine) : Nat → List (XReg × XReg) → Prop
  | _, [] => True
  | top, p :: rest =>
    m.stack (top - 16) = m₀.x p.1.num ∧ m.stack (top - 8) = m₀.x p.2.num ∧
      Spilled m₀ m (top - 16) rest

theorem Spilled.congr {m₀ m₁ m m' : Machine} {top : Nat} {pairs : List (XReg × XReg)}
    (h : Spilled m₀ m top pairs) (bottom : Nat) (hbottom : bottom + 16 * pairs.length ≤ top)
    (hregs : ∀ p ∈ pairs, m₁.x p.1.num = m₀.x p.1.num ∧ m₁.x p.2.num = m₀.x p.2.num)
    (hstack : ∀ a, bottom ≤ a → a < top → m'.stack a = m.stack a) :
    Spilled m₁ m' top pairs := by
  induction pairs generalizing top with
  | nil => trivial
  | cons p rest ih =>
    obtain ⟨h₁, h₂, hrest⟩ := h
    obtain ⟨hp₁, hp₂⟩ := hregs p List.mem_cons_self
    rw [List.length_cons] at hbottom
    refine ⟨?_, ?_, ih hrest (by omega) (fun p hp => hregs p (List.mem_cons_of_mem _ hp)) ?_⟩
    · rw [hp₁, hstack _ (by omega) (by omega), h₁]
    · rw [hp₂, hstack _ (by omega) (by omega), h₂]
    · intro a hl hu
      exact hstack a hl (by omega)

theorem perform?_savePair (env : Process image) (m : Machine) (p : XReg × XReg)
    (h₁ : p.1.num ≠ 31) (h₂ : p.2.num ≠ 31)
    (haligned : m.sp.toNat % 16 = 0) (hl : env.stackLow + 16 ≤ m.sp.toNat)
    (hu : m.sp.toNat ≤ env.stackHigh) :
    ∃ m', env.perform? m (Lower.savePair p) = some m' ∧ m'.sp.toNat = m.sp.toNat - 16 ∧
      m'.stack (m.sp.toNat - 16) = m.x p.1.num ∧ m'.stack (m.sp.toNat - 8) = m.x p.2.num ∧
      (∀ a, m.sp.toNat ≤ a → m'.stack a = m.stack a) ∧ (∀ n, n ≠ 31 → m'.x n = m.x n) ∧
      m'.output = m.output := by
  have hneg : (-16 : BitVec 16).signExtend 64 = -16 := by decide
  have hnat : (m.sp - 16).toNat = m.sp.toNat - 16 := by bv_omega
  have hnat' : (m.sp - 16 + 8).toNat = m.sp.toNat - 8 := by bv_omega
  have hstore := env.store?_stack m (m.sp - 16) (m.get p.1) (by omega) (by omega) (by omega)
  have hstore' := env.store?_stack (m.store (m.sp - 16).toNat (m.get p.1)) (m.sp - 16 + 8)
    (m.get p.2) (by omega) (by omega) (by omega)
  rw [hnat] at hstore hstore'
  rw [hnat'] at hstore'
  refine ⟨((m.store (m.sp.toNat - 16) (m.get p.1)).store (m.sp.toNat - 8) (m.get p.2)).put .sp
    (m.sp - 16), ?_, ?_, ?_, ?_, ?_, ?_, rfl⟩
  · simp only [Lower.savePair, perform?, base?_sp m haligned, Option.bind_eq_bind, Option.bind_some,
      hneg, ← BitVec.sub_eq_add_neg, hstore, hstore']
    rfl
  · rw [← hnat]
    exact congrArg BitVec.toNat (A64.Machine.x_put_self _ .sp _)
  · rw [A64.Machine.stack_put, A64.Machine.stack_store, if_neg (by omega), A64.Machine.stack_store,
      if_pos rfl, m.get_of_ne _ h₁]
  · rw [A64.Machine.stack_put, A64.Machine.stack_store, if_pos rfl, m.get_of_ne _ h₂]
  · intro a ha
    rw [A64.Machine.stack_put, A64.Machine.stack_store, if_neg (by omega), A64.Machine.stack_store,
      if_neg (by omega)]
  · intro n hn
    exact A64.Machine.x_put_of_ne _ .sp n _ hn

theorem perform?_restorePair (env : Process image) (m : Machine) (p : XReg × XReg) (h₁ : p.1.num ≠ 31)
    (h₂ : p.2.num ≠ 31) (haligned : m.sp.toNat % 16 = 0) (hl : env.stackLow ≤ m.sp.toNat)
    (hu : m.sp.toNat + 16 ≤ env.stackHigh) (hhigh : m.sp.toNat + 16 < 2 ^ 64) :
    ∃ m', env.perform? m (Lower.restorePair p) = some m' ∧ m'.sp.toNat = m.sp.toNat + 16 ∧
      (∀ n, n ≠ 31 → m'.x n = if n = p.2.num then m.stack (m.sp.toNat + 8)
        else if n = p.1.num then m.stack m.sp.toNat else m.x n) ∧
      m'.stack = m.stack ∧ m'.output = m.output := by
  have hpos : (16 : BitVec 16).signExtend 64 = 16 := by decide
  have hnat : (m.sp + 8).toNat = m.sp.toNat + 8 := by bv_omega
  have hload := env.load?_stack m m.sp (by omega) hl (by omega)
  have hload' := env.load?_stack m (m.sp + 8) (by omega) (by omega) (by omega)
  rw [hnat] at hload'
  refine ⟨((m.put .sp (m.sp + 16)).put p.1 (m.stack m.sp.toNat)).put p.2
    (m.stack (m.sp.toNat + 8)), ?_, ?_, ?_, rfl, rfl⟩
  · simp only [Lower.restorePair, perform?, base?_sp m haligned, Option.bind_eq_bind,
      Option.bind_some, hpos, hload, hload', A64.Machine.set_of_ne _ _ _ h₁,
      A64.Machine.set_of_ne _ _ _ h₂]
    rfl
  · rw [A64.Machine.sp_put_of_ne _ _ _ h₂, A64.Machine.sp_put_of_ne _ _ _ h₁]
    have : (m.put .sp (m.sp + 16)).sp = m.sp + 16 := m.x_put_self .sp _
    rw [this]
    bv_omega
  · intro n hn
    by_cases hn₂ : n = p.2.num
    · rw [if_pos hn₂, hn₂, A64.Machine.x_put_self]
    · rw [if_neg hn₂, A64.Machine.x_put_of_ne _ _ _ _ hn₂]
      by_cases hn₁ : n = p.1.num
      · rw [if_pos hn₁, hn₁, A64.Machine.x_put_self]
      · rw [if_neg hn₁, A64.Machine.x_put_of_ne _ _ _ _ hn₁, m.x_put_of_ne .sp n _ hn]

theorem performAll?_append (m m₁ : Machine) (is js : List Instr)
    (h : env.performAll? m is = some m₁) :
    env.performAll? m (is ++ js) = env.performAll? m₁ js := by
  rw [performAll?] at h
  rw [performAll?, List.foldlM_append, h]
  rfl

theorem performAll?_save (env : Process image) (m : Machine) (pairs : List (XReg × XReg))
    (hpairs : ∀ p ∈ pairs, p.1.num ≠ 31 ∧ p.2.num ≠ 31) (haligned : m.sp.toNat % 16 = 0)
    (hl : env.stackLow + 16 * pairs.length ≤ m.sp.toNat) (hu : m.sp.toNat ≤ env.stackHigh) :
    ∃ m', env.performAll? m (pairs.map Lower.savePair) = some m' ∧
      m'.sp.toNat = m.sp.toNat - 16 * pairs.length ∧ Spilled m m' m.sp.toNat pairs ∧
      (∀ a, m.sp.toNat ≤ a → m'.stack a = m.stack a) ∧ (∀ n, n ≠ 31 → m'.x n = m.x n) ∧
      m'.output = m.output := by
  induction pairs generalizing m with
  | nil => exact ⟨m, rfl, by simp, trivial, fun _ _ => rfl, fun _ _ => rfl, rfl⟩
  | cons p rest ih =>
    rw [List.length_cons] at hl
    obtain ⟨hp₁, hp₂⟩ := hpairs p List.mem_cons_self
    obtain ⟨m₁, hpush, hsp₁, hfst, hsnd, hstack₁, hregs₁, houtput₁⟩ :=
      perform?_savePair env m p hp₁ hp₂ haligned (by omega) hu
    obtain ⟨m', hrest, hsp, hspilled, hstack, hregs, houtput⟩ := ih m₁
      (fun p hp => hpairs p (List.mem_cons_of_mem _ hp)) (by omega) (by omega) (by omega)
    rw [hsp₁] at hspilled hstack
    refine ⟨m', ?_, by rw [hsp, hsp₁, List.length_cons]; omega, ⟨?_, ?_, ?_⟩, ?_, ?_,
      houtput.trans houtput₁⟩
    · rw [List.map_cons, performAll?_cons, hpush, Option.bind_some, hrest]
    · rw [hstack _ (by omega), hfst]
    · rw [hstack _ (by omega), hsnd]
    · refine hspilled.congr (m.sp.toNat - 16 - 16 * rest.length) (by omega) ?_ fun _ _ _ => rfl
      intro q hq
      obtain ⟨hq₁, hq₂⟩ := hpairs q (List.mem_cons_of_mem _ hq)
      exact ⟨(hregs₁ _ hq₁).symm, (hregs₁ _ hq₂).symm⟩
    · intro a ha
      rw [hstack a (by omega), hstack₁ a ha]
    · intro n hn
      rw [hregs n hn, hregs₁ n hn]

/-- The numbers of the registers in the pairs. -/
def registers (pairs : List (XReg × XReg)) : List (BitVec 5) :=
  pairs.flatMap fun p => [p.1.num, p.2.num]

theorem performAll?_restore (env : Process image) (m₀ m : Machine) (top : Nat)
    (pairs : List (XReg × XReg)) (hpairs : ∀ p ∈ pairs, p.1.num ≠ 31 ∧ p.2.num ≠ 31)
    (h : Spilled m₀ m top pairs)
    (hsp : m.sp.toNat + 16 * pairs.length = top) (haligned : top % 16 = 0)
    (hl : env.stackLow ≤ m.sp.toNat) (hu : top ≤ env.stackHigh) (hhigh : top < 2 ^ 64) :
    ∃ m', env.performAll? m (pairs.reverse.map Lower.restorePair) = some m' ∧
      m'.sp.toNat = top ∧ (∀ n ∈ registers pairs, m'.x n = m₀.x n) ∧
      (∀ n, n ∉ registers pairs → n ≠ 31 → m'.x n = m.x n) ∧ m'.stack = m.stack ∧
      m'.output = m.output := by
  induction pairs generalizing top with
  | nil => exact ⟨m, rfl, by simpa using hsp, by simp [registers], fun _ _ _ => rfl, rfl, rfl⟩
  | cons p rest ih =>
    rw [List.length_cons] at hsp
    obtain ⟨hfst, hsnd, hspilled⟩ := h
    obtain ⟨hp₁, hp₂⟩ := hpairs p List.mem_cons_self
    have hrest' (q : XReg × XReg) (hq : q ∈ rest) := hpairs q (List.mem_cons_of_mem _ hq)
    obtain ⟨m₁, hrest, hsp₁, hback₁, hregs₁, hstack₁, houtput₁⟩ := ih (top - 16) hrest' hspilled
      (by omega) (by omega) (by omega) (by omega)
    obtain ⟨m', hpop, hsp', hregs, hstack, houtput⟩ :=
      perform?_restorePair env m₁ p hp₁ hp₂ (by omega) (by omega) (by omega) (by omega)
    rw [hsp₁, hstack₁, hfst, show top - 16 + 8 = top - 8 by omega, hsnd] at hregs
    have hmem (n : BitVec 5) : n ∈ registers (p :: rest) ↔
        n = p.1.num ∨ n = p.2.num ∨ n ∈ registers rest := by
      simp [registers]
    refine ⟨m', ?_, by omega, ?_, ?_, hstack.trans hstack₁, houtput.trans houtput₁⟩
    · rw [List.reverse_cons, List.map_append, performAll?_append m m₁ _ _ hrest]
      simp [hpop]
    · intro n hn
      have hn31 : n ≠ 31 := by
        rintro rfl
        obtain ⟨q, hq, hq'⟩ := List.mem_flatMap.mp hn
        obtain ⟨hq₁, hq₂⟩ := hpairs q hq
        rcases (by simpa using hq') with hq' | hq'
        · exact hq₁ hq'.symm
        · exact hq₂ hq'.symm
      rw [hregs n hn31]
      split
      · rename_i hn₂
        rw [hn₂]
      · split
        · rename_i hn₁
          rw [hn₁]
        · rename_i hn₂ hn₁
          exact hback₁ n (((hmem n).mp hn).resolve_left hn₁ |>.resolve_left hn₂)
    · intro n hn hn31
      rw [hmem, not_or, not_or] at hn
      rw [hregs n hn31, if_neg hn.2.1, if_neg hn.1, hregs₁ n hn.2.2 hn31]

/-! ## Prologue and epilogue -/

/-- What a function saves, the first pair highest. -/
def savedOnEntry : List (XReg × XReg) := (.x29, .x30) :: XReg.savedPairs

/-- How far below the stack pointer of its caller a function has its frame. -/
def frameBytes : Nat := Frame.localBytes + 16 * savedOnEntry.length

/-- A function was entered from `m₀`. Its frame is at `base`, and above it is what the function has
to bring back. -/
structure Entered (m₀ : Machine) (base : Nat) (m : Machine) : Prop where
  base : base + frameBytes = m₀.sp.toNat
  spilled : Spilled m₀ m m₀.sp.toNat savedOnEntry
  stack : ∀ a, m₀.sp.toNat ≤ a → m.stack a = m₀.stack a

theorem Entered.congr {m₀ m m' : Machine} {base : Nat} (h : Entered m₀ base m)
    (hstack : ∀ a, base + Frame.localBytes ≤ a → m'.stack a = m.stack a) :
    Entered m₀ base m' := by
  have hbytes : frameBytes = Frame.localBytes + 16 * savedOnEntry.length := rfl
  have hbase := h.base
  refine ⟨h.base, ?_, ?_⟩
  · exact h.spilled.congr (base + Frame.localBytes) (by omega) (fun _ _ => ⟨rfl, rfl⟩)
      fun a hl _ => hstack a hl
  · intro a ha
    rw [hstack a (by omega), h.stack a ha]

theorem savedOnEntry_ne : ∀ p ∈ savedOnEntry, p.1.num ≠ 31 ∧ p.2.num ≠ 31 := by decide

theorem perform?_openFrame (env : Process image) (m : Machine) (base : Nat)
    (hsp : m.sp.toNat = base + Frame.localBytes) :
    ∃ m', env.performAll? m [.subImm .sp .sp (BitVec.ofNat 16 Frame.localBytes),
        .addImm .frameBase .sp 0] = some m' ∧
      m'.sp = BitVec.ofNat 64 base ∧ m'.x 28 = BitVec.ofNat 64 base ∧
      (∀ n, n ≠ 28 → n ≠ 31 → m'.x n = m.x n) ∧ m'.stack = m.stack ∧ m'.output = m.output := by
  have hbytes : (BitVec.ofNat 16 Frame.localBytes).setWidth 64 = BitVec.ofNat 64 Frame.localBytes := by
    decide
  have hsub : m.x 31 - BitVec.ofNat 64 Frame.localBytes = BitVec.ofNat 64 base := by
    have : m.x 31 = BitVec.ofNat 64 (base + Frame.localBytes) := by
      rw [← hsp, BitVec.ofNat_toNat, BitVec.setWidth_eq]
      rfl
    rw [this, BitVec.ofNat_add, BitVec.add_sub_cancel]
  let m₁ := m.put .sp (BitVec.ofNat 64 base)
  have hsp₁ : m₁.x 31 = BitVec.ofNat 64 base := m.x_put_self .sp _
  refine ⟨m₁.put .frameBase (BitVec.ofNat 64 base), ?_, ?_, ?_, ?_, rfl, rfl⟩
  · have hfirst : env.perform? m (.subImm .sp .sp (BitVec.ofNat 16 Frame.localBytes)) = some m₁ := by
      rw [perform?, hbytes]
      exact congrArg (fun v => some (m.put .sp v)) hsub
    rw [performAll?_cons, hfirst, Option.bind_some]
    change some (m₁.put .frameBase (m₁.x 31 + _)) = _
    rw [hsp₁]
    simp
  · exact (m₁.sp_put_of_ne .frameBase _ (by decide)).trans hsp₁
  · exact m₁.x_put_self .frameBase _
  · intro n h28 h31
    rw [m₁.x_put_of_ne .frameBase n _ h28, m.x_put_of_ne .sp n _ h31]

/-- The prologue up to the room for the slots. -/
theorem performAll?_saveAll (env : Process image) (m : Machine) (haligned : m.sp.toNat % 16 = 0)
    (hl : env.stackLow + 96 ≤ m.sp.toNat) (hu : m.sp.toNat ≤ env.stackHigh) :
    ∃ m', env.performAll? m (Lower.savePair (.x29, .x30) :: .addImm .x29 .sp 0
        :: XReg.savedPairs.map Lower.savePair) = some m' ∧
      m'.sp.toNat = m.sp.toNat - 96 ∧ Spilled m m' m.sp.toNat savedOnEntry ∧
      (∀ a, m.sp.toNat ≤ a → m'.stack a = m.stack a) ∧
      (∀ n, n ≠ 29 → n ≠ 31 → m'.x n = m.x n) ∧ m'.output = m.output := by
  have hpairs : XReg.savedPairs.length = 5 := rfl
  obtain ⟨m₁, hsave₁, hsp₁, hfst, hsnd, hstack₁, hregs₁, houtput₁⟩ :=
    perform?_savePair env m (.x29, .x30) (by decide) (by decide) haligned (by omega) hu
  let m₂ := m₁.put .x29 m₁.sp
  have hlink : env.perform? m₁ (.addImm .x29 .sp 0) = some m₂ :=
    congrArg (fun v => some (m₁.put .x29 v)) (BitVec.add_zero m₁.sp)
  have hsp₂ : m₂.sp = m₁.sp := m₁.sp_put_of_ne .x29 _ (by decide)
  have hregs₂ (n : BitVec 5) (h29 : n ≠ 29) (h31 : n ≠ 31) : m₂.x n = m.x n :=
    (m₁.x_put_of_ne .x29 n _ h29).trans (hregs₁ n h31)
  obtain ⟨m', hsave, hsp, hspilled, hstack, hregs, houtput⟩ :=
    performAll?_save env m₂ XReg.savedPairs (by decide) (by rw [hsp₂]; omega) (by rw [hsp₂]; omega)
      (by rw [hsp₂]; omega)
  rw [hsp₂, hsp₁] at hsp hspilled hstack
  refine ⟨m', ?_, by omega, ⟨?_, ?_, ?_⟩, ?_, ?_, houtput.trans houtput₁⟩
  · rw [performAll?_cons, hsave₁, Option.bind_some, performAll?_cons, hlink, Option.bind_some,
      hsave]
  · rw [hstack _ (by omega)]
    exact hfst
  · rw [hstack _ (by omega)]
    exact hsnd
  · refine hspilled.congr (m.sp.toNat - 96) (by omega) ?_ fun _ _ _ => rfl
    have hother : ∀ p ∈ XReg.savedPairs,
        (p.1.num ≠ 29 ∧ p.1.num ≠ 31) ∧ p.2.num ≠ 29 ∧ p.2.num ≠ 31 := by decide
    intro p hp
    obtain ⟨h₁, h₂⟩ := hother p hp
    exact ⟨(hregs₂ _ h₁.1 h₁.2).symm, (hregs₂ _ h₂.1 h₂.2).symm⟩
  · intro a ha
    rw [hstack a (by omega)]
    exact hstack₁ a ha
  · intro n h29 h31
    rw [hregs n h31, hregs₂ n h29 h31]

theorem Installed.prologue {m : Machine} (h : env.Installed place k Lower.prologue)
    (haligned : m.sp.toNat % 16 = 0) (hl : env.stackLow + frameBytes ≤ m.sp.toNat)
    (hu : m.sp.toNat ≤ env.stackHigh) :
    env.Leads (env.pc k) m (env.pc (k + Code.size Lower.prologue)) fun m' =>
      env.InFrame (m.sp.toNat - frameBytes) m' ∧ m'.sp.toNat = m.sp.toNat - frameBytes ∧
        Entered m (m.sp.toNat - frameBytes) m' ∧ (∀ n, n.toNat < 19 → m'.x n = m.x n) ∧
        m'.output = m.output := by
  have hbytes : frameBytes = 2208 := rfl
  have hlocal : Frame.localBytes = 2112 := rfl
  have hpairs : savedOnEntry.length = 6 := rfl
  have hne (n : BitVec 5) (hn : n.toNat < 19) : n ≠ 29 ∧ n ≠ 28 ∧ n ≠ 31 := by
    refine ⟨?_, ?_, ?_⟩ <;> rintro rfl <;> exact absurd hn (by decide)
  obtain ⟨m₁, hsave, hsp₁, hspilled, hstack₁, hregs₁, houtput₁⟩ :=
    performAll?_saveAll env m haligned (by omega) hu
  obtain ⟨m', hopen, hsp, hbase, hregs, hstack, houtput⟩ :=
    perform?_openFrame env m₁ (m.sp.toNat - frameBytes) (by omega)
  have hperform := performAll?_append m m₁ _ [.subImm .sp .sp (BitVec.ofNat 16 Frame.localBytes),
    .addImm .frameBase .sp 0] hsave
  rw [hopen] at hperform
  refine ((Installed.instrs _ h ?_ hperform).mono ?_).cast (by rw [← size_map_instr]; rfl)
  · simp [Instr.Fits, Lower.savePair, XReg.savedPairs, hlocal]
  rintro m' rfl
  have hnat : m'.sp.toNat = m.sp.toNat - frameBytes := by
    rw [hsp, toNat_address _ (by omega)]
  refine ⟨⟨hbase, by omega, by omega, by omega, by omega, by omega⟩, hnat, ⟨by omega, ?_, ?_⟩, ?_,
    houtput.trans houtput₁⟩
  · exact hspilled.congr (m.sp.toNat - 96) (by omega) (fun _ _ => ⟨rfl, rfl⟩)
      fun a _ _ => by rw [hstack]
  · intro a ha
    rw [hstack, hstack₁ a ha]
  · intro n hn
    obtain ⟨h29, h28, h31⟩ := hne n hn
    rw [hregs n h28 h31, hregs₁ n h29 h31]

theorem Stands.ret {m : Machine} (h : env.Stands place k (.instr .ret)) :
    env.Leads (env.pc k) m (m.x 30) (· = m) := by
  obtain ⟨hprintf, hexit⟩ := h.outside 0 Nat.one_pos
  have hfetch : env.fetch (env.pc k) = some .ret := h.fetch 0 .ret rfl trivial
  refine .step hprintf hexit ?_ (Leads.refl rfl)
  rw [step?, hfetch]
  rfl

theorem Installed.epilogue {m₀ m : Machine} {base : Nat} (h : env.Installed place k Lower.epilogue)
    (hframe : env.InFrame base m) (hentered : Entered m₀ base m) (hu : m₀.sp.toNat ≤ env.stackHigh) :
    env.Leads (env.pc k) m (m₀.x 30) fun m' =>
      m₀.Kept m' ∧ m'.get .x0 = m.get .x0 ∧ m'.output = m.output := by
  have hbytes : frameBytes = 2208 := rfl
  have hlocal : Frame.localBytes = 2112 := rfl
  have hpairs : savedOnEntry.length = 6 := rfl
  have hbase := hentered.base
  have haligned := hframe.baseAligned
  have hlow := hframe.low
  have hbelow := hframe.below
  let m₁ := m.put .sp (BitVec.ofNat 64 (base + Frame.localBytes))
  have hfirst : env.perform? m (.addImm .sp .frameBase (BitVec.ofNat 16 Frame.localBytes)) =
      some m₁ := by
    have hsum : m.x 28 + (BitVec.ofNat 16 Frame.localBytes).setWidth 64 =
        BitVec.ofNat 64 (base + Frame.localBytes) := by
      rw [hframe.register, BitVec.ofNat_add]
      rfl
    exact congrArg (fun v => some (m.put .sp v)) hsum
  have hsp₁ : m₁.sp.toNat = base + Frame.localBytes := by
    have : m₁.sp = BitVec.ofNat 64 (base + Frame.localBytes) := m.x_put_self .sp _
    rw [this, toNat_address _ (by omega)]
  have hspilled : Spilled m₀ m₁ m₀.sp.toNat savedOnEntry :=
    hentered.spilled.congr (base + Frame.localBytes) (by omega) (fun _ _ => ⟨rfl, rfl⟩)
      fun _ _ _ => rfl
  obtain ⟨m', hrestore, hsp, hback, hregs, hstack, houtput⟩ :=
    performAll?_restore env m₀ m₁ m₀.sp.toNat savedOnEntry savedOnEntry_ne hspilled (by omega)
      (by omega) (by omega) hu (by omega)
  have hperform : env.performAll? m (.addImm .sp .frameBase (BitVec.ofNat 16 Frame.localBytes)
      :: savedOnEntry.reverse.map Lower.restorePair) = some m' := by
    rw [performAll?_cons, hfirst, Option.bind_some, hrestore]
  have hcode : Lower.epilogue = (Instr.addImm .sp .frameBase (BitVec.ofNat 16 Frame.localBytes)
      :: savedOnEntry.reverse.map Lower.restorePair).map .instr ++ [.instr .ret] := rfl
  rw [hcode, installed_append, installed_cons] at h
  refine (Installed.instrs _ h.1 ?_ hperform).trans ?_
  · simp [Instr.Fits, Lower.restorePair, savedOnEntry, XReg.savedPairs, hlocal]
  rintro m' rfl
  have hsaved : ∀ n : BitVec 5, 19 ≤ n.toNat → n.toNat ≤ 30 → n ∈ registers savedOnEntry := by
    decide
  rw [← hback 30 (by decide)]
  have hret := h.2.1.ret (m := m')
  rw [size_map_instr] at hret
  refine hret.mono ?_
  rintro _ rfl
  refine ⟨⟨?_, ?_, ?_⟩, ?_, houtput⟩
  · intro n hl hu
    exact hback n (hsaved n hl (by omega))
  · exact BitVec.eq_of_toNat_eq hsp
  · intro a ha
    rw [hstack]
    exact hentered.stack a ha
  · rw [Machine.get_of_ne _ _ (by decide), hregs _ (by decide) (by decide)]
    exact m.x_put_of_ne .sp _ _ (by decide)

end Armature.Process
