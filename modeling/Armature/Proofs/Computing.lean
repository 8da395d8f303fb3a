import Armature.Proofs.Immediates
import Armature.Proofs.Operators
import Armature.Proofs.Slots
import Armature.Proofs.Texts

/-!
# Code that computes

The code of an expression leaves a word in `x0`. It uses the stack below the stack pointer and some
registers, and leaves everything else as it was.
-/

namespace Armature

open A64 (Cond Flags Instr Machine XReg)
open Asm (Code Image Label Line)

namespace A64.Machine

/-- The register must survive the code of an expression, when so many arguments are staged. -/
def Survives (depth : Nat) (n : BitVec 5) : Prop :=
  19 ≤ n.toNat ∧ n.toNat < 19 + depth ∨ n = 28 ∨ n = 29 ∨ n = 31

/-- What the code of an expression leaves as it was. -/
structure Quiet (depth : Nat) (m m' : Machine) : Prop where
  regs : ∀ n, Survives depth n → m'.x n = m.x n
  stack : ∀ a, m.sp.toNat ≤ a → m'.stack a = m.stack a

variable {depth : Nat} {m m₁ m₂ : Machine}

theorem Quiet.sp (h : m.Quiet depth m₁) : m₁.sp = m.sp := h.regs 31 (.inr (.inr (.inr rfl)))

theorem Quiet.refl (depth : Nat) (m : Machine) : m.Quiet depth m :=
  ⟨fun _ _ => rfl, fun _ _ => rfl⟩

theorem Quiet.trans (h : m.Quiet depth m₁) (h' : m₁.Quiet depth m₂) : m.Quiet depth m₂ where
  regs n hn := (h'.regs n hn).trans (h.regs n hn)
  stack a ha := (h'.stack a (by rw [h.sp]; exact ha)).trans (h.stack a ha)

theorem Quiet.mono {depth' : Nat} (h : m.Quiet depth m₁) (hle : depth' ≤ depth) :
    m.Quiet depth' m₁ where
  regs n hn := by
    rcases hn with ⟨hl, hu⟩ | hn
    · exact h.regs n (.inl ⟨hl, by omega⟩)
    · exact h.regs n (.inr hn)
  stack := h.stack

theorem not_survives_of_lt (depth : Nat) (n : BitVec 5) (h : n.toNat < 19) : ¬ Survives depth n := by
  unfold Survives
  rintro (h' | rfl | rfl | rfl)
  · omega
  all_goals exact absurd h (by decide)

/-- All registers that a function must keep survive when nine arguments are staged. -/
theorem survives_nine {n : BitVec 5} (hl : 19 ≤ n.toNat) (hu : n.toNat ≤ 29) : Survives 9 n := by
  have hcases : n.toNat = (28 : BitVec 5).toNat ∨ n.toNat = (29 : BitVec 5).toNat ∨
      n.toNat < 28 := by
    have : (28 : BitVec 5).toNat = 28 := rfl
    have : (29 : BitVec 5).toNat = 29 := rfl
    omega
  rcases hcases with h28 | h29 | hlt
  · exact .inr (.inl (BitVec.eq_of_toNat_eq h28))
  · exact .inr (.inr (.inl (BitVec.eq_of_toNat_eq h29)))
  · exact .inl ⟨hl, hlt⟩

theorem quiet_put (depth : Nat) (m : Machine) (r : XReg) (v : BitVec 64)
    (hr : ¬ Survives depth r.num) : m.Quiet depth (m.put r v) where
  regs n hn := m.x_put_of_ne r n v (by rintro rfl; exact hr hn)
  stack _ _ := rfl

theorem quiet_setD (depth : Nat) (m : Machine) (r : A64.DReg) (v : Double) :
    m.Quiet depth (m.setD r v) :=
  ⟨fun _ _ => rfl, fun _ _ => rfl⟩

theorem quiet_compare (depth : Nat) (m : Machine) (f : Flags) : m.Quiet depth (m.compare f) :=
  ⟨fun _ _ => rfl, fun _ _ => rfl⟩

/-- A function that is called keeps more than an expression must. -/
theorem Kept.quiet (h : m.Kept m₁) (hdepth : depth ≤ 9) : m.Quiet depth m₁ where
  regs n hn := by
    rcases hn with ⟨hl, hu⟩ | rfl | rfl | rfl
    · exact h.saved n hl (by omega)
    · exact h.saved 28 (by decide) (by decide)
    · exact h.saved 29 (by decide) (by decide)
    · exact h.sp
  stack := h.stack

theorem get_put_self (m : Machine) (r : XReg) (v : BitVec 64) (h : r.num ≠ 31) :
    (m.put r v).get r = v := by
  rw [get_of_ne _ _ h, x_put_self]

theorem get_put_of_ne (m : Machine) (r r' : XReg) (v : BitVec 64) (h : r'.num ≠ r.num) :
    (m.put r v).get r' = m.get r' := by
  unfold get
  split
  · rfl
  · exact m.x_put_of_ne r _ v h

end A64.Machine

namespace Process

variable {image : Image} {env : Process image} {place : Label → Nat} {k : Nat}

/-! ## Frames -/

/-- The slots of the frame are at `base`, and the stack pointer is at or below them. -/
structure InFrame (env : Process image) (base : Nat) (m : Machine) : Prop where
  register : m.x 28 = BitVec.ofNat 64 base
  low : env.stackLow ≤ m.sp.toNat
  below : m.sp.toNat ≤ base
  high : base + Frame.localBytes ≤ env.stackHigh
  aligned : m.sp.toNat % 16 = 0
  baseAligned : base % 16 = 0

theorem InFrame.congr {base : Nat} {m m' : Machine} (h : env.InFrame base m)
    (hbase : m'.x 28 = m.x 28) (hsp : m'.sp = m.sp) : env.InFrame base m' where
  register := hbase.trans h.register
  low := by rw [hsp]; exact h.low
  below := by rw [hsp]; exact h.below
  high := h.high
  aligned := by rw [hsp]; exact h.aligned
  baseAligned := h.baseAligned

theorem InFrame.quiet {base depth : Nat} {m m' : Machine} (h : env.InFrame base m)
    (hm : m.Quiet depth m') : env.InFrame base m' :=
  h.congr (hm.regs 28 (.inr (.inl rfl))) hm.sp

theorem load?_stack (m : Machine) (a : BitVec 64) (h8 : a.toNat % 8 = 0)
    (hl : env.stackLow ≤ a.toNat) (hu : a.toNat + 8 ≤ env.stackHigh) :
    env.load? m a = some (m.stack a.toNat) := by
  have hstack : env.onStack a.toNat = true := by simp [onStack, hl, hu]
  simp only [load?, hstack, if_true, h8, ne_eq, not_true_eq_false, if_false]

theorem store?_stack (m : Machine) (a v : BitVec 64) (h8 : a.toNat % 8 = 0)
    (hl : env.stackLow ≤ a.toNat) (hu : a.toNat + 8 ≤ env.stackHigh) :
    env.store? m a v = some (m.store a.toNat v) := by
  have hstack : env.onStack a.toNat = true := by simp [onStack, hl, hu]
  rw [store?, if_pos ⟨h8, hstack⟩]

theorem base?_of_ne (m : Machine) (r : XReg) (h : r.num ≠ 31) : base? m r = some (m.x r.num) :=
  if_neg fun hr => h hr.1

theorem base?_sp (m : Machine) (h : m.sp.toNat % 16 = 0) : base? m .sp = some m.sp :=
  if_neg fun hr => hr.2 h

/-! ## Slots -/

section Slots

variable {base : Nat} {m : Machine} (h : env.InFrame base m) (slot : Slot)
  (hslot : slot.index.toNat < 256)

include h hslot

theorem InFrame.toNat_slot :
    (m.x XReg.frameBase.num + slot.offset.setWidth 64).toNat = base + slot.distance := by
  have hreg : m.x XReg.frameBase.num = BitVec.ofNat 64 base := h.register
  have hoffset := slot.toNat_offset hslot
  have hhigh := h.high
  have hle := env.stack_le
  have hbytes : Frame.localBytes = 2112 := rfl
  have hdistance : slot.distance < 2112 := by
    unfold Slot.distance
    omega
  rw [hreg, BitVec.toNat_add, BitVec.toNat_setWidth, hoffset, toNat_address _ (by omega)]
  omega

theorem InFrame.slot_bounds :
    (base + slot.distance) % 8 = 0 ∧ env.stackLow ≤ base + slot.distance ∧
      base + slot.distance + 8 ≤ env.stackHigh := by
  have hlow := h.low
  have hbelow := h.below
  have hhigh := h.high
  have haligned := h.baseAligned
  have hbytes : Frame.localBytes = 2112 := rfl
  unfold Slot.distance
  omega

theorem load?_slot :
    env.load? m (m.x XReg.frameBase.num + slot.offset.setWidth 64) =
      some (m.stack (base + slot.distance)) := by
  obtain ⟨h8, hl, hu⟩ := h.slot_bounds slot hslot
  have hload := env.load?_stack m (m.x XReg.frameBase.num + slot.offset.setWidth 64)
  rw [h.toNat_slot slot hslot] at hload
  exact hload h8 hl hu

theorem perform?_load (rt : XReg) :
    env.perform? m (.ldrX rt .frameBase slot.offset) =
      some (m.set rt (m.stack (base + slot.distance))) := by
  simp only [perform?, base?_of_ne m .frameBase (by decide)]
  simp [load?_slot h slot hslot]

theorem perform?_loadDouble (rt : A64.DReg) :
    env.perform? m (.ldrD rt .frameBase slot.offset) =
      some (m.setD rt (ofBits (m.stack (base + slot.distance)))) := by
  simp only [perform?, base?_of_ne m .frameBase (by decide)]
  simp [load?_slot h slot hslot]

theorem perform?_store (rt : XReg) :
    env.perform? m (.strX rt .frameBase slot.offset) =
      some (m.store (base + slot.distance) (m.get rt)) := by
  obtain ⟨h8, hl, hu⟩ := h.slot_bounds slot hslot
  have haddr := h.toNat_slot slot hslot
  have hstore := env.store?_stack m (m.x XReg.frameBase.num + slot.offset.setWidth 64)
  simp only [haddr] at hstore
  simp only [perform?, base?_of_ne m .frameBase (by decide)]
  simp [hstore (m.get rt) h8 hl hu]

theorem Stands.loadX {rt : XReg} (hl : env.Stands place k (Lower.loadX rt slot))
    (hrt : rt.num ≠ 31) :
    env.Leads (env.pc k) m (env.pc (k + 1))
      (· = m.put rt (m.stack (base + slot.distance))) := by
  refine hl.instr (slot.fits_offset hslot) ?_
  rw [perform?_load h slot hslot, m.set_of_ne _ _ hrt]

theorem Stands.storeX {rt : XReg} (hl : env.Stands place k (Lower.storeX rt slot)) :
    env.Leads (env.pc k) m (env.pc (k + 1)) (· = m.store (base + slot.distance) (m.get rt)) :=
  hl.instr (slot.fits_offset hslot) (perform?_store h slot hslot rt)

end Slots

/-! ## The stack -/

section Stack

variable {m : Machine} (haligned : m.sp.toNat % 16 = 0)

include haligned

theorem perform?_push (rt : XReg) (hl : env.stackLow + 16 ≤ m.sp.toNat)
    (hu : m.sp.toNat ≤ env.stackHigh) :
    env.perform? m (.pushX rt .sp (-16)) =
      some ((m.store (m.sp.toNat - 16) (m.get rt)).put .sp (m.sp - 16)) := by
  have hneg : (-16 : BitVec 16).signExtend 64 = -16 := by decide
  have hnat : (m.sp - 16).toNat = m.sp.toNat - 16 := by bv_omega
  have hstore := env.store?_stack m (m.sp - 16) (m.get rt) (by omega) (by omega) (by omega)
  rw [hnat] at hstore
  simp only [perform?, base?_sp m haligned, Option.bind_eq_bind, Option.bind_some, hneg,
    ← BitVec.sub_eq_add_neg, hstore]
  rfl

theorem perform?_pop (rt : XReg) (hl : env.stackLow ≤ m.sp.toNat)
    (hu : m.sp.toNat + 8 ≤ env.stackHigh) :
    env.perform? m (.popX rt .sp 16) =
      some ((m.put .sp (m.sp + 16)).set rt (m.stack m.sp.toNat)) := by
  have hpos : (16 : BitVec 16).signExtend 64 = 16 := by decide
  have hload := env.load?_stack m m.sp (by omega) hl hu
  simp only [perform?, base?_sp m haligned, Option.bind_eq_bind, Option.bind_some, hpos, hload]
  rfl

end Stack

/-- A word has been pushed, and otherwise all is as an expression leaves it. -/
structure Pushed (depth : Nat) (m : Machine) (v : BitVec 64) (m' : Machine) : Prop where
  regs : ∀ n, n ≠ 31 → Machine.Survives depth n → m'.x n = m.x n
  sp : m'.sp = m.sp - 16
  value : m'.stack (m.sp.toNat - 16) = v
  stack : ∀ a, m.sp.toNat ≤ a → m'.stack a = m.stack a
  room : 16 ≤ m.sp.toNat

namespace Pushed

variable {depth : Nat} {m m' : Machine} {v : BitVec 64} (h : Pushed depth m v m')

include h

theorem toNat_sp : m'.sp.toNat = m.sp.toNat - 16 := by
  have := h.room
  rw [h.sp]
  bv_omega

theorem ofQuiet {m₀ : Machine} (hm : m₀.Quiet depth m) : Pushed depth m₀ v m' where
  regs n hn hs := (h.regs n hn hs).trans (hm.regs n hs)
  sp := by rw [h.sp, hm.sp]
  value := by rw [← hm.sp]; exact h.value
  stack a ha := (h.stack a (by rw [hm.sp]; exact ha)).trans (hm.stack a ha)
  room := by rw [← hm.sp]; exact h.room

theorem inFrame {base : Nat} (hm : env.InFrame base m) (hl : env.stackLow + 16 ≤ m.sp.toNat) :
    env.InFrame base m' where
  register := (h.regs 28 (by decide) (.inr (.inl rfl))).trans hm.register
  low := by rw [h.toNat_sp]; omega
  below := by have := hm.below; rw [h.toNat_sp]; omega
  high := hm.high
  aligned := by have := hm.aligned; rw [h.toNat_sp]; omega
  baseAligned := hm.baseAligned

end Pushed

theorem Stands.push (depth : Nat) {m : Machine} (h : env.Stands place k (Lower.push .int))
    (haligned : m.sp.toNat % 16 = 0) (hl : env.stackLow + 16 ≤ m.sp.toNat)
    (hu : m.sp.toNat ≤ env.stackHigh) :
    env.Leads (env.pc k) m (env.pc (k + 1)) fun m' =>
      Pushed depth m (m.get .x0) m' ∧ m'.output = m.output := by
  refine (h.instr (by simp [Instr.Fits]) (perform?_push haligned .x0 hl hu)).mono ?_
  rintro _ rfl
  refine ⟨⟨?_, ?_, ?_, ?_, by omega⟩, rfl⟩
  · intro n hn _
    exact (m.store _ _).x_put_of_ne .sp n _ hn
  · exact (m.store _ _).x_put_self .sp _
  · simp
  · intro a ha
    rw [A64.Machine.stack_put, A64.Machine.stack_store, if_neg (by omega)]

/-- The word that was pushed comes back, and the one computed since goes to `x1`. -/
theorem Installed.popLeft {depth : Nat} {m m₁ m₂ : Machine} {v : BitVec 64}
    (h : env.Installed place k [.instr (.mov .x1 .x0), Lower.popX .x0])
    (hpushed : Pushed depth m v m₁) (hquiet : m₁.Quiet depth m₂)
    (haligned : m₁.sp.toNat % 16 = 0) (hl : env.stackLow ≤ m₁.sp.toNat)
    (hu : m₁.sp.toNat + 8 ≤ env.stackHigh) :
    env.Leads (env.pc k) m₂ (env.pc (k + 2)) fun m' =>
      m'.get .x0 = v ∧ m'.get .x1 = m₂.get .x0 ∧ m.Quiet depth m' ∧ m'.output = m₂.output := by
  let mid := m₂.put .x1 (m₂.get .x0)
  have hsp : mid.sp = m₁.sp := (m₂.sp_put_of_ne .x1 _ (by decide)).trans hquiet.sp
  have hmov : env.perform? m₂ (.mov .x1 .x0) = some mid := rfl
  have hpop : env.perform? mid (.popX .x0 .sp 16) =
      some ((mid.put .sp (m₁.sp + 16)).put .x0 (mid.stack m₁.sp.toNat)) := by
    rw [perform?_pop (by rw [hsp]; exact haligned) .x0 (by rw [hsp]; exact hl)
      (by rw [hsp]; exact hu), hsp, A64.Machine.set_of_ne _ _ _ (by decide)]
  have hall : env.performAll? m₂ [.mov .x1 .x0, .popX .x0 .sp 16] =
      some ((mid.put .sp (m₁.sp + 16)).put .x0 (mid.stack m₁.sp.toNat)) := by
    rw [performAll?_cons, hmov, Option.bind_some, performAll?_cons, hpop]
    rfl
  refine (Installed.instrs _ h (by simp [Instr.Fits]) hall).mono ?_
  · rintro _ rfl
    refine ⟨?_, ?_, ⟨?_, ?_⟩, rfl⟩
    · rw [A64.Machine.get_put_self _ _ _ (by decide)]
      refine (hquiet.stack _ (Nat.le_refl _)).trans ?_
      rw [hpushed.toNat_sp]
      exact hpushed.value
    · rw [A64.Machine.get_put_of_ne _ _ _ _ (by decide),
        A64.Machine.get_put_of_ne _ _ _ _ (by decide)]
      exact m₂.get_put_self .x1 _ (by decide)
    · intro n hn
      by_cases hn31 : n = 31
      · subst hn31
        rw [A64.Machine.x_put_of_ne _ _ _ _ (by decide)]
        refine (mid.x_put_self .sp _).trans ?_
        rw [hpushed.sp, BitVec.sub_add_cancel]
        rfl
      · have hx0 : n ≠ XReg.x0.num := by
          rintro rfl
          exact Machine.not_survives_of_lt depth _ (by decide) hn
        have hx1 : n ≠ XReg.x1.num := by
          rintro rfl
          exact Machine.not_survives_of_lt depth _ (by decide) hn
        rw [A64.Machine.x_put_of_ne _ _ _ _ hx0, mid.x_put_of_ne .sp _ _ hn31,
          m₂.x_put_of_ne _ _ _ hx1, hquiet.regs n hn, hpushed.regs n hn31 hn]
    · intro a ha
      refine (hquiet.stack a ?_).trans (hpushed.stack a ha)
      rw [hpushed.toNat_sp]
      omega

/-! ## Values -/

/-- The code from word `k` to word `k'` leaves the word in `x0`, and `out` has been printed then. -/
def Yields (env : Process image) (depth k k' : Nat) (m : Machine) (v : BitVec 64) (out : Bytes) :
    Prop :=
  env.Leads (env.pc k) m (env.pc k') fun m' =>
    m'.get .x0 = v ∧ m.Quiet depth m' ∧ m'.output = out

theorem Yields.pair {depth k₁ k₂ : Nat} {m : Machine} {a b : BitVec 64} {out₁ out₂ : Bytes}
    (hleft : env.Yields depth k k₁ m a out₁) (hpush : env.Stands place k₁ (Lower.push .int))
    (hright : ∀ m₂, Pushed depth m a m₂ → m₂.output = out₁ →
      env.Yields depth (k₁ + 1) k₂ m₂ b out₂)
    (hpop : env.Installed place k₂ [.instr (.mov .x1 .x0), Lower.popX .x0])
    (haligned : m.sp.toNat % 16 = 0) (hl : env.stackLow + 16 ≤ m.sp.toNat)
    (hu : m.sp.toNat ≤ env.stackHigh) :
    env.Leads (env.pc k) m (env.pc (k₂ + 2)) fun m' =>
      m'.get .x0 = a ∧ m'.get .x1 = b ∧ m.Quiet depth m' ∧ m'.output = out₂ := by
  refine hleft.trans ?_
  rintro m₁ ⟨rfl, hquiet₁, rfl⟩
  have hsp₁ := hquiet₁.sp
  refine (hpush.push depth (by rw [hsp₁]; exact haligned) (by rw [hsp₁]; exact hl)
    (by rw [hsp₁]; exact hu)).trans ?_
  rintro m₂ ⟨hpushed, houtput⟩
  have hpushed := hpushed.ofQuiet hquiet₁
  have hsp₂ := hpushed.toNat_sp
  refine (hright m₂ hpushed houtput).trans ?_
  rintro m₃ ⟨hb, hquiet₃, rfl⟩
  refine (hpop.popLeft hpushed hquiet₃ (by omega) (by omega) (by omega)).mono ?_
  rintro m' ⟨hx0, hx1, hquiet, houtput'⟩
  exact ⟨hx0, hx1.trans hb, hquiet, houtput'⟩

theorem Yields.of_put {depth k' : Nat} {m : Machine} {v : BitVec 64}
    (h : env.Leads (env.pc k) m (env.pc k') (· = m.put .x0 v)) :
    env.Yields depth k k' m v m.output := by
  refine h.mono ?_
  rintro _ rfl
  exact ⟨m.get_put_self .x0 v (by decide),
    Machine.quiet_put depth m .x0 v (Machine.not_survives_of_lt depth _ (by decide)), rfl⟩

theorem Stands.result {depth : Nat} {m : Machine} {i : Instr} {v w : BitVec 64}
    (h : env.Stands place k (.instr i)) (hfits : i.Fits)
    (hperform : env.perform? m i = some (m.put .x0 v)) (hvw : v = w) :
    env.Yields depth k (k + 1) m w m.output := by
  subst hvw
  exact .of_put (h.instr hfits hperform)

theorem Yields.after {depth k₁ k₂ : Nat} {m : Machine} {Q : Machine → Prop} {v : BitVec 64}
    {out : Bytes}
    (h : env.Leads (env.pc k) m (env.pc k₁) fun m₁ =>
      Q m₁ ∧ m.Quiet depth m₁ ∧ m₁.output = out)
    (h' : ∀ m₁, Q m₁ → env.Yields depth k₁ k₂ m₁ v m₁.output) :
    env.Yields depth k k₂ m v out := by
  refine h.trans ?_
  rintro m₁ ⟨hQ, hquiet, rfl⟩
  refine (h' m₁ hQ).mono ?_
  rintro m' ⟨hx0, hquiet', houtput⟩
  exact ⟨hx0, hquiet.trans hquiet', houtput⟩

theorem Stands.cmp (depth : Nat) {m : Machine} (h : env.Stands place k (.instr (.cmp .x0 .x1))) :
    env.Leads (env.pc k) m (env.pc (k + 1)) fun m' =>
      m'.flags = .ofWords (m.get .x0) (m.get .x1) ∧ m.Quiet depth m' ∧
        m'.output = m.output := by
  refine (h.instr trivial rfl).mono ?_
  rintro _ rfl
  exact ⟨rfl, Machine.quiet_compare depth m _, rfl⟩

theorem Stands.cset {depth : Nat} {m : Machine} {cond : Cond}
    (h : env.Stands place k (.instr (.cset .x0 cond))) :
    env.Yields depth k (k + 1) m (if cond.holds m.flags then 1 else 0) m.output :=
  .of_put (h.instr trivial rfl)

theorem Installed.testZero (depth : Nat) (m : Machine) {cond : Cond}
    (h : env.Installed place k [.instr (.cmpImm .x0 0), .instr (.cset .x0 cond)]) :
    env.Yields depth k (k + 2) m (if cond.holds (.ofWords (m.get .x0) 0) then 1 else 0)
      m.output := by
  obtain ⟨hcmp, hcset, -⟩ := by simpa only [installed_cons] using h
  refine Yields.after (Q := fun m₁ => m₁.flags = .ofWords (m.get .x0) 0)
    ((hcmp.instr (by simp [Instr.Fits]) rfl).mono ?_) fun m₁ hflags => ?_
  · rintro _ rfl
    exact ⟨rfl, Machine.quiet_compare depth m _, rfl⟩
  · rw [← hflags]
    exact hcset.cset

/-- The word stands for the value, which is of the kind. -/
def Encodes (env : Process image) : Scalar → BitVec 64 → Value → Prop
  | .int, w, .int i => w = i.toBitVec
  | .bool, w, .bool b => w = if b then 1 else 0
  | .float, w, .float x => w = x.bits.toBitVec
  | .string, w, .str text => env.StringAt w (Bytes.ofText text)
  | _, _, _ => False

theorem encodes_word (env : Process image) {kind : Scalar} {v : Value} (h : v.HasWord kind) :
    env.Encodes kind v.word v := by
  unfold Value.HasWord at h
  split at h
  · rfl
  · exact Value.word_bool _
  · exact h.elim

theorem Encodes.hasWord {kind : Scalar} {w : BitVec 64} {v : Value} (h : env.Encodes kind w v)
    (hfloat : kind ≠ .float) (hstring : kind ≠ .string) : v.HasWord kind ∧ w = v.word := by
  unfold Encodes at h
  split at h
  · exact ⟨trivial, h⟩
  · exact ⟨trivial, h.trans (Value.word_bool _).symm⟩
  · exact absurd rfl hfloat
  · exact absurd rfl hstring
  · exact h.elim

theorem Encodes.string {w : BitVec 64} {v : Value} (h : env.Encodes .string w v) :
    ∃ text, v = .str text ∧ env.StringAt w (Bytes.ofText text) := by
  cases v with
  | str text => exact ⟨text, rfl, h⟩
  | _ => exact h.elim

theorem Installed.truth (depth : Nat) {m : Machine} {v : Value} {kind : Scalar}
    (h : env.Installed place k (Lower.truth kind)) (hfloat : kind ≠ .float)
    (hv : env.Encodes kind (m.get .x0) v) :
    env.Yields depth k (k + Code.size (Lower.truth kind)) m (if v.truthy then 1 else 0)
      m.output := by
  cases kind with
  | int =>
    obtain ⟨hword, hx0⟩ := hv.hasWord hfloat nofun
    rw [hword.truthy, ← hx0]
    exact h.testZero depth m
  | bool =>
    refine .refl ⟨?_, .refl depth m, rfl⟩
    cases v with
    | bool b => exact hv
    | _ => exact hv.elim
  | float => exact absurd rfl hfloat
  | string =>
    obtain ⟨text, rfl, -⟩ := hv.string
    exact .of_put (h.constant .x0 1 (by decide))

theorem Installed.arithmetic {depth : Nat} {m : Machine} {op : BinaryOp} {a b : Int64}
    {instrs : List Instr} (hcode : Lower.intCode op = .ok instrs)
    (h : env.Installed place k (instrs.map .instr)) (ha : m.get .x0 = a.toBitVec)
    (hb : m.get .x1 = b.toBitVec) :
    env.Yields depth k (k + instrs.length) m (Value.intOp op a b).word m.output := by
  cases op with
  | eq | ne | lt | gt | le | ge | and | or => cases hcode
  | add | sub | mul | div =>
    cases hcode
    exact ((installed_cons ..).mp h).1.result trivial rfl (by rw [ha, hb]; rfl)
  | mod =>
    cases hcode
    obtain ⟨hdiv, hsub, -⟩ := by simpa only [List.map_cons, installed_cons] using h
    refine Yields.after (Q := fun m₁ => m₁ = m.put .x2 ((m.get .x0).sdiv (m.get .x1)))
      ((hdiv.instr trivial rfl).mono ?_) fun m₁ hm₁ => ?_
    · rintro _ rfl
      exact ⟨rfl, Machine.quiet_put depth m .x2 _ (Machine.not_survives_of_lt depth _ (by decide)),
        rfl⟩
    · subst hm₁
      refine hsub.result trivial rfl ?_
      change m.get .x0 - (m.get .x0).sdiv (m.get .x1) * m.get .x1 = _
      rw [ha, hb, ← srem_eq_sub]
      rfl

/-! ## Operators -/

theorem operands_of_words {op : BinaryOp} {left right : Lower.ValueCode} {r : Bool × Code}
    (hleft : left.kind ≠ .float) (hright : right.kind ≠ .float)
    (h : Lower.operands op left right = .ok r) :
    r = (false, left.code ++ Lower.push .int ::
      (right.code ++ [.instr (.mov .x1 .x0), Lower.popX .x0])) := by
  simp only [Lower.operands, bind_eq_ok] at h
  obtain ⟨_, -, h⟩ := h
  cases h
  simp [Lower.arrange, Lower.push, hleft, hright]

/-- What a comparison of two words says about their values. Strings are compared by address. -/
theorem comparison_of_words {op : BinaryOp} {test : Lower.Test} {kind kind' : Scalar}
    {a b : BitVec 64} {v w r : Value} (htest : Lower.test? op = some test)
    (hcheck : Lower.checkOperands op kind kind' = .ok ()) (hfloat : kind ≠ .float)
    (hfloat' : kind' ≠ .float) (hv : env.Encodes kind a v) (hw : env.Encodes kind' b w)
    (hr : Value.binary op v w = .ok r) : r = .bool (test.ints.holds (.ofWords a b)) := by
  have hop : op.isLogical = false := by
    cases op with
    | and | or => cases htest
    | _ => rfl
  rcases Lower.checkOperands_ok hcheck with ⟨rfl, rfl, heq⟩ | ⟨hstring, hstring'⟩
  · obtain ⟨x, rfl, hx⟩ := hv.string
    obtain ⟨y, rfl, hy⟩ := hw.string
    have hxy : (a == b) = (x == y) := by
      rw [Bool.eq_iff_iff, beq_iff_eq, beq_iff_eq, hx.eq_iff hy, Bytes.ofText_inj]
    rcases heq with rfl | rfl
    · cases htest
      cases hr
      exact congrArg Value.bool hxy.symm
    · cases htest
      cases hr
      exact congrArg (fun p => Value.bool !p) hxy.symm
  · obtain ⟨hword, rfl⟩ := hv.hasWord hfloat hstring
    obtain ⟨hword', rfl⟩ := hw.hasWord hfloat' hstring'
    obtain ⟨a, b, ha, hb, rfl⟩ := Value.binary_of_word hop hword hword' hr
    rw [holds_test op test htest, ha, hb]

theorem arithmetic_of_words {op : BinaryOp} {kind kind' : Scalar} {a b : BitVec 64}
    {v w r : Value} (htest : Lower.test? op = none) (hop : op.isLogical = false)
    (hcheck : Lower.checkOperands op kind kind' = .ok ()) (hfloat : kind ≠ .float)
    (hfloat' : kind' ≠ .float) (hv : env.Encodes kind a v) (hw : env.Encodes kind' b w)
    (hr : Value.binary op v w = .ok r) :
    ∃ i j : Int64, a = i.toBitVec ∧ b = j.toBitVec ∧ r = Value.intOp op i j := by
  rcases Lower.checkOperands_ok hcheck with ⟨-, -, rfl | rfl⟩ | ⟨hstring, hstring'⟩
  · cases htest
  · cases htest
  · obtain ⟨hword, rfl⟩ := hv.hasWord hfloat hstring
    obtain ⟨hword', rfl⟩ := hw.hasWord hfloat' hstring'
    exact Value.binary_of_word hop hword hword' hr

theorem hasWord_binary {op : BinaryOp} {left right c : Lower.ValueCode} {a b : BitVec 64}
    {v w r : Value} (hfloat : left.kind ≠ .float) (hfloat' : right.kind ≠ .float)
    (hv : env.Encodes left.kind a v) (hw : env.Encodes right.kind b w)
    (hc : Lower.binary op left right = .ok c) (hr : Value.binary op v w = .ok r) :
    r.HasWord c.kind := by
  obtain ⟨hop, rfl⟩ | ⟨-, test, cond, code, -, hcode, rfl⟩ | ⟨hop, htest, hc⟩ := Lower.binary_ok hc
  · cases op with
    | and | or => cases hr; trivial
    | _ => cases hop
  · obtain ⟨test, _, htest, hoperands, -⟩ := Lower.comparison_ok hcode
    rw [comparison_of_words htest (Lower.operands_ok hoperands).1 hfloat hfloat' hv hw hr]
    trivial
  · obtain ⟨_, instrs, hoperands, -, rfl⟩ := Lower.arithmetic_ok hc
    obtain ⟨i, j, -, -, rfl⟩ := arithmetic_of_words htest hop (Lower.operands_ok hoperands).1 hfloat
      hfloat' hv hw hr
    obtain rfl := operands_of_words hfloat hfloat' hoperands
    exact Value.hasWord_intOp hop htest

theorem neg_of_words {operand c : Lower.ValueCode} {a : BitVec 64} {v : Value}
    (hfloat : operand.kind ≠ .float) (hv : env.Encodes operand.kind a v)
    (hc : Lower.unary .neg operand = .ok c) :
    c = ⟨.int, operand.code ++ [.instr (.neg .x0 .x0)]⟩ ∧
      ∃ i : Int64, v.number? = some (.int i) ∧ a = i.toBitVec := by
  obtain ⟨kind, code⟩ := operand
  cases kind with
  | int | bool =>
    cases hc
    obtain ⟨hword, rfl⟩ := hv.hasWord hfloat nofun
    exact ⟨rfl, hword.number⟩
  | float => exact absurd rfl hfloat
  | string => cases hc

theorem hasWord_unary {op : UnaryOp} {operand c : Lower.ValueCode} {a : BitVec 64} {v r : Value}
    (hfloat : operand.kind ≠ .float) (hv : env.Encodes operand.kind a v)
    (hc : Lower.unary op operand = .ok c) (hr : Value.unary op v = .ok r) : r.HasWord c.kind := by
  cases op with
  | not =>
    cases hc
    cases hr
    trivial
  | neg =>
    obtain ⟨rfl, i, hi, -⟩ := neg_of_words hfloat hv hc
    simp only [Value.unary, hi] at hr
    cases hr
    trivial

section Operands

variable {depth : Nat} {m : Machine} {op : BinaryOp} {left right : Lower.ValueCode}
  {a b : BitVec 64} {v w r : Value} {out₁ out₂ : Bytes}
  (hleft : ∀ k, env.Installed place k left.code →
    env.Yields depth k (k + Code.size left.code) m a out₁)
  (hright : ∀ k x m₂, env.Installed place k right.code → Pushed depth m x m₂ →
    m₂.output = out₁ → env.Yields depth k (k + Code.size right.code) m₂ b out₂)
  (haligned : m.sp.toNat % 16 = 0) (hl : env.stackLow + 16 ≤ m.sp.toNat)
  (hu : m.sp.toNat ≤ env.stackHigh)

include hleft hright haligned hl hu

theorem Installed.operands
    (h : env.Installed place k (left.code ++ Lower.push .int ::
      (right.code ++ [.instr (.mov .x1 .x0), Lower.popX .x0]))) :
    env.Leads (env.pc k) m
      (env.pc (k + Code.size (left.code ++ Lower.push .int ::
        (right.code ++ [.instr (.mov .x1 .x0), Lower.popX .x0]))))
      fun m' => (m'.get .x0 = a ∧ m'.get .x1 = b) ∧ m.Quiet depth m' ∧ m'.output = out₂ := by
  rw [installed_append, installed_cons, installed_append] at h
  obtain ⟨hl', hpush, hr, hpop⟩ := h
  refine (((hleft k hl').pair hpush (fun m₂ hpushed hout => hright _ _ m₂ hr hpushed hout) hpop
    haligned hl hu).mono ?_).cast ?_
  · rintro m' ⟨hx0, hx1, hquiet, hout⟩
    exact ⟨⟨hx0, hx1⟩, hquiet, hout⟩
  · simp [Lower.push, Lower.popX, Line.size, Line.body]
    omega

section Values

variable (hfloat : left.kind ≠ .float) (hfloat' : right.kind ≠ .float)

include hfloat hfloat'

theorem Installed.comparison {test : Lower.Test} {cond : Cond} {c : Code}
    (htest : Lower.test? op = some test)
    (hc : Lower.comparison op left right = .ok (cond, c)) (h : env.Installed place k c) :
    cond = test.ints ∧ env.Leads (env.pc k) m (env.pc (k + Code.size c)) fun m' =>
      m'.flags = .ofWords a b ∧ m.Quiet depth m' ∧ m'.output = out₂ := by
  obtain ⟨test', _, htest', hoperands, rfl, rfl⟩ := Lower.comparison_ok hc
  obtain rfl := operands_of_words hfloat hfloat' hoperands
  obtain rfl : test = test' := Option.some.inj (htest.symm.trans htest')
  refine ⟨rfl, ?_⟩
  rw [installed_append, installed_cons] at h
  refine (Installed.operands hleft hright haligned hl hu h.1).trans ?_
  rintro m₁ ⟨⟨hx0, hx1⟩, hquiet, rfl⟩
  refine ((h.2.1.cmp depth).mono ?_).cast ?_
  · rintro m' ⟨hflags, hquiet', hout⟩
    exact ⟨by rw [hflags, hx0, hx1], hquiet.trans hquiet', hout⟩
  · simp only [Code.size_append, Code.size_cons, Code.size_nil, Nat.add_assoc]
    rfl

variable (hv : env.Encodes left.kind a v) (hw : env.Encodes right.kind b w)

include hv hw

/-- `&&` and `||` combine two truths, each of which is one or zero. -/
theorem Installed.logical (hop : op.isLogical = true) (hr : Value.binary op v w = .ok r)
    (h : env.Installed place k (Lower.logical op left right).code) :
    env.Yields depth k (k + Code.size (Lower.logical op left right).code) m r.word out₂ := by
  let left' : Lower.ValueCode := ⟨.bool, left.code ++ Lower.truth left.kind⟩
  let right' : Lower.ValueCode := ⟨.bool, right.code ++ Lower.truth right.kind⟩
  have hleft' (k : Nat) (hk : env.Installed place k left'.code) :
      env.Yields depth k (k + Code.size left'.code) m (Value.bool v.truthy).word out₁ := by
    rw [installed_append] at hk
    rw [Value.word_bool, Code.size_append, ← Nat.add_assoc]
    exact Yields.after (hleft k hk.1) fun m₁ hx0 => hk.2.truth depth hfloat (hx0 ▸ hv)
  have hright' (k : Nat) (x : BitVec 64) (m₂ : Machine) (hk : env.Installed place k right'.code)
      (hpushed : Pushed depth m x m₂) (hout : m₂.output = out₁) :
      env.Yields depth k (k + Code.size right'.code) m₂ (Value.bool w.truthy).word out₂ := by
    rw [installed_append] at hk
    rw [Value.word_bool, Code.size_append, ← Nat.add_assoc]
    exact Yields.after (hright k x m₂ hk.1 hpushed hout) fun m₁ hx0 =>
      hk.2.truth depth hfloat' (hx0 ▸ hw)
  have hcode : (Lower.logical op left right).code = left'.code ++ Lower.push .int ::
      (right'.code ++ [.instr (.mov .x1 .x0), Lower.popX .x0])
        ++ [.instr (Lower.logicalInstr op)] := by
    simp [Lower.logical, Lower.push, left', right']
  rw [hcode, installed_append] at h
  have hleads := Installed.operands hleft' hright' haligned hl hu h.1
  rw [hcode, Code.size_append, ← Nat.add_assoc]
  have hand (p q : Bool) :
      (Value.bool p).word &&& (Value.bool q).word = (Value.bool (p && q)).word := by
    cases p <;> cases q <;> rfl
  have hor (p q : Bool) :
      (Value.bool p).word ||| (Value.bool q).word = (Value.bool (p || q)).word := by
    cases p <;> cases q <;> rfl
  cases op with
  | and =>
    cases hr
    refine Yields.after hleads fun m₁ hx => ?_
    exact ((installed_cons ..).mp h.2).1.result trivial rfl (by rw [hx.1, hx.2, hand])
  | or =>
    cases hr
    refine Yields.after hleads fun m₁ hx => ?_
    exact ((installed_cons ..).mp h.2).1.result trivial rfl (by rw [hx.1, hx.2, hor])
  | _ => cases hop

theorem Installed.binary {c : Lower.ValueCode} (hc : Lower.binary op left right = .ok c)
    (hr : Value.binary op v w = .ok r) (h : env.Installed place k c.code) :
    env.Yields depth k (k + Code.size c.code) m r.word out₂ := by
  obtain ⟨hop, rfl⟩ | ⟨-, test, cond, code, htest, hcode, rfl⟩ | ⟨hop, htest, hc⟩ :=
    Lower.binary_ok hc
  · exact Installed.logical hleft hright haligned hl hu hfloat hfloat' hv hw hop hr h
  · rw [installed_append, installed_cons] at h
    obtain ⟨rfl, hleads⟩ := Installed.comparison hleft hright haligned hl hu hfloat hfloat' htest
      hcode h.1
    obtain ⟨-, _, -, hoperands, -⟩ := Lower.comparison_ok hcode
    rw [comparison_of_words htest (Lower.operands_ok hoperands).1 hfloat hfloat' hv hw hr,
      Value.word_bool, Code.size_append, ← Nat.add_assoc]
    refine Yields.after hleads fun m₁ hflags => ?_
    rw [← hflags]
    exact h.2.1.cset
  · obtain ⟨_, instrs, hoperands, hinstrs, rfl⟩ := Lower.arithmetic_ok hc
    obtain ⟨i, j, ha, hb, rfl⟩ := arithmetic_of_words htest hop (Lower.operands_ok hoperands).1 hfloat
      hfloat' hv hw hr
    obtain rfl := operands_of_words hfloat hfloat' hoperands
    rw [installed_append] at h
    rw [Code.size_append, ← Nat.add_assoc, size_map_instr]
    refine Yields.after (Installed.operands hleft hright haligned hl hu h.1) fun m₁ hx => ?_
    exact Installed.arithmetic hinstrs h.2 (hx.1.trans ha) (hx.2.trans hb)

end Values

end Operands

theorem Installed.unary {depth : Nat} {m : Machine} {op : UnaryOp} {operand c : Lower.ValueCode}
    {a : BitVec 64} {v r : Value} {out : Bytes} (hfloat : operand.kind ≠ .float)
    (hv : env.Encodes operand.kind a v)
    (hoperand : env.Installed place k operand.code →
      env.Yields depth k (k + Code.size operand.code) m a out)
    (hc : Lower.unary op operand = .ok c) (hr : Value.unary op v = .ok r)
    (h : env.Installed place k c.code) :
    env.Yields depth k (k + Code.size c.code) m r.word out := by
  cases op with
  | not =>
    cases hc
    cases hr
    rw [installed_append, installed_append] at h
    have htruth := Yields.after (hoperand h.1.1) fun m₁ hx0 =>
      h.1.2.truth depth hfloat (hx0 ▸ hv)
    rw [Code.size_append, Code.size_append, ← Nat.add_assoc, ← Nat.add_assoc]
    refine Yields.after htruth fun m₁ hx0 => ?_
    have htest := h.2.testZero depth m₁
    have hnot : (if Cond.eq.holds (.ofWords (if v.truthy then 1 else 0) 0) then 1 else 0) =
        (Value.bool !v.truthy).word := by
      cases v.truthy <;> rfl
    rw [hx0, hnot, Code.size_append, ← Nat.add_assoc] at htest
    exact htest
  | neg =>
    obtain ⟨rfl, i, hi, rfl⟩ := neg_of_words hfloat hv hc
    simp only [Value.unary, hi] at hr
    cases hr
    rw [installed_append, installed_cons] at h
    rw [Code.size_append, ← Nat.add_assoc]
    refine Yields.after (hoperand h.1) fun m₁ hx0 => ?_
    exact h.2.1.result trivial rfl (by rw [hx0]; rfl)

end Process

end Armature
