import Armature.Proofs.Statements

/-!
# Counted loops

The counter of a loop statement is a variable, which the body may change. The end of the range has a
slot that no variable owns, so that it is the same in every round. Loops that print have the same
lines before and after their bodies, and count in slots of their own.
-/

namespace Armature.Lower

open Asm (Code Label)

/-- The lines before the body of a loop. -/
def loopHead (top exit : Label) (counter stop : Slot) : Code :=
  [.mark top, loadX .x0 counter, loadX .x1 stop, .instr (.cmp .x0 .x1), .jumpIf .ge exit]

/-- The lines after it. -/
def loopTail (top exit : Label) (counter : Slot) : Code :=
  [loadX .x0 counter, .instr (.addImm .x0 .x0 1), storeX .x0 counter, .jump top, .mark exit]

end Armature.Lower

namespace Armature.Process

open A64 (Machine XReg)
open Asm (Code Image Label Line)

variable {image : Image} {env : Process image} {place : Label → Nat} {table : Bindings Function}
  {f : Frame} {base room used k : Nat} {s s₁ s₂ : State} {m : Machine} {done : Label} {flow : Flow}

/-! ## The slot of the end -/

theorem Represents.hide {slot : Slot} {x : BitVec 64} (hfree : ¬ f.Owns slot)
    (h : env.Represents f base s m) :
    env.Represents f base s (m.store (base + slot.distance) x) where
  frame := h.frame.congr rfl rfl
  slots name v symbol hv hsymbol := by
    have hne : symbol.slot ≠ slot := fun heq => hfree ⟨name, symbol, hsymbol, heq⟩
    have := Slot.distance_ne hne
    rw [Machine.stack_store, if_neg (by omega)]
    exact h.slots name v symbol hv hsymbol
  output := h.output

theorem steady_hide {slot : Slot} (x : BitVec 64) (hslot : slot.index.toNat < 256)
    (hused : used ≤ slot.index.toNat) :
    Steady f used base m (m.store (base + slot.distance) x) where
  sp := rfl
  slots slot' hslot' _ := by
    have hne : slot' ≠ slot := by
      rintro rfl
      omega
    have := Slot.distance_ne hne
    rw [Machine.stack_store, if_neg (by omega)]
  above a ha := by
    have hbytes : Frame.localBytes = 2112 := rfl
    have hdistance : slot.distance = 64 + 8 * slot.index.toNat := rfl
    rw [Machine.stack_store, if_neg (by omega)]

/-! ## One round -/

variable {top exit : Label} {var : String} {symbol : Symbol} {counter stopSlot : Slot}
  {stop i : Int64}

theorem Installed.loopHead (d : Nat) (hcounter : counter.index.toNat < 256)
    (hstop : stopSlot.index.toNat < 256)
    (h : env.Installed place k (Lower.loopHead top exit counter stopSlot))
    (hm : env.InFrame base m) (hi : m.stack (base + counter.distance) = i.toBitVec)
    (hstack : m.stack (base + stopSlot.distance) = stop.toBitVec) :
    env.Leads (env.pc k) m (env.pc (if stop ≤ i then place exit else k + 4)) fun m' =>
      m.Quiet d m' ∧ m'.output = m.output := by
  have hfree (n : BitVec 5) (hn : n.toNat < 19) : ¬ Machine.Survives d n :=
    Machine.not_survives_of_lt d n hn
  simp only [Lower.loopHead, installed_cons] at h
  obtain ⟨-, hload, hload', hcmp, hjump, -⟩ := h
  refine (hload.loadX hm counter hcounter (by decide)).trans ?_
  rintro _ rfl
  have hquiet₁ := Machine.quiet_put d m .x0 (m.stack (base + counter.distance))
    (hfree _ (by decide))
  refine (hload'.loadX (hm.quiet hquiet₁) stopSlot hstop (by decide)).trans ?_
  rintro _ rfl
  rw [Machine.stack_put, hi, hstack]
  have hx0 : ((m.put .x0 i.toBitVec).put .x1 stop.toBitVec).get .x0 = i.toBitVec := by
    rw [Machine.get_put_of_ne _ _ _ _ (by decide)]
    exact m.get_put_self .x0 _ (by decide)
  have hx1 : ((m.put .x0 i.toBitVec).put .x1 stop.toBitVec).get .x1 = stop.toBitVec :=
    Machine.get_put_self _ .x1 _ (by decide)
  have hquiet : m.Quiet d ((m.put .x0 i.toBitVec).put .x1 stop.toBitVec) :=
    (Machine.quiet_put d m .x0 _ (hfree _ (by decide))).trans
      (Machine.quiet_put d _ .x1 _ (hfree _ (by decide)))
  refine (hcmp.cmp d).trans ?_
  rintro m₂ ⟨hflags, hquiet₂, hout₂⟩
  rw [hx0, hx1] at hflags
  refine (hjump.jumpIf.mono ?_).cast ?_
  · rintro _ rfl
    exact ⟨hquiet.trans hquiet₂, hout₂⟩
  · have hge : A64.Cond.ge.holds m₂.flags = decide (stop ≤ i) := by
      rw [hflags]
      refine (negative_eq_overflow i.toBitVec stop.toBitVec).trans ?_
      simp only [Int64.toInt_toBitVec, Int64.le_iff_toInt_le]
    simp only [hge, decide_eq_true_eq]
    rfl

theorem Installed.loopTail (d : Nat) (hcounter : counter.index.toNat < 256)
    (h : env.Installed place k (Lower.loopTail top exit counter))
    (hm : env.InFrame base m) (hi : m.stack (base + counter.distance) = i.toBitVec) :
    env.Leads (env.pc k) m (env.pc (place top)) fun m' =>
      ∃ m₁, m.Quiet d m₁ ∧ m₁.output = m.output ∧
        m' = m₁.store (base + counter.distance) (i + 1).toBitVec := by
  simp only [Lower.loopTail, installed_cons] at h
  obtain ⟨hload, hadd, hstore, hjump, -⟩ := h
  refine (hload.loadX hm counter hcounter (by decide)).trans ?_
  rintro _ rfl
  rw [hi]
  have hsum : env.perform? (m.put .x0 i.toBitVec) (.addImm .x0 .x0 1) =
      some (m.put .x0 (i + 1).toBitVec) := by
    have hx0 : (m.put .x0 i.toBitVec).x XReg.x0.num = i.toBitVec := m.x_put_self .x0 _
    rw [perform?, hx0, Machine.put_put]
    rfl
  refine (hadd.instr (by simp [A64.Instr.Fits]) hsum).trans ?_
  rintro _ rfl
  have hquiet := Machine.quiet_put d m .x0 (i + 1).toBitVec
    (Machine.not_survives_of_lt d _ (by decide))
  refine (hstore.storeX (hm.quiet hquiet) counter hcounter).trans ?_
  rintro _ rfl
  rw [m.get_put_self .x0 _ (by decide)]
  refine hjump.jump.mono ?_
  rintro _ rfl
  exact ⟨_, hquiet, rfl, rfl⟩

/-! ## One round, with a variable as the counter -/

variable (hf : f.Ints) (hsymbol : f.lookup var = some symbol)

include hf hsymbol

theorem Installed.testVariable (hstop : stopSlot.index.toNat < 256)
    (h : env.Installed place k (Lower.loopHead top exit symbol.slot stopSlot))
    (hm : env.Represents f base s m) (hi : s.locals.get? var = some (.int i))
    (hstack : m.stack (base + stopSlot.distance) = stop.toBitVec) :
    env.Leads (env.pc k) m (env.pc (if stop ≤ i then place exit else k + 4)) fun m' =>
      m.Quiet 0 m' ∧ m'.output = m.output := by
  have hslot := (hf.symbol var symbol hsymbol).2.2
  have hused := hf.used_le
  exact h.loopHead 0 (by omega) hstop hm.frame (hm.slots var _ symbol hi hsymbol) hstack

theorem Installed.countVariable (used : Nat)
    (h : env.Installed place k (Lower.loopTail top exit symbol.slot))
    (hm : env.Represents f base s m) (hi : s.locals.get? var = some (.int i)) :
    env.Leads (env.pc k) m (env.pc (place top)) fun m' =>
      env.Represents f base { s with locals := s.locals.set var (.int (i + 1)) } m' ∧
        Steady f used base m m' := by
  have hslot := (hf.symbol var symbol hsymbol).2.2
  have hused := hf.used_le
  refine (h.loopTail 0 (by omega) hm.frame (hm.slots var _ symbol hi hsymbol)).mono ?_
  rintro _ ⟨m₁, hquiet, hout, rfl⟩
  have hm₁ := hm.quiet hquiet rfl (hout.trans hm.output)
  exact ⟨hm₁.set hf hsymbol, (steady_of_quiet hm.frame hquiet).trans
    (steady_store _ (by omega) ⟨var, symbol, hsymbol, rfl⟩)⟩

theorem Installed.loopBody {code : Code} (hstop : stopSlot.index.toNat < 256)
    (hhead : env.Installed place k (Lower.loopHead top exit symbol.slot stopSlot))
    (hcode : env.Installed place (k + 4) code)
    (hbody : env.Executes place table f room used done code s flow s₁)
    (hm : env.Represents f base s m) (hsp : m.sp.toNat = base) (hroom : env.HasRoom room m)
    (hi : s.locals.get? var = some (.int i)) (hlt : ¬ stop ≤ i)
    (hstack : m.stack (base + stopSlot.distance) = stop.toBitVec) :
    env.Leads (env.pc k) m (env.pc (target place done (k + 4 + Code.size code) flow)) fun m' =>
      Delivers m' flow ∧ env.Represents f base s₁ m' ∧ Steady f used base m m' := by
  have hleads := hhead.testVariable hf hsymbol hstop hm hi hstack
  rw [if_neg hlt] at hleads
  refine hleads.trans ?_
  rintro m₁ ⟨hquiet, hout⟩
  refine (hbody.code base m₁ _ (hm.quiet hquiet rfl (hout.trans hm.output))
    (by rw [hquiet.sp]; exact hsp) (hroom.of_sp hquiet.sp) hcode).mono ?_
  rintro m' ⟨hdelivers, hm', hsteady⟩
  exact ⟨hdelivers, hm', (steady_of_quiet hm.frame hquiet).trans hsteady⟩

/-! ## All rounds -/

omit hf hsymbol in
theorem installed_loop {code : Code} (h : env.Installed place k
      (Lower.loopHead top exit counter stopSlot ++ code ++ Lower.loopTail top exit counter)) :
    env.Installed place k (Lower.loopHead top exit counter stopSlot) ∧
      env.Installed place (k + 4) code ∧
      env.Installed place (k + 4 + Code.size code) (Lower.loopTail top exit counter) := by
  rw [installed_append, installed_append, Code.size_append, ← Nat.add_assoc] at h
  exact ⟨h.1.1, h.1.2, h.2⟩

/-- The rounds of a loop that are left, from the top. -/
theorem loop_rounds {rounds : Nat} {body : Run Flow} {code : Code}
    (hstop : stopSlot.index.toNat < used) (hle : used ≤ 256) (hfree : ¬ f.Owns stopSlot)
    (hbody : ∀ s flow s₁, s.Fits table f → body s = .done flow s₁ →
      env.Executes place table f room used done code s flow s₁)
    (hrun : Run.repeated (Run.countedStep var stop body) rounds s = .done flow s₂)
    (hs : s.Fits table f) :
    s₂.Fits table f ∧ (∀ v, flow = .returned v → v.HasWord .int) ∧
      ∀ base m k, env.Represents f base s m → m.sp.toNat = base → env.HasRoom room m →
        m.stack (base + stopSlot.distance) = stop.toBitVec →
        env.Installed place k
          (Lower.loopHead top exit symbol.slot stopSlot ++ code ++
            Lower.loopTail top exit symbol.slot) →
        env.Leads (env.pc k) m (env.pc (target place done (place exit) flow)) fun m' =>
          Delivers m' flow ∧ env.Represents f base s₂ m' ∧ Steady f used base m m' := by
  have hstop' : stopSlot.index.toNat < 256 := by omega
  induction rounds generalizing s with
  | zero => cases hrun
  | succ rounds ih =>
    rcases Run.repeated_done _ _ _ _ _ hrun with ⟨s', hstep, hrest⟩ | hstep
    · obtain ⟨i, hi, ⟨-, h, -⟩ | ⟨-, v, -, h⟩ | ⟨hlt, s₁, j, hrun₁, hj, -, rfl⟩⟩ :=
        Run.countedStep_done _ _ _ _ _ _ hstep
      · cases h
      · cases h
      have hexec := hbody s .next s₁ hs hrun₁
      obtain ⟨hfits, hkind, hleads⟩ := ih hrest (hexec.fits.set hsymbol)
      refine ⟨hfits, hkind, ?_⟩
      intro base m k hm hsp hroom hstack hk
      obtain ⟨hhead, hcode, htail⟩ := installed_loop hk
      refine (hhead.loopBody hf hsymbol hstop' hcode hexec hm hsp hroom hi hlt hstack).trans ?_
      rintro m₁ ⟨-, hm₁, hsteady₁⟩
      refine (htail.countVariable hf hsymbol used hm₁ hj).trans ?_
      rintro m₂ ⟨hm₂, hsteady₂⟩
      have hsteady := hsteady₁.trans hsteady₂
      have htop : place top = k := ((installed_cons ..).mp hhead).1.marked top rfl
      rw [htop]
      refine (hleads base m₂ k hm₂ (by rw [hsteady.sp]; exact hsp) (hroom.of_sp hsteady.sp)
        (by rw [hsteady.slots stopSlot hstop hfree]; exact hstack) hk).mono ?_
      rintro m' ⟨hdelivers, hm', hsteady'⟩
      exact ⟨hdelivers, hm', hsteady.trans hsteady'⟩
    · obtain ⟨i, hi, ⟨hge, h, rfl⟩ | ⟨hlt, v, hrun₁, h⟩ | ⟨-, _, _, -, -, h, -⟩⟩ :=
        Run.countedStep_done _ _ _ _ _ _ hstep
      · cases h
        refine ⟨hs, by simp, ?_⟩
        intro base m k hm hsp hroom hstack hk
        have hleads := (installed_loop hk).1.testVariable hf hsymbol hstop' hm hi hstack
        rw [if_pos hge] at hleads
        refine hleads.mono ?_
        rintro m' ⟨hquiet, hout⟩
        exact ⟨trivial, hm.quiet hquiet rfl (hout.trans hm.output), steady_of_quiet hm.frame hquiet⟩
      · cases h
        have hexec := hbody s (.returned v) s₂ hs hrun₁
        refine ⟨hexec.fits, hexec.kind, ?_⟩
        intro base m k hm hsp hroom hstack hk
        obtain ⟨hhead, hcode, -⟩ := installed_loop hk
        exact hhead.loopBody hf hsymbol hstop' hcode hexec hm hsp hroom hi hlt hstack
      · cases h

theorem Computes.loop {rounds used' : Nat} {body : Run Flow} {stopCode code : Code}
    (hstop : env.Computes place table f room 0 ⟨.int, stopCode⟩ s (.int stop) s₁)
    (hused : used ≤ stopSlot.index.toNat) (hslot : stopSlot.index.toNat < used') (hle : used' ≤ 256)
    (hfree : ¬ f.Owns stopSlot)
    (hbody : ∀ s flow s₁, s.Fits table f → body s = .done flow s₁ →
      env.Executes place table f room used' done code s flow s₁)
    (hrun : Run.repeated (Run.countedStep var stop body) rounds s₁ = .done flow s₂) :
    env.Executes place table f room used done (stopCode ++ Lower.storeX .x0 stopSlot
      :: (Lower.loopHead top exit symbol.slot stopSlot ++ code ++
        Lower.loopTail top exit symbol.slot)) s flow s₂ := by
  have hslot' : stopSlot.index.toNat < 256 := by omega
  obtain ⟨hfits, hkind, hleads⟩ :=
    loop_rounds hf hsymbol hslot hle hfree hbody hrun hstop.fits
  refine ⟨hfits, hkind, ?_⟩
  intro base m k hm hsp hroom hk
  rw [installed_append, installed_cons] at hk
  obtain ⟨hcode, hstore, hloop⟩ := hk
  refine (hstop.code base m k hm hroom hcode).trans ?_
  rintro m₁ ⟨hx0, hquiet, hout⟩
  have hm₁ := hm.quiet hquiet hstop.locals hout
  refine (hstore.storeX hm₁.frame stopSlot hslot').trans ?_
  rintro _ rfl
  rw [hx0]
  have hsteady : Steady f used base m (m₁.store (base + stopSlot.distance) (Value.int stop).word) :=
    (steady_of_quiet hm.frame hquiet).trans (steady_hide _ hslot' hused)
  refine ((hleads base _ _ (hm₁.hide hfree) (by rw [hsteady.sp]; exact hsp)
    (hroom.of_sp hsteady.sp) (by rw [Machine.stack_store, if_pos rfl]; rfl) hloop).mono ?_).cast ?_
  · rintro m' ⟨hdelivers, hm', hsteady'⟩
    exact ⟨hdelivers, hm', hsteady.trans (hsteady'.mono (by omega))⟩
  · have hexit := (installed_loop hloop).2.2
    simp only [Lower.loopTail, installed_cons] at hexit
    rw [hexit.2.2.2.2.1.marked exit rfl]
    refine congrArg (target place done · flow) ?_
    simp [Lower.loopHead, Lower.loopTail, Lower.loadX, Lower.storeX, Line.size, Line.body]
    omega

end Armature.Process
