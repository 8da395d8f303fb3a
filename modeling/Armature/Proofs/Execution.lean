import Armature.Proofs.Machine
import Armature.Proofs.Resolved

/-!
# Execution of lines

What each line of code does when it is in the code of a process. Runs are put together from these
steps with `Leads`.
-/

namespace Armature

open A64 (Cond Flags Instr Machine XReg)
open Asm (Code Datum Image Import Label Line Pool)

/-! ## Registers and memory -/

namespace A64.Machine

variable (m : Machine) (r : XReg) (n : BitVec 5) (v : BitVec 64)

@[simp] theorem x_put_self : (m.put r v).x r.num = v := if_pos rfl

theorem x_put_of_ne (h : n ≠ r.num) : (m.put r v).x n = m.x n := if_neg h

@[simp] theorem d_put : (m.put r v).d = m.d := rfl

@[simp] theorem flags_put : (m.put r v).flags = m.flags := rfl

@[simp] theorem stack_put : (m.put r v).stack = m.stack := rfl

@[simp] theorem output_put : (m.put r v).output = m.output := rfl

@[simp] theorem x_store (a : Nat) : (m.store a v).x = m.x := rfl

@[simp] theorem d_store (a : Nat) : (m.store a v).d = m.d := rfl

@[simp] theorem flags_store (a : Nat) : (m.store a v).flags = m.flags := rfl

@[simp] theorem stack_store (a b : Nat) :
    (m.store a v).stack b = if b = a then v else m.stack b := rfl

@[simp] theorem output_store (a : Nat) : (m.store a v).output = m.output := rfl

@[simp] theorem x_compare (f : Flags) : (m.compare f).x = m.x := rfl

@[simp] theorem d_compare (f : Flags) : (m.compare f).d = m.d := rfl

@[simp] theorem flags_compare (f : Flags) : (m.compare f).flags = f := rfl

@[simp] theorem stack_compare (f : Flags) : (m.compare f).stack = m.stack := rfl

@[simp] theorem output_compare (f : Flags) : (m.compare f).output = m.output := rfl

theorem put_put (w : BitVec 64) : (m.put r v).put r w = m.put r w := by
  simp only [put, mk.injEq, and_true]
  funext n
  by_cases h : n = r.num <;> simp [h]

theorem sp_put_of_ne (h : r.num ≠ 31) : (m.put r v).sp = m.sp := m.x_put_of_ne r _ v h.symm

theorem set_of_ne (h : r.num ≠ 31) : m.set r v = m.put r v := if_neg h

theorem get_of_ne (h : r.num ≠ 31) : m.get r = m.x r.num := if_neg h

end A64.Machine

namespace Process

variable {image : Image} {env : Process image}

/-! ## Runs -/

namespace Eventually

variable {P Q : BitVec 64 → Machine → Prop} {pc : BitVec 64} {m : Machine}

theorem bind (h : env.Eventually P pc m)
    (hP : ∀ pc m, P pc m → env.Eventually Q pc m) : env.Eventually Q pc m := by
  induction h with
  | now h => exact hP _ _ h
  | later hex _ ih => exact .later hex ih

theorem step {pc' : BitVec 64} {m' : Machine} (hprintf : pc ≠ env.printf) (hexit : pc ≠ env.exit)
    (hstep : env.step? pc m = some (pc', m')) (h : env.Eventually P pc' m') :
    env.Eventually P pc m := by
  refine .later ⟨pc', m', .instr hprintf hexit hstep⟩ ?_
  intro pc'' m'' hstep'
  cases hstep' with
  | instr _ _ hother =>
    rw [hstep, Option.some.injEq, Prod.mk.injEq] at hother
    obtain ⟨rfl, rfl⟩ := hother
    exact h
  | printf => exact absurd rfl hprintf

theorem printf (text : Bytes) (htext : env.printed? m = some text)
    (h : ∀ m', m.Kept m' → m'.output = m.output ++ text → env.Eventually P (m.get .x30) m') :
    env.Eventually P env.printf m := by
  refine .later ⟨m.get .x30, { m with output := m.output ++ text }, .printf htext
    ⟨fun _ _ _ => rfl, rfl, fun _ _ => rfl⟩ rfl⟩ ?_
  intro pc' m' hstep
  cases hstep with
  | instr hne => exact absurd rfl hne
  | printf htext' hkept houtput =>
    rw [htext, Option.some.injEq] at htext'
    subst htext'
    exact h m' hkept houtput

end Eventually

/-- Every run from `pc` comes to `pc'`, and `Q` holds there. -/
def Leads (env : Process image) (pc : BitVec 64) (m : Machine) (pc' : BitVec 64)
    (Q : Machine → Prop) : Prop :=
  env.Eventually (fun p m' => p = pc' ∧ Q m') pc m

namespace Leads

variable {pc pc₁ pc₂ : BitVec 64} {m : Machine} {Q R : Machine → Prop}

theorem refl (h : Q m) : env.Leads pc m pc Q := .now ⟨rfl, h⟩

theorem trans (h : env.Leads pc m pc₁ Q) (h' : ∀ m₁, Q m₁ → env.Leads pc₁ m₁ pc₂ R) :
    env.Leads pc m pc₂ R := by
  refine Eventually.bind h ?_
  rintro _ m₁ ⟨rfl, hQ⟩
  exact h' m₁ hQ

theorem cast {k k' : Nat} (h : env.Leads pc m (env.pc k) Q) (hk : k = k') :
    env.Leads pc m (env.pc k') Q := hk ▸ h

theorem mono (h : env.Leads pc m pc₁ Q) (h' : ∀ m₁, Q m₁ → R m₁) : env.Leads pc m pc₁ R :=
  h.trans fun m₁ hm₁ => refl (h' m₁ hm₁)

end Leads

/-! ## Places in the code -/

theorem pc_add_four (env : Process image) (k : Nat) : env.pc k + 4 = env.pc (k + 1) := by
  apply BitVec.eq_of_toNat_eq
  simp [pc]
  omega

theorem signExtend_ofInt (d : Int) (hl : -0x80000000 ≤ d) (hu : d < 0x80000000) :
    (BitVec.ofInt 32 d).signExtend 64 = BitVec.ofInt 64 d := by
  apply BitVec.eq_of_toInt_eq
  rw [BitVec.toInt_signExtend_of_le (by decide), BitVec.toInt_ofInt_eq_self (by decide) hl hu,
    BitVec.toInt_ofInt_eq_self (by decide) (by omega) (by omega)]

theorem pc_add (env : Process image) (k q : Nat) (hl : -0x80000000 ≤ (4 * q - 4 * k : Int))
    (hu : (4 * q - 4 * k : Int) < 0x80000000) :
    env.pc k + (BitVec.ofInt 32 (4 * q - 4 * k)).signExtend 64 = env.pc q := by
  rw [signExtend_ofInt _ hl hu, pc, pc, ← BitVec.ofInt_natCast, ← BitVec.ofInt_natCast,
    ← BitVec.ofInt_add]
  congr 1
  omega

/-! ## Lines in the code -/

/-- The address of an imported function. -/
def imported (env : Process image) : Import → BitVec 64
  | .printf => env.printf
  | .exit => env.exit

/-- The string is at the address, among the constants of the image. None of them is there twice. -/
def StringAt (env : Process image) (a : BitVec 64) (bytes : Bytes) : Prop :=
  ∃ (pool : Pool) (n : Nat), image.constants = pool.freeze ∧ pool.strings.toList.Nodup ∧
    pool.strings[n]? = some bytes ∧ env.address? (.constant (.string n)) = some a

/-- The datum is at the address. -/
def Points (env : Process image) (a : BitVec 64) : Datum → Prop
  | .string bytes => env.StringAt a bytes
  | .double bits => ∀ m, env.load? m a = some bits.toBitVec
  | .pointer f => ∀ m, env.load? m a = some (env.imported f)

/-- The line is in the code at word `k`. -/
structure Stands (env : Process image) (place : Label → Nat) (k : Nat) (l : Line) : Prop where
  outside : ∀ n < l.size, env.pc (k + n) ≠ env.printf ∧ env.pc (k + n) ≠ env.exit
  fetch : ∀ (n : Nat) i, (l.resolved place k)[n]? = some i → i.Fits →
    env.fetch (env.pc (k + n)) = some i.unaliased
  reaches : l.Reaches place k
  marked : ∀ label, l = .mark label → place label = k
  datum : ∀ d, l.datum? = some d → ∃ a, env.target? (env.pc k) = some a ∧ env.Points a d

/-- The lines are in the code from word `k` on. -/
def Installed (env : Process image) (place : Label → Nat) (k : Nat) (c : Code) : Prop :=
  ∀ q l, (q, l) ∈ Code.located k c → env.Stands place q l

@[simp] theorem installed_append (place : Label → Nat) (k : Nat) (c d : Code) :
    env.Installed place k (c ++ d) ↔
      env.Installed place k c ∧ env.Installed place (k + Code.size c) d := by
  simp only [Installed, Code.located_append, List.mem_append]
  constructor
  · intro h
    exact ⟨fun q l hl => h q l (.inl hl), fun q l hl => h q l (.inr hl)⟩
  · rintro ⟨hc, hd⟩ q l (hl | hl)
    · exact hc q l hl
    · exact hd q l hl

@[simp] theorem installed_cons (place : Label → Nat) (k : Nat) (l : Line) (c : Code) :
    env.Installed place k (l :: c) ↔
      env.Stands place k l ∧ env.Installed place (k + l.size) c := by
  simp only [Installed, Code.located_cons, List.mem_cons, Prod.mk.injEq]
  constructor
  · intro h
    exact ⟨h k l (.inl ⟨rfl, rfl⟩), fun q l' hl => h q l' (.inr hl)⟩
  · rintro ⟨hl, hc⟩ q l' (⟨rfl, rfl⟩ | hl')
    · exact hl
    · exact hc q l' hl'

theorem perform?_unaliased (env : Process image) (m : Machine) (i : Instr) :
    env.perform? m i.unaliased = env.perform? m i := by
  have hzero : m.get .zr = 0 := rfl
  cases i with
  | orr rd rn rm =>
    by_cases h : rn = .zr <;> simp [Instr.unaliased, perform?, h, hzero]
  | sub rd rn rm =>
    by_cases h : rn = .zr <;> simp [Instr.unaliased, perform?, h, hzero]
  | _ => rfl

theorem step?_of_perform? {pc : BitVec 64} {m m' : Machine} {i : Instr}
    (hfetch : env.fetch pc = some i) (h : env.perform? m i = some m') :
    env.step? pc m = some (pc + 4, m') := by
  cases i with
  | adrp | b | bCond | bl | blr | ret | cbz => cases h
  | _ =>
    exact (congrArg (·.bind (env.execute? pc m)) hfetch).trans
      (congrArg (Option.map (pc + 4, ·)) h)

namespace Stands

variable {place : Label → Nat} {k : Nat} {m m' : Machine}

theorem perform {l : Line} {i : Instr} (h : env.Stands place k l) (n : Nat)
    (hi : (l.resolved place k)[n]? = some i) (hfits : i.Fits)
    (hperform : env.perform? m i = some m') :
    env.Leads (env.pc (k + n)) m (env.pc (k + n + 1)) (· = m') := by
  have hn : n < l.size := by
    rw [← Line.length_resolved place k l]
    exact (List.getElem?_eq_some_iff.mp hi).1
  obtain ⟨hprintf, hexit⟩ := h.outside n hn
  rw [← perform?_unaliased] at hperform
  have hstep := step?_of_perform? (h.fetch n i hi hfits) hperform
  rw [pc_add_four] at hstep
  exact .step hprintf hexit hstep (Leads.refl rfl)

theorem instr {i : Instr} (h : env.Stands place k (.instr i)) (hfits : i.Fits)
    (hperform : env.perform? m i = some m') :
    env.Leads (env.pc k) m (env.pc (k + 1)) (· = m') :=
  h.perform 0 rfl hfits hperform

theorem pc_target {l : Line} {label : Label} (h : env.Stands place k l)
    (htarget : l.target? = some label) :
    env.pc k + (BitVec.ofInt 32 (4 * place label - 4 * k)).signExtend 64 =
      env.pc (place label) := by
  obtain ⟨form, hform⟩ := l.form_of_target label htarget
  obtain ⟨-, hl, hu⟩ := h.reaches label form htarget hform
  have hreach : form.reach ≤ 0x7FFFFFC := by cases form <;> decide
  exact pc_add env k (place label) (by omega) (by omega)

theorem fetch_branch {l : Line} {label : Label} {i : Instr} (h : env.Stands place k l)
    (htarget : l.target? = some label) (hbody : l.body = [i]) :
    env.fetch (env.pc k) = some (i.retarget (BitVec.ofInt 32 (4 * place label - 4 * k))).unaliased
      ∧ env.pc k ≠ env.printf ∧ env.pc k ≠ env.exit := by
  obtain ⟨form, hform⟩ := l.form_of_target label htarget
  obtain ⟨j, hj, hjform⟩ := l.body_of_form form hform
  obtain rfl : i = j := by simpa [hbody] using hj
  have hfits := A64.fits_retarget i form hjform _ (h.reaches label form htarget hform)
  refine ⟨h.fetch 0 _ ?_ hfits, h.outside 0 ?_⟩
  · simp [Line.resolved, htarget, hbody]
  · simp [Line.size, hbody]

theorem jump {label : Label} (h : env.Stands place k (.jump label)) :
    env.Leads (env.pc k) m (env.pc (place label)) (· = m) := by
  obtain ⟨hfetch, hprintf, hexit⟩ := h.fetch_branch rfl rfl
  refine .step hprintf hexit ?_ (Leads.refl rfl)
  rw [step?, hfetch]
  exact congrArg (fun p => some (p, m)) (h.pc_target rfl)

theorem jumpIf {cond : Cond} {label : Label} (h : env.Stands place k (.jumpIf cond label)) :
    env.Leads (env.pc k) m (env.pc (if cond.holds m.flags then place label else k + 1))
      (· = m) := by
  obtain ⟨hfetch, hprintf, hexit⟩ := h.fetch_branch rfl rfl
  refine .step hprintf hexit ?_ (Leads.refl rfl)
  rw [step?, hfetch, apply_ite env.pc, ← pc_add_four, ← h.pc_target rfl]
  rfl

theorem jumpIfZero {reg : XReg} {label : Label} (h : env.Stands place k (.jumpIfZero reg label)) :
    env.Leads (env.pc k) m (env.pc (if m.get reg = 0 then place label else k + 1)) (· = m) := by
  obtain ⟨hfetch, hprintf, hexit⟩ := h.fetch_branch rfl rfl
  refine .step hprintf hexit ?_ (Leads.refl rfl)
  rw [step?, hfetch, apply_ite env.pc, ← pc_add_four, ← h.pc_target rfl]
  rfl

theorem call {label : Label} (h : env.Stands place k (.call label)) :
    env.Leads (env.pc k) m (env.pc (place label)) (· = m.put .x30 (env.pc (k + 1))) := by
  obtain ⟨hfetch, hprintf, hexit⟩ := h.fetch_branch rfl rfl
  refine .step hprintf hexit ?_ (Leads.refl rfl)
  rw [step?, hfetch, ← pc_add_four]
  exact congrArg (fun p => some (p, m.put .x30 (env.pc k + 4))) (h.pc_target rfl)

theorem adrp {l : Line} {a : BitVec 64} {rest : List Instr} (reg : XReg) (h : env.Stands place k l)
    (hl : l.resolved place k = .adrp reg 0 :: rest) (hreg : reg.num ≠ 31)
    (htarget : env.target? (env.pc k) = some a) :
    env.Leads (env.pc k) m (env.pc (k + 1)) (· = m.put reg a) := by
  have hsize : 0 < l.size := by simp [← Line.length_resolved place k l, hl]
  obtain ⟨hprintf, hexit⟩ := h.outside 0 hsize
  have hfetch : env.fetch (env.pc k) = some (.adrp reg 0) :=
    h.fetch 0 (.adrp reg 0) (by simp [hl]) (by simp [Instr.Fits])
  have hstep : env.step? (env.pc k) m = some (env.pc (k + 1), m.put reg a) := by
    rw [step?, hfetch, ← pc_add_four, ← m.set_of_ne reg a hreg]
    exact congrArg (Option.map fun a => (env.pc k + 4, m.set reg a)) htarget
  exact .step hprintf hexit hstep (Leads.refl rfl)

theorem address {reg : XReg} {bytes : Bytes} (h : env.Stands place k (.address reg bytes))
    (hreg : reg.num ≠ 31) :
    ∃ a, env.StringAt a bytes ∧
      ∀ m, env.Leads (env.pc k) m (env.pc (k + 2)) (· = m.put reg a) := by
  obtain ⟨a, htarget, hpoints⟩ := h.datum _ rfl
  refine ⟨a, hpoints, fun m => (h.adrp reg rfl hreg htarget).trans ?_⟩
  rintro _ rfl
  have hperform : env.perform? (m.put reg a) (.addImm reg reg 0) = some (m.put reg a) := by
    simp [perform?, A64.Machine.put_put]
  exact h.perform 1 rfl (by simp [Instr.Fits]) hperform

theorem callImport {f : Import} (h : env.Stands place k (.callImport f)) :
    env.Leads (env.pc k) m (env.imported f)
      (· = (m.put .x16 (env.imported f)).put .x30 (env.pc (k + 3))) := by
  obtain ⟨a, htarget, hpoints⟩ := h.datum _ rfl
  refine (h.adrp .x16 rfl (by decide) htarget).trans ?_
  rintro _ rfl
  have hload : env.perform? (m.put .x16 a) (.ldrX .x16 .x16 0) =
      some (m.put .x16 (env.imported f)) := by
    have hbase : base? (m.put .x16 a) .x16 = some a := rfl
    have := hpoints (m.put .x16 a)
    simp [perform?, hbase, this, A64.Machine.set_of_ne _ _ _ (by decide : XReg.x16.num ≠ 31),
      A64.Machine.put_put]
  refine (h.perform 1 rfl (by simp [Instr.Fits]) hload).trans ?_
  rintro _ rfl
  obtain ⟨hprintf, hexit⟩ := h.outside 2 (by simp [Line.size, Line.body])
  have hfetch := h.fetch 2 (.blr .x16) rfl trivial
  refine .step hprintf hexit ?_ (Leads.refl rfl)
  rw [step?, hfetch, ← env.pc_add_four (k + 2)]
  rfl

end Stands

/-! ## Calls of `printf` -/

theorem argument?_put (m : Machine) (r : XReg) (v : BitVec 64) (hsp : r.num ≠ 31) :
    env.argument? (m.put r v) = env.argument? m := by
  funext k
  rw [argument?, argument?, m.sp_put_of_ne r v hsp]
  rfl

theorem printed?_put (m : Machine) (r : XReg) (v : BitVec 64) (h₀ : r.num ≠ 0)
    (hsp : r.num ≠ 31) : env.printed? (m.put r v) = env.printed? m := by
  have hget : (m.put r v).get .x0 = m.get .x0 := m.x_put_of_ne r _ v h₀.symm
  rw [printed?, printed?, hget, m.sp_put_of_ne r v hsp, argument?_put m r v hsp]

theorem Stands.callPrintf {place : Label → Nat} {k : Nat} {m : Machine} {text : Bytes}
    (h : env.Stands place k (.callImport .printf)) (htext : env.printed? m = some text) :
    env.Leads (env.pc k) m (env.pc (k + 3)) fun m' =>
      m.Kept m' ∧ m'.output = m.output ++ text := by
  refine Eventually.bind h.callImport ?_
  rintro _ _ ⟨rfl, rfl⟩
  refine Eventually.printf text ?_ ?_
  · rw [printed?_put _ _ _ (by decide) (by decide), printed?_put _ _ _ (by decide) (by decide),
      htext]
  · intro m' hkept houtput
    refine Leads.refl ⟨⟨?_, ?_, ?_⟩, houtput⟩
    · intro n hl hu
      rw [hkept.saved n hl hu]
      rw [A64.Machine.x_put_of_ne, A64.Machine.x_put_of_ne]
      · rintro rfl
        exact absurd hl (by decide)
      · rintro rfl
        exact absurd hu (by decide)
    · exact hkept.sp
    · exact hkept.stack

end Process

end Armature
