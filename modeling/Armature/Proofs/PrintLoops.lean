import Armature.Proofs.Loops
import Armature.Proofs.Memory

/-!
# Code that prints

Pieces of code that print texts one after the other, also in loops. A loop counts in slots of the
frame that no variable owns, so the values to print are the same in every round.
-/

namespace Armature

open A64 (Machine XReg)
open Asm (Code Image Label Line)

/-! ## Texts of parts -/

/-- The parts from number `i` on, with what stands before each. -/
def Lower.opened (bracket : String) : Nat → List String → String
  | _, [] => ""
  | i, part :: rest => opening bracket i ++ part ++ opened bracket (i + 1) rest

theorem Value.commaSeparated_cons (bracket part : String) (rest : List String) (i : Nat) :
    commaSeparated (part :: rest) = part ++ Lower.opened bracket (i + 1) rest := by
  induction rest generalizing part i with
  | nil => simp [commaSeparated, Lower.opened]
  | cons next rest ih =>
    have hopening : Lower.opening bracket (i + 1) = ", " := rfl
    rw [Lower.opened, hopening, String.append_assoc, ← ih next (i + 1)]
    simp [commaSeparated, String.append_assoc]

theorem Lower.opened_zero (bracket part : String) (rest : List String) :
    opened bracket 0 (part :: rest) = bracket ++ Value.commaSeparated (part :: rest) := by
  have hopening : opening bracket 0 = bracket := rfl
  rw [Value.commaSeparated_cons bracket part rest 0, opened, hopening, String.append_assoc]

theorem Lower.nulFree_opening {bracket : String} (h : NulFree bracket) (i : Nat) :
    NulFree (opening bracket i) := by
  unfold opening
  split
  · exact h
  · decide

/-- The lines that print a comma. -/
def Lower.separator (counter : Slot) (skip : Label) : Code :=
  loadX .x0 counter :: .jumpIfZero .x0 skip :: printText ", " ++ [.mark skip]

theorem Lower.printSeparator_ok {counter : Slot} {c : Code} {s s' : Scope}
    (h : printSeparator counter s = .ok (c, s')) :
    ∃ skip labels, c = separator counter skip ∧ s' = { s with labels } := by
  simp only [printSeparator, Lowering.bind_ok, Lowering.newLabel_ok, Lowering.pure_ok] at h
  obtain ⟨skip, _, ⟨-, rfl⟩, rfl, rfl⟩ := h
  exact ⟨skip, _, rfl, rfl⟩

namespace Process

variable {image : Image} {env : Process image} {place : Label → Nat} {k base i : Nat}
  {m m₁ m' : Machine} {words : Slot → BitVec 64} {writes writes' : List Slot} {c c' : Code}
  {text text' : String}

/-! ## What printing leaves -/

/-- The text has been printed, and what a function must keep is as it was. In the frame, only the
slots `writes` may have changed. -/
structure Wrote (base : Nat) (writes : List Slot) (m : Machine) (text : String) (m' : Machine) :
    Prop where
  saved : ∀ n : BitVec 5, 19 ≤ n.toNat → n.toNat ≤ 29 → m'.x n = m.x n
  sp : m'.sp = m.sp
  stack : ∀ a, base + 64 ≤ a → (∀ slot ∈ writes, a ≠ base + slot.distance) →
    m'.stack a = m.stack a
  output : m'.output = m.output ++ Bytes.ofText text

namespace Wrote

theorem refl (base : Nat) (writes : List Slot) (m : Machine) : Wrote base writes m "" m where
  saved _ _ _ := rfl
  sp := rfl
  stack _ _ _ := rfl
  output := by rw [Bytes.ofText_empty, List.append_nil]

theorem trans (h : Wrote base writes m text m₁) (h' : Wrote base writes m₁ text' m') :
    Wrote base writes m (text ++ text') m' where
  saved n hl hu := (h'.saved n hl hu).trans (h.saved n hl hu)
  sp := h'.sp.trans h.sp
  stack a ha hwrites := (h'.stack a ha hwrites).trans (h.stack a ha hwrites)
  output := by rw [h'.output, h.output, Bytes.ofText_append, List.append_assoc]

theorem mono (h : Wrote base writes m text m') (hsub : writes ⊆ writes') :
    Wrote base writes' m text m' where
  saved := h.saved
  sp := h.sp
  stack a ha hwrites := h.stack a ha fun slot hslot => hwrites slot (hsub hslot)
  output := h.output

theorem ofPrinted (h : Printed m (Bytes.ofText text) m') (hsp : m.sp.toNat = base) :
    Wrote base writes m text m' where
  saved := h.saved
  sp := h.sp
  stack a ha _ := h.stack a (hsp ▸ ha)
  output := h.output

theorem ofQuiet (h : Wrote base writes m₁ text m') (hquiet : m.Quiet 9 m₁)
    (hout : m₁.output = m.output) (hsp : m.sp.toNat = base) : Wrote base writes m text m' := by
  have hprinted : Printed m₁ (Bytes.ofText "") m₁ :=
    ⟨fun _ _ _ => rfl, rfl, fun _ _ => rfl, by rw [Bytes.ofText_empty, List.append_nil]⟩
  have htrans := (ofPrinted (hprinted.ofQuiet hquiet hout) hsp).trans h
  rwa [String.empty_append] at htrans

theorem stored (hquiet : m.Quiet 9 m₁) (hout : m₁.output = m.output) (hsp : m.sp.toNat = base)
    {slot : Slot} (hslot : slot ∈ writes) (x : BitVec 64) :
    Wrote base writes m "" (m₁.store (base + slot.distance) x) := by
  have hstore : Wrote base writes m₁ "" (m₁.store (base + slot.distance) x) := by
    refine ⟨fun _ _ _ => rfl, rfl, ?_, (refl base writes m₁).output⟩
    intro a _ hwrites
    rw [Machine.stack_store, if_neg (hwrites slot hslot)]
  exact hstore.ofQuiet hquiet hout hsp

theorem slots (h : Wrote base writes m text m') {slot : Slot} (hslot : slot ∉ writes) :
    m'.slots base slot = m.slots base slot := by
  have hdistance : slot.distance = 64 + 8 * slot.index.toNat := rfl
  refine h.stack _ (by omega) fun other hother heq => ?_
  have hne : slot ≠ other := fun h => hslot (h ▸ hother)
  have := Slot.distance_ne hne
  omega

theorem inFrame (h : Wrote base writes m text m') (hm : env.InFrame base m) :
    env.InFrame base m' :=
  hm.congr (h.saved 28 (by decide) (by decide)) h.sp

end Wrote

/-! ## Pieces of code -/

theorem Encodes.ne_float {kind : Scalar} {w : BitVec 64} {v : Value} (h : env.Encodes kind w v)
    (hv : v.Leaf) : kind ≠ .float := by
  rintro rfl
  cases v with
  | float x => exact hv
  | _ => exact h

/-- The code prints the text if the slots hold `words`. What the slots `writes` hold does not
matter, and the code may change it. -/
def Prints (env : Process image) (place : Label → Nat) (base : Nat) (words : Slot → BitVec 64)
    (writes : List Slot) (c : Code) (text : String) : Prop :=
  ∀ k m, env.Installed place k c → env.InFrame base m → m.sp.toNat = base →
    (∀ slot, slot ∉ writes → m.slots base slot = words slot) →
    env.Leads (env.pc k) m (env.pc (k + c.size)) (Wrote base writes m text)

theorem Prints.append (h : env.Prints place base words writes c text)
    (h' : env.Prints place base words writes c' text') :
    env.Prints place base words writes (c ++ c') (text ++ text') := by
  intro k m hk hm hsp hwords
  rw [installed_append] at hk
  rw [Code.size_append, ← Nat.add_assoc]
  refine (h k m hk.1 hm hsp hwords).trans ?_
  intro m₁ hm₁
  refine (h' _ m₁ hk.2 (hm₁.inFrame hm) (by rw [hm₁.sp]; exact hsp) ?_).mono ?_
  · intro slot hslot
    rw [hm₁.slots hslot, hwords slot hslot]
  · exact fun m' hm' => hm₁.trans hm'

theorem prints_text (htext : NulFree text) :
    env.Prints place base words writes (Lower.printText text) text := by
  intro k m hk hm hsp _
  exact (hk.printText hm.aligned htext).mono fun m' hm' => .ofPrinted hm' hsp

theorem prints_part {code : Code} {kind : Scalar} {w : BitVec 64} {v : Value}
    {before after : String}
    (hcode : ∀ k m, env.Installed place k code → env.InFrame base m →
      (∀ slot, slot ∉ writes → m.slots base slot = words slot) →
      env.Yields 9 k (k + code.size) m w m.output)
    (hw : env.Encodes kind w v) (hv : v.Leaf) (hbefore : NulFree before) (hafter : NulFree after) :
    env.Prints place base words writes (code ++ Lower.printPart kind before after)
      (before ++ v.repr ++ after) := by
  intro k m hk hm hsp hwords
  rw [installed_append] at hk
  rw [Code.size_append, ← Nat.add_assoc]
  refine (hcode k m hk.1 hm hwords).trans ?_
  rintro m₁ ⟨hx0, hquiet, hout⟩
  rw [← hx0] at hw
  refine (hk.2.printPart (hm.quiet hquiet) hw hv hbefore hafter).mono ?_
  intro m' hm'
  exact (Wrote.ofPrinted hm' (by rw [hquiet.sp]; exact hsp)).ofQuiet hquiet hout hsp

theorem prints_load {kind : Scalar} {slot : Slot} {v : Value} {before after : String}
    (hslot : slot.index.toNat < 256) (hfree : slot ∉ writes)
    (hholds : env.Encodes kind (words slot) v) (hv : v.Leaf) (hbefore : NulFree before)
    (hafter : NulFree after) :
    env.Prints place base words writes (Lower.load kind slot :: Lower.printPart kind before after)
      (before ++ v.repr ++ after) := by
  have hkind := hholds.ne_float hv
  have hload : Lower.load kind slot = Lower.loadX .x0 slot := if_neg hkind
  rw [hload, ← List.singleton_append]
  refine prints_part ?_ hholds hv hbefore hafter
  intro k m hk hm hwords
  rw [← hwords slot hfree]
  exact .of_put (((installed_cons ..).mp hk).1.loadX hm slot hslot (by decide))

/-! ## Loops -/

variable {counter stop : Slot} {top exit skip : Label} {body : Code} {rest texts : List String}
  {count : Nat}

theorem prints_separator (hcounter : counter.index.toNat < 256) (hfree : counter ∉ writes)
    (hi : i < 2 ^ 63) (hwords : words counter = BitVec.ofNat 64 i) :
    env.Prints place base words writes (Lower.separator counter skip) (Lower.opening "" i) := by
  intro k m hk hm hsp hslots
  simp only [Lower.separator, List.cons_append, installed_cons, installed_append] at hk
  obtain ⟨hload, hjump, hprint, hskip, -⟩ := hk
  have hplace := hskip.marked skip rfl
  refine (hload.loadX hm counter hcounter (by decide)).trans ?_
  rintro _ rfl
  have hx0 : m.stack (base + counter.distance) = BitVec.ofNat 64 i :=
    (hslots counter hfree).trans hwords
  rw [hx0]
  have hquiet : m.Quiet 9 (m.put .x0 (BitVec.ofNat 64 i)) :=
    Machine.quiet_put 9 m .x0 _ (Machine.not_survives_of_lt 9 _ (by decide))
  have hsp' : (m.put .x0 (BitVec.ofNat 64 i)).sp.toNat = base := by
    rw [hquiet.sp]
    exact hsp
  have hjump := hjump.jumpIfZero (m := m.put .x0 (BitVec.ofNat 64 i))
  have hzero : BitVec.ofNat 64 i = 0 ↔ i = 0 := by
    rw [← BitVec.toNat_inj, BitVec.toNat_ofNat, Nat.mod_eq_of_lt (by omega)]
    exact Iff.rfl
  simp only [m.get_put_self .x0 _ (by decide), hzero] at hjump
  have hend : place skip = k + Code.size (Lower.separator counter skip) := by
    rw [hplace]
    simp [Lower.separator, Lower.loadX, Line.size, Line.body]
    omega
  rw [← hend]
  unfold Lower.opening
  split at hjump
  · rename_i hi
    rw [if_pos hi]
    refine hjump.mono ?_
    rintro _ rfl
    exact (Wrote.refl base writes _).ofQuiet hquiet rfl hsp
  · rename_i hi
    rw [if_neg hi]
    refine hjump.trans ?_
    rintro _ rfl
    refine ((hprint.printText (hm.quiet hquiet).aligned (by decide)).mono ?_).cast hplace.symm
    exact fun m' hm' => (Wrote.ofPrinted hm' hsp').ofQuiet hquiet rfl hsp

/-- The slots that a loop counts in are in the frame, and its body does not change them. -/
structure Counting (counter stop : Slot) (writes : List Slot) : Prop where
  counter_lt : counter.index.toNat < 256
  stop_lt : stop.index.toNat < 256
  ne : counter ≠ stop
  counter_free : counter ∉ writes
  stop_free : stop ∉ writes

theorem Installed.initCounter (hslots : Counting counter stop writes)
    (h : env.Installed place k (Lower.initCounter counter stop count))
    (hm : env.InFrame base m) (hsp : m.sp.toNat = base) :
    env.Leads (env.pc k) m (env.pc (k + Code.size (Lower.initCounter counter stop count))) fun m' =>
      m'.slots base counter = 0 ∧ m'.slots base stop = BitVec.ofNat 64 count ∧
        Wrote base (counter :: stop :: writes) m "" m' := by
  have hfree : ¬ Machine.Survives 9 XReg.x0.num := Machine.not_survives_of_lt 9 _ (by decide)
  simp only [Lower.initCounter, List.append_assoc, List.cons_append, installed_append,
    installed_cons] at h
  obtain ⟨hzero, hstore, hcount, hstore', -⟩ := h
  refine (hzero.constant .x0 0 (by decide)).trans ?_
  rintro _ rfl
  have hquiet := Machine.quiet_put 9 m .x0 0 hfree
  refine (hstore.storeX (hm.quiet hquiet) counter hslots.counter_lt).trans ?_
  rintro _ rfl
  rw [m.get_put_self .x0 _ (by decide)]
  generalize hm₁ : (m.put .x0 0).store (base + counter.distance) 0 = m₁
  have hwrote : Wrote base (counter :: stop :: writes) m "" m₁ := by
    subst hm₁
    exact .stored hquiet rfl hsp List.mem_cons_self 0
  refine (hcount.constant .x0 _ (by decide)).trans ?_
  rintro _ rfl
  have hquiet' := Machine.quiet_put 9 m₁ .x0 (BitVec.ofNat 64 count) hfree
  have hframe := (hwrote.inFrame hm).quiet hquiet'
  refine ((hstore'.storeX hframe stop hslots.stop_lt).mono ?_).cast ?_
  · rintro _ rfl
    rw [Machine.get_put_self _ .x0 _ (by decide)]
    refine ⟨?_, Machine.slots_store_self .., ?_⟩
    · rw [Machine.slots_store_of_ne _ _ _ hslots.ne, ← hm₁]
      exact Machine.slots_store_self ..
    · have hstop : stop ∈ counter :: stop :: writes := List.mem_cons_of_mem _ List.mem_cons_self
      exact hwrote.trans (.stored hquiet' rfl (by rw [hwrote.sp]; exact hsp) hstop _)
  · simp [Lower.initCounter, Lower.storeX, Line.size, Line.body]
    omega

theorem Installed.testCount (h : env.Installed place k (Lower.loopHead top exit counter stop))
    (hm : env.InFrame base m) (hcounter : counter.index.toNat < 256)
    (hstop : stop.index.toNat < 256) (hi : m.slots base counter = BitVec.ofNat 64 i)
    (hend : m.slots base stop = BitVec.ofNat 64 count) (hle : i ≤ count) (hlt : count < 2 ^ 63) :
    env.Leads (env.pc k) m (env.pc (if count = i then place exit else k + 4)) fun m' =>
      m.Quiet 9 m' ∧ m'.output = m.output := by
  have hint (n : Nat) (hn : n < 2 ^ 63) : (Int64.ofNat n).toInt = n := Int64.toInt_ofNat_of_lt hn
  have htest : Int64.ofNat count ≤ Int64.ofNat i ↔ count = i := by
    rw [Int64.le_iff_toInt_le, hint count hlt, hint i (by omega)]
    omega
  have hcount : m.stack (base + stop.distance) = (Int64.ofNat count).toBitVec := hend
  have hleads := h.loopHead (i := Int64.ofNat i) 9 hcounter hstop hm hi hcount
  simpa only [htest] using hleads

/-- The machine at the top of a loop, before round number `i`. -/
structure AtRound (env : Process image) (base : Nat) (words : Slot → BitVec 64)
    (writes : List Slot) (counter stop : Slot) (count i : Nat) (m : Machine) : Prop where
  frame : env.InFrame base m
  sp : m.sp.toNat = base
  words : ∀ slot, slot ∉ counter :: stop :: writes → m.slots base slot = words slot
  counter : m.slots base counter = BitVec.ofNat 64 i
  stop : m.slots base stop = BitVec.ofNat 64 count

/-- The body prints its part of the text in round number `i`. -/
def PrintsRound (env : Process image) (place : Label → Nat) (base : Nat)
    (words : Slot → BitVec 64) (writes : List Slot) (counter stop : Slot) (body : Code) (i : Nat)
    (text : String) : Prop :=
  ∀ words', words' counter = BitVec.ofNat 64 i →
    (∀ slot, slot ∉ counter :: stop :: writes → words' slot = words slot) →
    env.Prints place base words' writes body (Lower.opening "" i ++ text)

variable (hslots : Counting counter stop writes)
  (hk : env.Installed place k (Lower.loopHead top exit counter stop ++ body ++
    Lower.loopTail top exit counter))

include hslots hk

theorem AtRound.next (hm : env.AtRound base words writes counter stop count i m) (hi : i < count)
    (hcount : count < 2 ^ 63)
    (hbody : env.PrintsRound place base words writes counter stop body i text) :
    env.Leads (env.pc k) m (env.pc k) fun m' =>
      env.AtRound base words writes counter stop count (i + 1) m' ∧
        Wrote base (counter :: stop :: writes) m (Lower.opening "" i ++ text) m' := by
  obtain ⟨hhead, hcode, htail⟩ := installed_loop hk
  have htop : place top = k := ((installed_cons ..).mp hhead).1.marked top rfl
  have htest := hhead.testCount hm.frame hslots.counter_lt hslots.stop_lt hm.counter hm.stop
    (by omega) hcount
  rw [if_neg (by omega)] at htest
  refine htest.trans ?_
  rintro m₁ ⟨hquiet₁, hout₁⟩
  have hframe₁ := hm.frame.quiet hquiet₁
  have hsp₁ : m₁.sp.toNat = base := by rw [hquiet₁.sp]; exact hm.sp
  have hslots₁ := hquiet₁.slots hm.frame.below
  have hround := hbody (m₁.slots base) (by rw [hslots₁]; exact hm.counter)
    (by rw [hslots₁]; exact hm.words)
  refine (hround _ m₁ hcode hframe₁ hsp₁ fun _ _ => rfl).trans ?_
  intro m₂ hm₂
  have hframe₂ := hm₂.inFrame hframe₁
  have hcounter₂ : m₂.slots base counter = (Int64.ofNat i).toBitVec := by
    rw [hm₂.slots hslots.counter_free, hslots₁, hm.counter]
    rfl
  refine (htail.loopTail 9 hslots.counter_lt hframe₂ hcounter₂).trans ?_
  rintro _ ⟨m₃, hquiet₃, hout₃, rfl⟩
  rw [htop]
  have hslots₃ (slot : Slot) (hfree : slot ∉ writes) : m₃.slots base slot = m.slots base slot := by
    rw [hquiet₃.slots hframe₂.below, hm₂.slots hfree, hslots₁]
  have hround₂ := hm₂.mono (List.subset_cons_of_subset counter (List.subset_cons_self stop writes))
  have hwrote := (hround₂.ofQuiet hquiet₁ hout₁ hm.sp).trans (.stored hquiet₃ hout₃
    (by rw [hm₂.sp]; exact hsp₁) List.mem_cons_self (Int64.ofNat i + 1).toBitVec)
  rw [String.append_empty] at hwrote
  refine .refl ⟨⟨hwrote.inFrame hm.frame, by rw [hwrote.sp]; exact hm.sp, ?_, ?_, ?_⟩, hwrote⟩
  · intro slot hslot
    rw [hwrote.slots hslot, hm.words slot hslot]
  · rw [Machine.slots_store_self]
    exact (congrArg Int64.toBitVec (Int64.ofNat_add i 1)).symm
  · rw [Machine.slots_store_of_ne _ _ _ hslots.ne.symm, hslots₃ stop hslots.stop_free, hm.stop]

theorem AtRound.all (hm : env.AtRound base words writes counter stop count i m)
    (hcount : i + rest.length = count) (hlt : count < 2 ^ 63)
    (hbody : ∀ (j : Nat) text, rest[j]? = some text →
      env.PrintsRound place base words writes counter stop body (i + j) text) :
    env.Leads (env.pc k) m (env.pc (place exit))
      (Wrote base (counter :: stop :: writes) m (Lower.opened "" i rest)) := by
  induction rest generalizing i m with
  | nil =>
    have hlast : count = i := hcount.symm
    have htest := (installed_loop hk).1.testCount hm.frame hslots.counter_lt hslots.stop_lt
      hm.counter hm.stop (by omega) hlt
    rw [if_pos hlast] at htest
    refine htest.mono ?_
    rintro m' ⟨hquiet, hout⟩
    exact (Wrote.refl base _ m').ofQuiet hquiet hout hm.sp
  | cons text rest ih =>
    rw [List.length_cons] at hcount
    refine (hm.next hslots hk (by omega) hlt (hbody 0 text rfl)).trans ?_
    rintro m₁ ⟨hm₁, hwrote⟩
    refine (ih hm₁ (by omega) ?_).mono fun m' hm' => hwrote.trans hm'
    intro j text hj
    rw [Nat.add_right_comm]
    exact hbody (j + 1) text hj

omit hk in
theorem prints_loop (hcount : texts.length = count) (hlt : count < 2 ^ 63)
    (hbody : ∀ (i : Nat) text, texts[i]? = some text →
      env.PrintsRound place base words writes counter stop body i text) :
    env.Prints place base words (counter :: stop :: writes)
      (Lower.initCounter counter stop count ++ (Lower.loopHead top exit counter stop ++ body
        ++ Lower.loopTail top exit counter)) (Value.commaSeparated texts) := by
  intro k m hk hm hsp hwords
  rw [installed_append] at hk
  refine (hk.1.initCounter hslots hm hsp).trans ?_
  rintro m₁ ⟨hcounter, hstop, hwrote⟩
  have hround : env.AtRound base words writes counter stop count 0 m₁ := by
    refine ⟨hwrote.inFrame hm, by rw [hwrote.sp]; exact hsp, ?_, hcounter, hstop⟩
    intro slot hslot
    rw [hwrote.slots hslot, hwords slot hslot]
  refine ((hround.all hslots hk.2 ((Nat.zero_add _).trans hcount) hlt ?_).mono ?_).cast ?_
  · intro j text hj
    rw [Nat.zero_add]
    exact hbody j text hj
  · intro m' hm'
    have hopened : Lower.opened "" 0 texts = "" ++ Value.commaSeparated texts := by
      cases texts with
      | nil => rfl
      | cons text rest => exact Lower.opened_zero "" text rest
    have hall := hwrote.trans hm'
    rwa [hopened, String.empty_append, String.empty_append] at hall
  · have hexit := (installed_loop hk.2).2.2
    simp only [Lower.loopTail, installed_cons] at hexit
    rw [hexit.2.2.2.2.1.marked exit rfl]
    simp [Lower.loopHead, Lower.loopTail, Lower.loadX, Lower.storeX, Line.size, Line.body]
    omega

end Process

end Armature
