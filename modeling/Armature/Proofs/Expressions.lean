import Armature.Proofs.Memory
import Armature.Proofs.Straight

/-!
# Expressions

The code of an expression leaves the word of the value that the expression evaluates to, if the
frame in memory reflects the state that it is evaluated in. The expression may have no calls, and
no doubles.
-/

namespace Armature

open A64 (Machine)
open Asm (Code Image Label Line)

/-! ## Parts of expressions -/

namespace Expr

mutual

/-- The expression and all that it is built from. -/
def parts : Expr → List Expr
  | binary op lhs rhs => binary op lhs rhs :: (lhs.parts ++ rhs.parts)
  | unary op operand => unary op operand :: operand.parts
  | call name args => call name args :: allParts args
  | array items => array items :: allParts items
  | tuple items => tuple items :: allParts items
  | dict entries => dict entries :: entryParts entries
  | index target position => index target position :: (target.parts ++ position.parts)
  | input prompt => input prompt :: prompt.parts
  | e => [e]

def allParts : List Expr → List Expr
  | [] => []
  | e :: rest => e.parts ++ allParts rest

def entryParts : List (Expr × Expr) → List Expr
  | [] => []
  | (key, value) :: rest => key.parts ++ value.parts ++ entryParts rest

end

theorem mem_parts (e : Expr) : e ∈ e.parts := by
  cases e <;> simp [parts]

theorem allParts_eq (items : List Expr) : allParts items = items.flatMap parts := by
  induction items with
  | nil => rfl
  | cons e rest ih => simp [allParts, ih]

theorem entryParts_eq (entries : List (Expr × Expr)) :
    entryParts entries = entries.flatMap fun entry => entry.1.parts ++ entry.2.parts := by
  induction entries with
  | nil => rfl
  | cons entry rest ih => simp [entryParts, ih]

mutual

/-- How many words the value takes. -/
def span : Expr → Nat
  | array items => allSpan items
  | _ => 1

def allSpan : List Expr → Nat
  | [] => 0
  | e :: rest => e.span + allSpan rest

end

mutual

/-- How many words wait on the stack while the expression is computed, at most. The words of a
composite all do. -/
def pushes : Expr → Nat
  | binary _ lhs rhs => max lhs.pushes (rhs.pushes + 1)
  | unary _ operand => operand.pushes
  | index target position => max target.pushes (position.pushes + 1)
  | array items | tuple items => allPushes items
  | dict entries => entryPushes entries
  | _ => 0

def allPushes : List Expr → Nat
  | [] => 0
  | e :: rest => max e.pushes (e.span + allPushes rest)

def entryPushes : List (Expr × Expr) → Nat
  | [] => 0
  | (_, value) :: rest => max value.pushes (value.span + entryPushes rest)

end

end Expr

namespace Run

theorem relates_callFree (rounds depth : Nat) (e : Expr) (h : e.calls = []) :
    Relates (fun s s' => s' = s) (evalWithin rounds depth e) := by
  have hR : Lasting fun s s' => s' = s := ⟨fun _ => rfl, fun _ _ _ h h' => h'.trans h⟩
  induction depth generalizing e with
  | zero => exact relates_cutShort
  | succ depth ih =>
    cases e with
    | int | float | str | bool | nil => exact relates_pure hR _
    | var name => exact relates_getVar hR name
    | binary op lhs rhs | index lhs rhs =>
      simp only [Expr.calls, List.append_eq_nil_iff] at h
      exact (ih lhs h.1).bind hR fun v => (ih rhs h.2).bind hR fun w => relates_lift hR _
    | unary op operand => exact (ih operand h).bind hR fun v => relates_lift hR _
    | call name args => simp [Expr.calls] at h
    | array items | tuple items =>
      simp only [Expr.calls, Expr.allCalls_eq, List.flatMap_eq_nil_iff] at h
      exact (relates_mapAll hR _ items fun e he => ih e (h e he)).bind hR fun vs =>
        relates_pure hR _
    | dict entries =>
      simp only [Expr.calls, Expr.entryCalls_eq, List.flatMap_eq_nil_iff,
        List.append_eq_nil_iff] at h
      exact (relates_dictFields hR _ [] entries fun entry he =>
        ⟨ih entry.1 (h entry he).1, ih entry.2 (h entry he).2⟩).bind hR fun fields =>
          relates_pure hR _
    | interpolation parts =>
      exact (relates_mapAll hR _ parts fun part _ => relates_partText hR part).bind hR fun ts =>
        relates_pure hR _
    | input => exact relates_fail hR _

end Run

namespace Lower

/-- No part of the expression has calls, and none has code that leaves a double. -/
def plain (s : Scope) (depth : Nat) (e : Expr) : Bool :=
  e.parts.all fun part => part.calls.isEmpty &&
    match expr s depth part with
    | .ok value => value.kind ≠ .float
    | .error _ => true

section Plain

variable {s : Scope} {depth : Nat} {e part lhs rhs : Expr}

theorem plain_of_subset (h : plain s depth e = true) (hparts : part.parts ⊆ e.parts) :
    plain s depth part = true :=
  List.all_eq_true.mpr fun p hp => List.all_eq_true.mp h p (hparts hp)

theorem plain_kind {value : ValueCode} (h : plain s depth e = true)
    (hvalue : expr s depth e = .ok value) : value.kind ≠ .float := by
  have hself := List.all_eq_true.mp h e e.mem_parts
  simpa [hvalue] using (Bool.and_eq_true_iff.mp hself).2

theorem plain_calls (h : plain s depth e = true) : e.calls = [] := by
  have hself := List.all_eq_true.mp h e e.mem_parts
  simpa using (Bool.and_eq_true_iff.mp hself).1

theorem plain_binary {op : BinaryOp} (h : plain s depth (.binary op lhs rhs) = true) :
    plain s depth lhs = true ∧ plain s depth rhs = true :=
  ⟨plain_of_subset h fun p hp => by simp [Expr.parts, hp],
    plain_of_subset h fun p hp => by simp [Expr.parts, hp]⟩

theorem plain_index (h : plain s depth (.index lhs rhs) = true) :
    plain s depth lhs = true ∧ plain s depth rhs = true :=
  ⟨plain_of_subset h fun p hp => by simp [Expr.parts, hp],
    plain_of_subset h fun p hp => by simp [Expr.parts, hp]⟩

theorem plain_unary {op : UnaryOp} (h : plain s depth (.unary op e) = true) :
    plain s depth e = true :=
  plain_of_subset h fun p hp => by simp [Expr.parts, hp]

theorem plain_array {items : List Expr} (h : plain s depth (.array items) = true) :
    ∀ e ∈ items, plain s depth e = true := by
  intro e he
  refine plain_of_subset h fun p hp => List.mem_cons_of_mem _ ?_
  rw [Expr.allParts_eq]
  exact List.mem_flatMap.mpr ⟨e, he, hp⟩

theorem plain_tuple {items : List Expr} (h : plain s depth (.tuple items) = true) :
    ∀ e ∈ items, plain s depth e = true := by
  intro e he
  refine plain_of_subset h fun p hp => List.mem_cons_of_mem _ ?_
  rw [Expr.allParts_eq]
  exact List.mem_flatMap.mpr ⟨e, he, hp⟩

theorem plain_dict {entries : List (Expr × Expr)} (h : plain s depth (.dict entries) = true) :
    ∀ entry ∈ entries, plain s depth entry.2 = true := by
  intro entry hentry
  refine plain_of_subset h fun p hp => List.mem_cons_of_mem _ ?_
  rw [Expr.entryParts_eq]
  exact List.mem_flatMap.mpr ⟨entry, hentry, List.mem_append_right _ hp⟩

end Plain

end Lower

namespace Run

theorem state_of_plain {rounds depth d : Nat} {scope : Scope} {e : Expr} {s s' : State} {v : Value}
    (h : Lower.plain scope d e = true) (hv : evalWithin rounds depth e s = .done v s') : s' = s :=
  relates_callFree rounds depth e (Lower.plain_calls h) s s' (by rw [hv]; rfl)

end Run

namespace Process

variable {image : Image} {env : Process image} {place : Label → Nat} {k base d room : Nat}
  {m : Machine} {words : Slot → BitVec 64} {kind : Scalar} {v : Value}

/-! ## Strings of the code -/

/-- The strings that the code refers to are among the constants. -/
def Interns (env : Process image) (c : Code) : Prop :=
  ∀ reg bytes, Line.address reg bytes ∈ c → ∃ a, env.StringAt a bytes

theorem Interns.mono {c c' : Code} (h : env.Interns c') (hsub : c ⊆ c') : env.Interns c :=
  fun reg bytes hl => h reg bytes (hsub hl)

theorem Installed.interns {c : Code} (h : env.Installed place k c) : env.Interns c := by
  intro reg bytes hl
  obtain ⟨q, hq⟩ := Code.exists_mem_located k c _ hl
  obtain ⟨a, -, hpoints⟩ := (h q _ hq).datum _ rfl
  exact ⟨a, hpoints⟩

/-! ## Code that gives a value -/

/-- The code leaves a word of the value wherever it is, if the slots of the frame hold `words` and
there is room for so many words on the stack. -/
def Gives (env : Process image) (place : Label → Nat) (base : Nat) (words : Slot → BitVec 64)
    (d : Nat) (c : Lower.ValueCode) (room : Nat) (v : Value) : Prop :=
  ∃ w, env.Encodes c.kind w v ∧ ∀ k m, env.Installed place k c.code → env.InFrame base m →
    m.slots base = words → env.stackLow + 16 * room ≤ m.sp.toNat →
    env.Yields d k (k + Code.size c.code) m w m.output

theorem Gives.mono {c : Lower.ValueCode} {room' : Nat}
    (h : env.Gives place base words d c room v) (hle : room ≤ room') :
    env.Gives place base words d c room' v := by
  obtain ⟨w, hw, hcode⟩ := h
  exact ⟨w, hw, fun k m hk hm hslots hroom => hcode k m hk hm hslots (by omega)⟩

theorem gives_constant (hv : v.HasWord kind) :
    env.Gives place base words d ⟨kind, Lower.constant .x0 v.word⟩ room v :=
  ⟨v.word, encodes_word env hv, fun _ _ hk _ _ _ => .of_put (hk.constant .x0 v.word (by decide))⟩

theorem gives_string {source : String} (h : env.Interns [.address .x0 (Escape.bytes source)]) :
    env.Gives place base words d ⟨.string, [.address .x0 (Escape.bytes source)]⟩ room
      (.str (Escape.text source)) := by
  obtain ⟨a, ha⟩ := h .x0 (Escape.bytes source) (List.mem_singleton.mpr rfl)
  refine ⟨a, ?_, fun k m hk _ _ _ => ?_⟩
  · rw [Escape.bytes_eq] at ha
    exact ha
  · -- the address does not depend on where the code is
    obtain ⟨a', ha', hleads⟩ := ((installed_cons ..).mp hk).1.address (by decide)
    obtain rfl : a = a' := (ha.eq_iff ha').mpr rfl
    exact .of_put (hleads m)

theorem gives_load {slot : Slot} (hkind : kind ≠ .float) (hslot : slot.index.toNat < 256)
    (hv : env.Encodes kind (words slot) v) :
    env.Gives place base words d ⟨kind, [Lower.load kind slot]⟩ room v := by
  rw [Lower.load, if_neg hkind]
  refine ⟨words slot, hv, fun k m hk hm hslots _ => ?_⟩
  have hload := ((installed_cons ..).mp hk).1
  rw [← hslots]
  exact .of_put (hload.loadX hm slot hslot (by decide))

/-! ## Operators -/

theorem Gives.binary {op : BinaryOp} {left right c : Lower.ValueCode} {room' : Nat} {w r : Value}
    (hleft : env.Gives place base words d left room v)
    (hright : env.Gives place base words d right room' w) (hfloat : left.kind ≠ .float)
    (hfloat' : right.kind ≠ .float) (hc : Lower.binary op left right = .ok c)
    (hr : Value.binary op v w = .ok r) :
    env.Gives place base words d c (max room (room' + 1)) r := by
  obtain ⟨a, ha, hleft⟩ := hleft
  obtain ⟨b, hb, hright⟩ := hright
  refine ⟨r.word, encodes_word env (hasWord_binary hfloat hfloat' ha hb hc hr), ?_⟩
  intro k m hk hm hslots hroom
  have hbelow := hm.below
  have hhigh := hm.high
  have hleft' (k : Nat) (hk : env.Installed place k left.code) :
      env.Yields d k (k + Code.size left.code) m a m.output :=
    hleft k m hk hm hslots (by omega)
  refine Installed.binary hleft' ?_ hm.aligned (by omega) (by omega) hfloat hfloat' ha hb hc hr hk
  intro k x m₂ hk hpushed hout
  rw [← hout]
  refine hright k m₂ hk (hpushed.inFrame hm (by omega)) ((hpushed.slots hbelow).trans hslots) ?_
  rw [hpushed.toNat_sp]
  omega

theorem Gives.unary {op : UnaryOp} {operand c : Lower.ValueCode} {r : Value}
    (h : env.Gives place base words d operand room v) (hfloat : operand.kind ≠ .float)
    (hc : Lower.unary op operand = .ok c) (hr : Value.unary op v = .ok r) :
    env.Gives place base words d c room r := by
  obtain ⟨a, ha, hcode⟩ := h
  refine ⟨r.word, encodes_word env (hasWord_unary hfloat ha hc hr), ?_⟩
  intro k m hk hm hslots hroom
  exact Installed.unary hfloat ha (fun hk => hcode k m hk hm hslots hroom) hc hr hk

/-! ## Elements -/

theorem toBitVec_of_nonneg (i : Int64) (h : 0 ≤ i.toInt) :
    i.toBitVec = BitVec.ofNat 64 i.toInt.toNat := by
  rw [← BitVec.ofInt_natCast, Int.toNat_of_nonneg h, ← Int64.toInt_toBitVec, BitVec.ofInt_toInt]

theorem Installed.loadAt (d : Nat) {first : Slot} {n : Nat}
    (h : env.Installed place k (Lower.loadAt kind first)) (hkind : kind ≠ .float)
    (hm : env.InFrame base m) (hx0 : m.get .x0 = BitVec.ofNat 64 n)
    (hindex : (first.nth n).index.toNat = first.index.toNat + n)
    (hlt : first.index.toNat + n < 256) :
    env.Yields d k (k + Code.size (Lower.loadAt kind first)) m (m.slots base (first.nth n))
      m.output := by
  have hfirst : first.index.toNat < 256 := by omega
  have hsize : Code.size (Lower.loadAt kind first) = 2 := by
    rw [Lower.loadAt, if_neg hkind]
    rfl
  rw [hsize]
  simp only [Lower.loadAt, if_neg hkind, installed_cons] at h
  obtain ⟨hadd, hload, -⟩ := h
  have haddress := hm.toNat_slot first hfirst
  generalize ha : m.x A64.XReg.frameBase.num + first.offset.setWidth 64 = a at haddress
  have hfits : (A64.Instr.addImm .x16 .frameBase first.offset).Fits := by
    have := first.toNat_offset hfirst
    unfold Slot.distance at this
    simp only [A64.Instr.Fits]
    omega
  refine Yields.after (Q := fun m₁ => m₁ = m.put .x16 a) ((hadd.instr hfits rfl).mono ?_) ?_
  · rintro _ rfl
    rw [ha]
    exact ⟨rfl, A64.Machine.quiet_put d m .x16 a (A64.Machine.not_survives_of_lt d _ (by decide)),
      rfl⟩
  · rintro _ rfl
    have hx0' : (m.put .x16 a).get .x0 = BitVec.ofNat 64 n :=
      (m.get_put_of_ne .x16 .x0 a (by decide)).trans hx0
    obtain ⟨h8, hl, hu⟩ := hm.slot_bounds (first.nth n) (by omega)
    have hle := env.stack_le
    have hcell : (a + BitVec.ofNat 64 n <<< 3).toNat = base + (first.nth n).distance := by
      unfold Slot.distance at haddress hu ⊢
      rw [BitVec.toNat_add, BitVec.toNat_shiftLeft, BitVec.toNat_ofNat, haddress, hindex,
        Nat.shiftLeft_eq]
      omega
    have hloaded := env.load?_stack (m.put .x16 a) (a + BitVec.ofNat 64 n <<< 3)
    rw [hcell] at hloaded
    refine hload.result trivial ?_ rfl
    have hbase : base? (m.put .x16 a) .x16 = some a := rfl
    simp only [perform?, hbase, Option.bind_eq_bind, Option.bind_some, hx0', hloaded h8 hl hu]
    rfl

theorem Yields.loadAt {first : Slot} {count n k₁ : Nat} {w : BitVec 64}
    (h : env.Yields d k k₁ m w m.output) (hload : env.Installed place k₁ (Lower.loadAt kind first))
    (hkind : kind ≠ .float) (hm : env.InFrame base m) (hw : w = BitVec.ofNat 64 n)
    (hcells : ∀ cell ∈ first.run count, cell.index.toNat < 256) (hn : n < count) :
    env.Yields d k (k₁ + Code.size (Lower.loadAt kind first)) m (m.slots base (first.nth n))
      m.output := by
  obtain ⟨hindex, hlast⟩ := Slot.index_nth hcells hn
  refine h.trans ?_
  rintro m₁ ⟨hx0, hquiet, hout⟩
  refine (hload.loadAt d hkind (hm.quiet hquiet) (hx0.trans hw) hindex hlast).mono ?_
  rintro m' ⟨hx0', hquiet', hout'⟩
  rw [hquiet.slots hm.below] at hx0'
  exact ⟨hx0', hquiet.trans hquiet', hout'.trans hout⟩

theorem Gives.loadAt {first : Slot} {count : Nat} {code : Code} {i : Int64}
    (h : env.Gives place base words d ⟨.int, code⟩ room (.int i)) (hkind : kind ≠ .float)
    (hcells : ∀ cell ∈ first.run count, cell.index.toNat < 256) (hnonneg : 0 ≤ i.toInt)
    (hlt : i.toInt.toNat < count) (hv : env.Encodes kind (words (first.nth i.toInt.toNat)) v) :
    env.Gives place base words d ⟨kind, code ++ Lower.loadAt kind first⟩ room v := by
  obtain ⟨w, hw, hcode⟩ := h
  refine ⟨_, hv, fun k m hk hm hslots hroom => ?_⟩
  rw [installed_append] at hk
  rw [Code.size_append, ← Nat.add_assoc, ← hslots]
  exact (hcode k m hk.1 hm hslots hroom).loadAt hk.2 hkind hm
    (hw.trans (toBitVec_of_nonneg i hnonneg)) hcells hlt

theorem indexCode_ok {value : Lower.ValueCode} {code : Code}
    (h : Lower.indexCode value = .ok code) : value = ⟨.int, code⟩ := by
  obtain ⟨kind, code'⟩ := value
  cases kind with
  | int =>
    cases h
    rfl
  | _ => cases h

theorem HoldsRow.gives {view : Lower.ArrayView} {position : Expr}
    {value : Except LowerError Lower.ValueCode} {c : Lower.ValueCode} {a b : Value}
    (h : env.HoldsRow words view.base view.count view.element a)
    (hcells : ∀ cell ∈ view.base.run view.count, cell.index.toNat < 256)
    (hc : Lower.element view position value = .ok c) (hkind : c.kind ≠ .float)
    (hliteral : ∀ w, position.literal? = some w → b = w) (hat : Value.at? a b = .ok v)
    (hvalue : ∀ p, value = .ok p → env.Interns p.code → env.Gives place base words d p room b)
    (hinterns : env.Interns c.code) : env.Gives place base words d c room v := by
  obtain ⟨i, rfl, hnonneg, hlt, hv⟩ := h.at? hat
  unfold Lower.element at hc
  split at hc
  · rename_i j
    split at hc
    · cases hc
      cases hliteral _ rfl
      obtain ⟨hindex, hlast⟩ := Slot.index_nth hcells hlt
      exact gives_load hkind (by omega) hv
    · cases hc
  · simp only [bind_eq_ok] at hc
    obtain ⟨p, hp, code, hcode, hc⟩ := hc
    obtain rfl := indexCode_ok hcode
    cases hc
    have hcode := hinterns.mono (List.subset_append_left code _)
    exact (hvalue _ hp hcode).loadAt hkind hcells hnonneg hlt hv

theorem Installed.rowMajor {columns r c : Nat}
    (h : env.Installed place k (Lower.constant .x2 (BitVec.ofNat 64 columns) ++
      [.instr (.mul .x0 .x0 .x2), .instr (.add .x0 .x0 .x1)]))
    (hx0 : m.get .x0 = BitVec.ofNat 64 r) (hx1 : m.get .x1 = BitVec.ofNat 64 c) :
    env.Yields d k (k + Code.size (Lower.constant .x2 (BitVec.ofNat 64 columns) ++
      [.instr (.mul .x0 .x0 .x2), .instr (.add .x0 .x0 .x1)])) m
      (BitVec.ofNat 64 (r * columns + c)) m.output := by
  have hfree (n : BitVec 5) (hn : n.toNat < 19) := A64.Machine.not_survives_of_lt d n hn
  rw [installed_append, installed_cons, installed_cons] at h
  obtain ⟨hconstant, hmul, hadd, -⟩ := h
  rw [Code.size_append, ← Nat.add_assoc]
  refine (hconstant.constant .x2 _ (by decide)).trans ?_
  rintro _ rfl
  refine (hmul.instr trivial rfl).trans ?_
  rintro _ rfl
  refine (hadd.instr trivial rfl).mono ?_
  rintro _ rfl
  generalize hm₁ : m.put .x2 (BitVec.ofNat 64 columns) = m₁
  have hquiet : m.Quiet d m₁ := by
    subst hm₁
    exact A64.Machine.quiet_put d m .x2 _ (hfree _ (by decide))
  generalize hm₂ : m₁.set .x0 (m₁.get .x0 * m₁.get .x2) = m₂
  have hquiet' : m₁.Quiet d m₂ := by
    subst hm₂
    exact A64.Machine.quiet_put d m₁ .x0 _ (hfree _ (by decide))
  have hrow : m₂.get .x0 = BitVec.ofNat 64 r * BitVec.ofNat 64 columns := by
    subst hm₂ hm₁
    rw [A64.Machine.set_of_ne _ _ _ (by decide), A64.Machine.get_put_self _ _ _ (by decide),
      A64.Machine.get_put_self _ _ _ (by decide), A64.Machine.get_put_of_ne _ _ _ _ (by decide), hx0]
  have hcolumn : m₂.get .x1 = BitVec.ofNat 64 c := by
    subst hm₂ hm₁
    rw [A64.Machine.set_of_ne _ _ _ (by decide), A64.Machine.get_put_of_ne _ _ _ _ (by decide),
      A64.Machine.get_put_of_ne _ _ _ _ (by decide), hx1]
  refine ⟨?_, (hquiet.trans hquiet').trans
    (A64.Machine.quiet_put d m₂ .x0 _ (hfree _ (by decide))), ?_⟩
  · rw [A64.Machine.set_of_ne _ _ _ (by decide), A64.Machine.get_put_self _ _ _ (by decide), hrow,
      hcolumn, ← BitVec.ofNat_mul, ← BitVec.ofNat_add]
  · subst hm₂ hm₁
    rfl

theorem Gives.cell {first : Slot} {count columns room' : Nat} {rowCode columnCode : Code}
    {r c : Int64} (hrow : env.Gives place base words d ⟨.int, rowCode⟩ room (.int r))
    (hcolumn : env.Gives place base words d ⟨.int, columnCode⟩ room' (.int c))
    (hkind : kind ≠ .float)
    (hcells : ∀ cell ∈ first.run (count * columns), cell.index.toNat < 256)
    (hr : 0 ≤ r.toInt) (hc : 0 ≤ c.toInt)
    (hlt : r.toInt.toNat * columns + c.toInt.toNat < count * columns)
    (hv : env.Encodes kind (words (first.nth (r.toInt.toNat * columns + c.toInt.toNat))) v) :
    env.Gives place base words d ⟨kind, rowCode ++ Lower.push .int :: columnCode ++
      [.instr (.mov .x1 .x0), Lower.popX .x0] ++ Lower.constant .x2 (BitVec.ofNat 64 columns) ++
      [.instr (.mul .x0 .x0 .x2), .instr (.add .x0 .x0 .x1)] ++ Lower.loadAt kind first⟩
      (max room (room' + 1)) v := by
  have hcode : rowCode ++ Lower.push .int :: columnCode ++
      [.instr (.mov .x1 .x0), Lower.popX .x0] ++ Lower.constant .x2 (BitVec.ofNat 64 columns) ++
      [.instr (.mul .x0 .x0 .x2), .instr (.add .x0 .x0 .x1)] ++ Lower.loadAt kind first =
      (rowCode ++ Lower.push .int :: (columnCode ++ [.instr (.mov .x1 .x0), Lower.popX .x0])) ++
      (Lower.constant .x2 (BitVec.ofNat 64 columns) ++
        [.instr (.mul .x0 .x0 .x2), .instr (.add .x0 .x0 .x1)]) ++ Lower.loadAt kind first := by
    simp only [List.append_assoc, List.cons_append]
  rw [hcode]
  obtain ⟨x, hx, hrow⟩ := hrow
  obtain ⟨y, hy, hcolumn⟩ := hcolumn
  refine ⟨_, hv, fun k m hk hm hslots hroom => ?_⟩
  have hbelow := hm.below
  have hhigh := hm.high
  have hrow' (k : Nat) (hk : env.Installed place k (Lower.ValueCode.mk .int rowCode).code) :
      env.Yields d k (k + Code.size rowCode) m x m.output :=
    hrow k m hk hm hslots (by omega)
  have hcolumn' (k : Nat) (z : BitVec 64) (m₂ : Machine)
      (hk : env.Installed place k (Lower.ValueCode.mk .int columnCode).code)
      (hpushed : Pushed d m z m₂) (hout : m₂.output = m.output) :
      env.Yields d k (k + Code.size columnCode) m₂ y m.output := by
    rw [← hout]
    refine hcolumn k m₂ hk (hpushed.inFrame hm (by omega)) ((hpushed.slots hbelow).trans hslots) ?_
    rw [hpushed.toNat_sp]
    omega
  rw [installed_append, installed_append] at hk
  obtain ⟨⟨hoperands, hplace⟩, hload⟩ := hk
  have hleads := Installed.operands hrow' hcolumn' hm.aligned (by omega) (by omega) hoperands
  rw [Code.size_append, ← Nat.add_assoc] at hload
  rw [Code.size_append, ← Nat.add_assoc, Code.size_append, ← Nat.add_assoc, ← hslots]
  refine Yields.loadAt (Yields.after hleads fun m₁ hx' => ?_) hload hkind hm rfl hcells hlt
  exact hplace.rowMajor (hx'.1.trans (hx.trans (toBitVec_of_nonneg r hr)))
    (hx'.2.trans (hy.trans (toBitVec_of_nonneg c hc)))

section Elements

variable {scope : Scope} {hidden : List Slot} {s s' : State} {name : String} {a b : Value}
  {c : Lower.ValueCode} (hreflects : env.Reflects words scope s) (hshadow : scope.Unshadowed s)
  (hframe : scope.frame.Apart hidden)

theorem cells_lt {slot : Slot} {shape : Shape} (hframe : scope.frame.Apart hidden)
    (hshape : scope.shape? name = some (slot, shape)) :
    ∀ cell ∈ shape.cells slot, cell.index.toNat < 256 := by
  obtain ⟨symbol, hs, heq⟩ := Option.map_eq_some_iff.mp hshape
  cases heq
  exact hframe.cell_lt hs

theorem arrayView_dict {slot : Slot} {fields : List Field} {position : Expr}
    {view : Lower.ArrayView} (hshape : scope.shape? name = some (slot, .dict fields))
    (h : Lower.arrayView scope name position = .ok (some view)) :
    ∃ key fieldKey, position = .str key ∧
      Shape.field? fields key = some ⟨fieldKey, view.base, .array view.count view.element⟩ := by
  unfold Lower.arrayView at h
  rw [hshape] at h
  split at h
  · rename_i slot' fields' key heq
    cases heq
    split at h
    · rename_i fieldKey slot count element hfield
      cases h
      exact ⟨key, fieldKey, rfl, hfield⟩
    · cases h
  · rename_i heq
    cases heq
  · cases h

include hreflects hshadow hframe

theorem varValue_gives (hc : Lower.varValue scope name = .ok c) (hkind : c.kind ≠ .float)
    (hv : Run.getVar name s = .done v s') : env.Gives place base words d c room v := by
  unfold Lower.varValue at hc
  split at hc
  · rename_i slot shape hshape
    split at hc
    · rename_i kind hscalar
      cases hc
      have hslot : slot ∈ shape.cells slot := by
        cases shape with
        | scalar | enumCase => exact List.mem_singleton.mpr rfl
        | _ => cases hscalar
      exact gives_load hkind (cells_lt hframe hshape slot hslot)
        ((holds_scalar hscalar).mp (hreflects.getVar hshadow hshape hv).2)
    · cases hc
  · split at hc <;> cases hc

theorem elementOf_gives {position : Expr} {value : Except LowerError Lower.ValueCode}
    (hc : Lower.elementOf scope name position value = .ok c) (hkind : c.kind ≠ .float)
    (ha : Run.getVar name s = .done a s') (hliteral : ∀ w, position.literal? = some w → b = w)
    (hat : Value.at? a b = .ok v)
    (hvalue : ∀ p, value = .ok p → env.Interns p.code → env.Gives place base words d p room b)
    (hinterns : env.Interns c.code) : env.Gives place base words d c room v := by
  unfold Lower.elementOf at hc
  split at hc
  · rename_i hshape
    split at hc
    · rename_i cases hcases
      obtain rfl := hreflects.getEnum hshape hcases ha
      unfold Lower.enumCase at hc
      split at hc
      · rename_i case
        obtain rfl := hliteral _ rfl
        simp only [Value.at?] at hat
        split at hc
        · cases hc
          split at hat
          · cases hat
            exact gives_string hinterns
          · cases hat
        · cases hc
      · cases hc
    · cases hc
  · rename_i slot layout hshape
    obtain ⟨first, count, kind, inner⟩ := layout
    cases inner with
    | some columns => cases hc
    | none =>
      have hcells := cells_lt hframe hshape
      simp only [Shape.cells, Option.getD_none, Nat.mul_one] at hcells
      have hrow : env.HoldsRow words (Lower.flatView ⟨first, count, kind, none⟩).base
          (Lower.flatView ⟨first, count, kind, none⟩).count
          (Lower.flatView ⟨first, count, kind, none⟩).element a :=
        (hreflects.getVar hshadow hshape ha).2
      exact hrow.gives hcells hc hkind hliteral hat hvalue hinterns
  · rename_i slot elements hshape
    unfold Lower.tupleElement at hc
    split at hc
    · rename_i i
      obtain rfl := hliteral _ rfl
      split at hc
      · rename_i slot' kind helement
        cases hc
        split at helement
        · have hcell : slot' ∈ (Shape.tuple elements).cells slot :=
            List.mem_map_of_mem (List.mem_of_getElem? helement)
          exact gives_load hkind (cells_lt hframe hshape slot' hcell)
            ((hreflects.getVar hshadow hshape ha).2.tupleElement helement hat)
        · cases helement
      · cases hc
    · cases hc
  · rename_i slot fields hshape
    unfold Lower.dictElement at hc
    split at hc
    · rename_i key
      obtain rfl := hliteral _ rfl
      split at hc
      · rename_i fieldKey slot' kind hfield
        cases hc
        obtain ⟨hkeys, hholds⟩ := hreflects.getVar hshadow hshape ha
        have hcell : slot' ∈ (Shape.dict fields).cells slot := by
          refine List.mem_flatMap.mpr ⟨_, List.mem_of_find?_eq_some hfield, ?_⟩
          simp [FieldShape.span, Slot.run, Slot.nth]
        exact gives_load hkind (cells_lt hframe hshape slot' hcell) (hholds.field hkeys hfield hat)
      · cases hc
      · cases hc
    · cases hc
  · cases hc

theorem cell_gives {slot first : Slot} {count columns room' : Nat} {row column : Expr}
    {rowValue columnValue : Except LowerError Lower.ValueCode} {b' r : Value}
    (hshape : scope.shape? name = some (slot, .array ⟨first, count, kind, some columns⟩))
    (hc : Lower.cell ⟨first, count, kind, some columns⟩ columns row column rowValue columnValue =
      .ok c) (hkind : c.kind ≠ .float) (ha : Run.getVar name s = .done a s')
    (hrow : ∀ w, row.literal? = some w → b = w) (hcolumn : ∀ w, column.literal? = some w → b' = w)
    (hat : Value.at? a b = .ok r) (hat' : Value.at? r b' = .ok v)
    (hrowValue : ∀ p, rowValue = .ok p → env.Interns p.code →
      env.Gives place base words d p room b)
    (hcolumnValue : ∀ p, columnValue = .ok p → env.Interns p.code →
      env.Gives place base words d p room' b')
    (hinterns : env.Interns c.code) :
    env.Gives place base words d c (max room (room' + 1)) v := by
  obtain ⟨i, rfl, hi, hilt, hholds⟩ := (hreflects.getVar hshadow hshape ha).2.row hat
  obtain ⟨j, rfl, hj, hjlt, hv⟩ := hholds.at? hat'
  rw [Slot.nth_nth] at hv
  have hlt : i.toInt.toNat * columns + j.toInt.toNat < count * columns := by
    have hle : (i.toInt.toNat + 1) * columns ≤ count * columns := Nat.mul_le_mul_right _ hilt
    rw [Nat.succ_mul] at hle
    omega
  have hcells := cells_lt hframe hshape
  simp only [Shape.cells, Option.getD_some] at hcells
  unfold Lower.cell at hc
  split at hc
  · split at hc
    · cases hc
      cases hrow _ rfl
      cases hcolumn _ rfl
      exact gives_load hkind (hcells _ (Slot.nth_mem_run hlt)) hv
    · cases hc
  · simp only [bind_eq_ok] at hc
    obtain ⟨p, hp, rowCode, hrowCode, q, hq, columnCode, hcolumnCode, hc⟩ := hc
    obtain rfl := indexCode_ok hrowCode
    obtain rfl := indexCode_ok hcolumnCode
    cases hc
    refine (hrowValue _ hp (hinterns.mono ?_)).cell (hcolumnValue _ hq (hinterns.mono ?_)) hkind
      hcells hi hj hlt hv
    · intro l hl
      simp [hl]
    · intro l hl
      simp [hl]

theorem elementOfElement_gives {row column : Expr} {room' : Nat}
    {rowValue columnValue : Except LowerError Lower.ValueCode} {b' r : Value}
    (hc : Lower.elementOfElement scope name row column rowValue columnValue = .ok c)
    (hkind : c.kind ≠ .float) (ha : Run.getVar name s = .done a s')
    (hrow : ∀ w, row.literal? = some w → b = w) (hcolumn : ∀ w, column.literal? = some w → b' = w)
    (hat : Value.at? a b = .ok r) (hat' : Value.at? r b' = .ok v)
    (hrowValue : ∀ p, rowValue = .ok p → env.Interns p.code →
      env.Gives place base words d p room b)
    (hcolumnValue : ∀ p, columnValue = .ok p → env.Interns p.code →
      env.Gives place base words d p room' b')
    (hinterns : env.Interns c.code) :
    env.Gives place base words d c (max room (room' + 1)) v := by
  unfold Lower.elementOfElement at hc
  split at hc
  · rename_i slot layout hshape
    obtain ⟨first, count, kind, inner⟩ := layout
    cases inner with
    | none => cases hc
    | some columns =>
      exact cell_gives hreflects hshadow hframe hshape hc hkind ha hrow hcolumn hat hat' hrowValue
        hcolumnValue hinterns
  · rename_i slot fields hshape
    simp only [bind_eq_ok] at hc
    obtain ⟨view, hview, hc⟩ := hc
    split at hc
    · rename_i view
      obtain ⟨key, fieldKey, rfl, hfield⟩ := arrayView_dict hshape hview
      obtain rfl := hrow _ rfl
      obtain ⟨hkeys, hholds⟩ := hreflects.getVar hshadow hshape ha
      have hcells (cell : Slot) (hcell : cell ∈ view.base.run view.count) :
          cell.index.toNat < 256 := by
        refine cells_lt hframe hshape cell ?_
        exact List.mem_flatMap.mpr ⟨_, List.mem_of_find?_eq_some hfield, hcell⟩
      have hgives := HoldsRow.gives (hholds.field hkeys hfield hat) hcells hc hkind hcolumn hat'
        hcolumnValue hinterns
      exact hgives.mono (by omega)
    · cases hc
  · cases hc

theorem expr_gives {rounds depth : Nat} {e : Expr} (hc : Lower.expr scope d e = .ok c)
    (hplain : Lower.plain scope d e = true)
    (hv : Run.evalWithin rounds depth e s = .done v s') (hinterns : env.Interns c.code) :
    env.Gives place base words d c e.pushes v := by
  -- An element of an element is evaluated two levels down, so all lower depths are needed.
  induction depth using Nat.strongRecOn generalizing e c v s' with
  | ind depth ih =>
    have hkind := Lower.plain_kind hplain hc
    cases depth with
    | zero => cases hv
    | succ depth =>
      have ih' := @ih depth (Nat.lt_succ_self _)
      cases e with
      | int i =>
        rw [Lower.expr] at hc
        cases hc
        obtain ⟨rfl, -⟩ := (Run.pure_done _ _ _ _).mp hv
        exact gives_constant (v := .int i) trivial
      | bool b =>
        rw [Lower.expr, ← Value.word_bool] at hc
        cases hc
        obtain ⟨rfl, -⟩ := (Run.pure_done _ _ _ _).mp hv
        exact gives_constant (v := .bool b) trivial
      | str source =>
        rw [Lower.expr] at hc
        cases hc
        obtain ⟨rfl, -⟩ := (Run.pure_done _ _ _ _).mp hv
        exact gives_string hinterns
      | float =>
        rw [Lower.expr] at hc
        cases hc
        exact absurd rfl hkind
      | nil | interpolation | input | array | tuple | dict =>
        rw [Lower.expr] at hc
        cases hc
      | call => simpa [Expr.calls] using Lower.plain_calls hplain
      | var name =>
        rw [Lower.expr] at hc
        exact varValue_gives hreflects hshadow hframe hc hkind (Run.eval_var hv)
      | binary op lhs rhs =>
        simp only [Lower.expr, bind_eq_ok] at hc
        obtain ⟨left, hleft, right, hright, hc⟩ := hc
        obtain ⟨hplain, hplain'⟩ := Lower.plain_binary hplain
        obtain ⟨hleftCode, hrightCode⟩ := Lower.binary_contains hc
        simp only [Run.evalWithin, Run.bind_done, Run.lift_done] at hv
        obtain ⟨a, s₁, ha, b, _, hb, hr, rfl⟩ := hv
        obtain rfl := Run.state_of_plain hplain ha
        exact (ih' hleft hplain ha (hinterns.mono hleftCode.subset)).binary
          (ih' hright hplain' hb (hinterns.mono hrightCode.subset)) (Lower.plain_kind hplain hleft)
          (Lower.plain_kind hplain' hright) hc hr
      | unary op operand =>
        simp only [Lower.expr, bind_eq_ok] at hc
        obtain ⟨value, hvalue, hc⟩ := hc
        have hplain := Lower.plain_unary hplain
        simp only [Run.evalWithin, Run.bind_done, Run.lift_done] at hv
        obtain ⟨a, _, ha, hr, rfl⟩ := hv
        exact (ih' hvalue hplain ha (hinterns.mono (Lower.unary_contains hc).subset)).unary
          (Lower.plain_kind hplain hvalue) hc hr
      | index target position =>
        obtain ⟨a, s₁, b, ha, hb, hat⟩ := Run.eval_index hv
        obtain ⟨hplain, hplain'⟩ := Lower.plain_index hplain
        obtain rfl := Run.state_of_plain hplain ha
        cases target with
        | var name =>
          rw [Lower.expr] at hc
          have hgives := elementOf_gives hreflects hshadow hframe hc hkind (Run.eval_var ha)
            (Run.eval_literal hb) hat (fun p hp => ih' hp hplain' hb) hinterns
          exact hgives.mono (by simp only [Expr.pushes]; omega)
        | index target row =>
          cases target with
          | var name =>
            rw [Lower.expr] at hc
            cases depth with
            | zero => cases ha
            | succ depth =>
              obtain ⟨a', s₂, b', ha', hb', hat'⟩ := Run.eval_index ha
              obtain ⟨hplain₁, hplain₂⟩ := Lower.plain_index hplain
              obtain rfl := Run.state_of_plain hplain₁ ha'
              have hgives := elementOfElement_gives hreflects hshadow hframe hc hkind
                (Run.eval_var ha') (Run.eval_literal hb') (Run.eval_literal hb) hat' hat
                (fun p hp => ih depth (by omega) hp hplain₂ hb') (fun p hp => ih' hp hplain' hb)
                hinterns
              exact hgives.mono (by simp only [Expr.pushes]; omega)
          | _ => simp [Lower.expr] at hc
        | _ => simp [Lower.expr] at hc

end Elements

end Process

open Process in
/-- Expressions without calls and doubles are computed as they are evaluated. If the frame in memory
reflects the state, the code of an expression ends with a word of its value in `x0`. It prints
nothing, and it leaves the stack, the frame and the staged values as they were. -/
theorem expr_computed {image : Image} {place : Label → Nat} {before after : Code}
    {value : Lower.ValueCode} (hbuilt : image.Built place (before ++ value.code ++ after))
    (env : Process image) {scope : Scope} {d : Nat} {e : Expr}
    (hplain : Lower.plain scope d e = true) (hvalue : Lower.expr scope d e = .ok value)
    (hframe : scope.frame.Sound) {fuel : Fuel} {s s' : State} {v : Value}
    (hv : Run.eval fuel e s = .done v s') {base : Nat} {m : Machine} (hm : env.InFrame base m)
    (hroom : env.stackLow + 16 * e.pushes ≤ m.sp.toNat)
    (hreflects : env.Reflects (m.slots base) scope s) (hshadow : scope.Unshadowed s) :
    env.Leads (env.pc before.size) m (env.pc (before ++ value.code).size) fun m' =>
      env.Encodes value.kind (m'.get .x0) v ∧ m.Quiet d m' ∧ m'.output = m.output := by
  obtain ⟨hidden, hapart⟩ := hframe
  have hinstalled := env.installed_of_built _ place hbuilt
  rw [installed_append, installed_append, Nat.zero_add] at hinstalled
  have hcode := hinstalled.1.2
  obtain ⟨w, hw, hyields⟩ := expr_gives hreflects hshadow hapart hvalue hplain hv hcode.interns
  rw [Code.size_append]
  refine (hyields _ m hcode hm rfl hroom).mono fun m' hm' => ?_
  rw [hm'.1]
  exact ⟨hw, hm'.2⟩

def stockScope : Scope :=
  { Session.enter ⟨[], [("unit", ["kg", "g"])], .empty, none⟩ false with
    frame := (Frame.History.after [.place "prices" 3 fun base => .array ⟨base, 3, .int, none⟩,
      .assign "i" (.scalar .int), .assign "name" (.scalar .string)]).frame }

def stockState : State :=
  ⟨[], [("unit", ["kg", "g"])],
    [("prices", .array [.int 10, .int (-7), .int 30]), ("i", .int 1), ("name", .str "tea")], [], ""⟩

/-- `prices[i] / 2 < 5 && name == "tea"` -/
def stockQuery : Expr :=
  .binary .and
    (.binary .lt (.binary .div (.index (.var "prices") (.var "i")) (.int 2)) (.int 5))
    (.binary .eq (.var "name") (.str "tea"))

theorem stock_unshadowed : stockScope.Unshadowed stockState := by
  intro name symbol hsymbol _
  have hne : name ≠ "unit" := by
    rintro rfl
    cases hsymbol
  simp [stockState, Bindings.get?, hne.symm]

theorem stock_sound : stockScope.frame.Sound := by
  refine ⟨_, (Frame.History.apart_after _ ?_).frame⟩
  simp [Frame.Op.Fits, Shape.scalar?, Shape.cells]

theorem stock_computed : ∃ value, Lower.expr stockScope 2 stockQuery = .ok value ∧
    ∃ (image : Image) (place : Label → Nat) (env : Process image) (base : Nat) (m : Machine),
      image.Built place ([.entry] ++ value.code ++ []) ∧ env.InFrame base m ∧
      env.Reflects (m.slots base) stockScope stockState ∧
      env.Leads (env.pc (Code.size [.entry])) m (env.pc (Code.size ([.entry] ++ value.code)))
        fun m' => m'.get .x0 = 1 ∧ m.Quiet 2 m' ∧ m'.output = [] := by
  obtain ⟨value, hvalue, hkind, hname, hmarks, htargets, hsmall⟩ :
      ∃ value, Lower.expr stockScope 2 stockQuery = .ok value ∧ value.kind = .bool ∧
        .address .x0 (Escape.bytes "tea") ∈ value.code ∧ value.code.marks = [] ∧
        (∀ line ∈ value.code, line.target? = none) ∧
        Code.Small ([.entry] ++ value.code ++ []) :=
    ⟨_, rfl, rfl, by simp [Lower.logical], rfl, by decide +kernel, by decide +kernel⟩
  obtain ⟨image, place, env, base, hbuilt, hroom, hframe⟩ :=
    Process.exists_frame_alone hmarks htargets hsmall
  obtain ⟨a, ha⟩ := (env.installed_of_built _ place hbuilt).interns .x0 (Escape.bytes "tea")
    (by simp [hname])
  obtain ⟨m, hm, hsp, hout, hslots⟩ := hframe fun o =>
    if o = 64 then 10 else if o = 72 then -7 else if o = 80 then 30 else if o = 88 then 1 else a
  have hreflects : env.Reflects (m.slots base) stockScope stockState := by
    refine ⟨fun name v hv => ?_, fun _ => rfl⟩
    have hmem := Bindings.mem_of_get? _ name v hv
    simp only [stockState, List.mem_cons, Prod.mk.injEq, List.not_mem_nil, or_false] at hmem
    rcases hmem with ⟨rfl, rfl⟩ | ⟨rfl, rfl⟩ | ⟨rfl, rfl⟩
    · exact ⟨⟨⟨0⟩, 3, .array ⟨⟨0⟩, 3, .int, none⟩⟩, rfl, trivial,
        .cons (hslots ⟨0⟩) (.cons (hslots ⟨1⟩) (.cons (hslots ⟨2⟩) Process.holdsRow_nil))⟩
    · exact ⟨⟨⟨3⟩, 1, .scalar .int⟩, rfl, trivial, hslots ⟨3⟩⟩
    · refine ⟨⟨⟨4⟩, 1, .scalar .string⟩, rfl, trivial, ?_⟩
      change env.StringAt (m.slots base ⟨4⟩) _
      rw [hslots]
      rw [Escape.bytes_eq] at ha
      exact ha
  refine ⟨value, hvalue, image, place, env, base, m, hbuilt, hm, hreflects, ?_⟩
  have hv : Run.eval ⟨6, 0⟩ stockQuery stockState = .done (.bool true) stockState := rfl
  have hpushes : stockQuery.pushes = 2 := rfl
  refine (expr_computed hbuilt env (by decide +kernel) hvalue stock_sound hv hm (by omega)
    hreflects stock_unshadowed).mono fun m' hm' => ?_
  rw [hkind, hout] at hm'
  exact hm'

/-! ## Variables with the name of an enum -/

/-- What is in scope after `enum x { a }` and `if false { x = 0 }`. There is a slot for `x`. -/
def hiddenEnumScope : Scope :=
  { Session.enter ⟨[], [("x", ["a"])], .empty, none⟩ false with
    frame := (Frame.History.after [.assign "x" (.scalar .int)]).frame }

/-- The branch has not been taken, and `x` is the enum. -/
def hiddenEnumState : State := { State.initial with enums := [("x", ["a"])] }

/-- `!x` -/
def hiddenEnumTest : Expr := .unary .not (.var "x")

/-- The state for which the code of `!x` is right, if the slot is zero. -/
def hiddenEnumZero : State := { hiddenEnumState with locals := [("x", .int 0)] }

theorem hiddenEnum_sound : hiddenEnumScope.frame.Sound := by
  refine ⟨_, (Frame.History.apart_after _ ?_).frame⟩
  simp [Frame.Op.Fits, Shape.scalar?]

theorem hiddenEnum_reflects {image : Image} (env : Process image) (words : Slot → BitVec 64) :
    env.Reflects words hiddenEnumScope hiddenEnumState :=
  ⟨fun _ _ hv => (nomatch hv), fun _ => rfl⟩

theorem hiddenEnumZero_reflects {image : Image} {env : Process image} {words : Slot → BitVec 64}
    (hwords : words ⟨0⟩ = 0) : env.Reflects words hiddenEnumScope hiddenEnumZero := by
  refine ⟨fun name v hv => ?_, fun _ => rfl⟩
  have hmem := Bindings.mem_of_get? _ name v hv
  simp only [hiddenEnumZero, List.mem_singleton, Prod.mk.injEq] at hmem
  obtain ⟨rfl, rfl⟩ := hmem
  exact ⟨⟨⟨0⟩, 1, .scalar .int⟩, rfl, trivial, hwords⟩

theorem hiddenEnumZero_unshadowed : hiddenEnumScope.Unshadowed hiddenEnumZero := by
  intro name symbol _ hnone
  simpa [hiddenEnumZero, hiddenEnumState, Bindings.get?] using hnone

/-- It is not enough that the frame reflects the state. `!x` is false, as it is for every enum, and
its code reads the slot. -/
theorem hiddenEnum_misread :
    Lower.plain hiddenEnumScope 0 hiddenEnumTest = true ∧ hiddenEnumScope.frame.Sound ∧
    Run.eval ⟨6, 0⟩ hiddenEnumTest hiddenEnumState = .done (.bool false) hiddenEnumState ∧
    ∃ value, Lower.expr hiddenEnumScope 0 hiddenEnumTest = .ok value ∧
    ∃ (image : Image) (place : Label → Nat) (env : Process image) (base : Nat) (m : Machine),
      image.Built place ([.entry] ++ value.code ++ []) ∧ env.InFrame base m ∧
      env.stackLow + 16 * hiddenEnumTest.pushes ≤ m.sp.toNat ∧
      env.Reflects (m.slots base) hiddenEnumScope hiddenEnumState ∧
      env.Leads (env.pc (Code.size [.entry])) m (env.pc (Code.size ([.entry] ++ value.code)))
        fun m' => ¬ env.Encodes value.kind (m'.get .x0) (.bool false) := by
  have hplain : Lower.plain hiddenEnumScope 0 hiddenEnumTest = true := by decide +kernel
  obtain ⟨value, hvalue, hkind, hmarks, htargets, hsmall⟩ :
      ∃ value, Lower.expr hiddenEnumScope 0 hiddenEnumTest = .ok value ∧ value.kind = .bool ∧
        value.code.marks = [] ∧ (∀ line ∈ value.code, line.target? = none) ∧
        Code.Small ([.entry] ++ value.code ++ []) :=
    ⟨_, rfl, rfl, rfl, by decide +kernel, by decide +kernel⟩
  obtain ⟨image, place, env, base, hbuilt, hroom, hframe⟩ :=
    Process.exists_frame_alone hmarks htargets hsmall
  obtain ⟨m, hm, hsp, -, hslots⟩ := hframe fun _ => 0
  have hpushes : hiddenEnumTest.pushes = 0 := rfl
  refine ⟨hplain, hiddenEnum_sound, rfl, value, hvalue, image, place, env, base, m, hbuilt, hm,
    by omega, hiddenEnum_reflects env _, ?_⟩
  have hv : Run.evalWithin 0 6 hiddenEnumTest hiddenEnumZero = .done (.bool true) hiddenEnumZero :=
    rfl
  have hinstalled := env.installed_of_built _ place hbuilt
  rw [Process.installed_append, Process.installed_append, Nat.zero_add] at hinstalled
  have hcode := hinstalled.1.2
  obtain ⟨hidden, hapart⟩ := hiddenEnum_sound
  obtain ⟨w, hw, hyields⟩ := Process.expr_gives (hiddenEnumZero_reflects (hslots ⟨0⟩))
    hiddenEnumZero_unshadowed hapart hvalue hplain hv hcode.interns
  refine (hyields _ m hcode hm rfl (by omega)).mono fun m' hm' => ?_
  rw [hkind] at hw ⊢
  have hone : w = 1 := hw
  rw [hm'.1, hone]
  exact (by decide : (1 : BitVec 64) ≠ 0)

end Armature
