import Armature.Proofs.Expressions
import Armature.Proofs.Framing

/-!
# Storing

A declaration stores the value that its expression evaluates to. If the frame in memory reflects the
state before it, the frame reflects the state after it. The values of a composite are on the stack
until all of them are computed, and so it may be built from its own elements.
-/

namespace Armature

open A64 (Machine)
open Asm (Code Image Label)

/-! ## Expressions one after the other -/

namespace Expr

theorem allPushes_append (xs ys : List Expr) :
    allPushes (xs ++ ys) = max (allPushes xs) (allSpan xs + allPushes ys) := by
  induction xs with
  | nil => simp [allPushes, allSpan]
  | cons e rest ih =>
    simp only [List.cons_append, allPushes, allSpan, ih]
    omega

theorem allPushes_rows (rows : List (List Expr)) :
    allPushes (rows.map array) = allPushes rows.flatten := by
  induction rows with
  | nil => rfl
  | cons row rest ih => simp [allPushes, pushes, span, allPushes_append, ih]

end Expr

namespace Run

/-- The expressions evaluate to the values, and the state stays as it is. -/
def EvaluateAll (s : State) : List Expr → List Value → Prop
  | [], [] => True
  | e :: rest, v :: vs => (∃ fuel, eval fuel e s = .done v s) ∧ EvaluateAll s rest vs
  | _, _ => False

variable {rounds depth : Nat} {scope : Scope} {s s' : State} {es es' items : List Expr}
  {vs vs' : List Value}

theorem EvaluateAll.length_eq (h : EvaluateAll s es vs) : vs.length = es.length := by
  fun_induction EvaluateAll s es vs with
  | case1 => rfl
  | case2 e rest v vs ih => simp [ih h.2]
  | case3 => exact h.elim

theorem EvaluateAll.append (h : EvaluateAll s es vs) (h' : EvaluateAll s es' vs') :
    EvaluateAll s (es ++ es') (vs ++ vs') := by
  fun_induction EvaluateAll s es vs with
  | case1 => exact h'
  | case2 e rest v vs ih => exact ⟨h.1, ih h.2⟩
  | case3 => exact h.elim

theorem evaluateAll_of_mapAll (hplain : ∀ e ∈ items, Lower.plain scope 0 e = true)
    (h : mapAll (evalWithin rounds depth) items s = .done vs s') :
    EvaluateAll s items vs ∧ s' = s := by
  induction items generalizing vs with
  | nil =>
    obtain ⟨rfl, rfl⟩ := (pure_done _ _ _ _).mp h
    exact ⟨trivial, rfl⟩
  | cons e rest ih =>
    rw [List.forall_mem_cons] at hplain
    simp only [mapAll, bind_done, pure_done] at h
    obtain ⟨v, s₁, hv, vs, s₂, hvs, rfl, rfl⟩ := h
    obtain rfl := state_of_plain hplain.1 hv
    obtain ⟨hrest, rfl⟩ := ih hplain.2 hvs
    exact ⟨⟨⟨⟨depth, rounds⟩, hv⟩, hrest⟩, rfl⟩

theorem evaluateAll_rows {rows : List (List Expr)}
    (hplain : ∀ row ∈ rows, ∀ e ∈ row, Lower.plain scope 0 e = true)
    (h : mapAll (evalWithin rounds depth) (rows.map .array) s = .done vs s') :
    ∃ grid : List (List Value), vs = grid.map .array ∧
      grid.map List.length = rows.map List.length ∧
      EvaluateAll s rows.flatten grid.flatten ∧ s' = s := by
  induction rows generalizing vs with
  | nil =>
    obtain ⟨rfl, rfl⟩ := (pure_done _ _ _ _).mp h
    exact ⟨[], rfl, rfl, trivial, rfl⟩
  | cons row rest ih =>
    rw [List.forall_mem_cons] at hplain
    simp only [List.map_cons, mapAll, bind_done, pure_done] at h
    obtain ⟨v, s₁, hv, vs, s₂, hvs, rfl, rfl⟩ := h
    cases depth with
    | zero => cases hv
    | succ depth =>
      simp only [evalWithin, bind_done, pure_done] at hv
      obtain ⟨items, _, hitems, rfl, rfl⟩ := hv
      obtain ⟨hrow, rfl⟩ := evaluateAll_of_mapAll hplain.1 hitems
      obtain ⟨grid, rfl, hlengths, hrest, rfl⟩ := ih hplain.2 hvs
      refine ⟨items :: grid, rfl, ?_, hrow.append hrest, rfl⟩
      rw [List.map_cons, List.map_cons, hlengths, hrow.length_eq]

end Run

namespace Process

variable {image : Image} {env : Process image} {place : Label → Nat} {k base : Nat} {first : Slot}
  {m m' m₁ m₂ : Machine} {kind : Scalar} {kinds : List Scalar} {w : BitVec 64}
  {ws : List (BitVec 64)} {vs vs' : List Value} {words : Slot → BitVec 64}

/-! ## Words on the stack -/

/-- The words are on the stack, the last one on top, and otherwise all is as an expression leaves
it. -/
structure Stacked (m : Machine) (ws : List (BitVec 64)) (m' : Machine) : Prop where
  regs : ∀ n, n ≠ 31 → Machine.Survives 0 n → m'.x n = m.x n
  sp : m'.sp.toNat + 16 * ws.length = m.sp.toNat
  words : ∀ i w, ws[i]? = some w → m'.stack (m.sp.toNat - 16 * (i + 1)) = w
  stack : ∀ a, m.sp.toNat ≤ a → m'.stack a = m.stack a

theorem stacked_nil (m : Machine) : Stacked m [] m where
  regs _ _ _ := rfl
  sp := rfl
  words := nofun
  stack _ _ := rfl

theorem Pushed.stacked (h : Pushed 0 m w m₁) (h' : Stacked m₁ ws m₂) : Stacked m (w :: ws) m₂ := by
  have hroom := h.room
  have hsp := h.toNat_sp
  have hsp' := h'.sp
  refine ⟨fun n hn hs => (h'.regs n hn hs).trans (h.regs n hn hs), ?_, ?_, ?_⟩
  · rw [List.length_cons]
    omega
  · intro i w' hw'
    cases i with
    | zero =>
      cases hw'
      rw [h'.stack _ (by omega)]
      exact h.value
    | succ i =>
      rw [List.getElem?_cons_succ] at hw'
      have hword := h'.words i w' hw'
      rw [hsp] at hword
      rw [← hword]
      congr 1
      omega
  · intro a ha
    rw [h'.stack a (by omega)]
    exact h.stack a ha

theorem Stacked.inFrame (h : Stacked m ws m') (hm : env.InFrame base m)
    (hlow : env.stackLow ≤ m'.sp.toNat) : env.InFrame base m' where
  register := (h.regs 28 (by decide) (.inr (.inl rfl))).trans hm.register
  low := hlow
  below := by have := h.sp; have := hm.below; omega
  high := hm.high
  aligned := by have := h.sp; have := hm.aligned; omega
  baseAligned := hm.baseAligned

theorem Stacked.pop (h : Stacked m (ws ++ [w]) m') (hm : env.InFrame base m')
    (hpop : env.Stands place k (Lower.popX .x0)) :
    env.Leads (env.pc k) m' (env.pc (k + 1)) fun m'' =>
      m''.get .x0 = w ∧ Stacked m ws m'' ∧ env.stackLow ≤ m''.sp.toNat ∧
        m''.output = m'.output := by
  have hsp := h.sp
  have hlow := hm.low
  have hbelow := hm.below
  have hhigh := hm.high
  have hbytes : Frame.localBytes = 2112 := rfl
  rw [List.length_append, List.length_singleton] at hsp
  have htop : m'.stack m'.sp.toNat = w := by
    rw [← h.words ws.length w (by simp)]
    congr 1
    omega
  have hperform := perform?_pop hm.aligned .x0 hlow (by omega)
  rw [htop, A64.Machine.set_of_ne _ _ _ (by decide)] at hperform
  refine (hpop.instr (by simp [A64.Instr.Fits]) hperform).mono ?_
  rintro _ rfl
  have hsp' : ((m'.put .sp (m'.sp + 16)).put .x0 w).sp.toNat = m'.sp.toNat + 16 := by
    rw [A64.Machine.sp_put_of_ne _ _ _ (by decide), A64.Machine.sp]
    have hself := m'.x_put_self .sp (m'.sp + 16)
    rw [show A64.XReg.sp.num = 31 from rfl] at hself
    rw [hself]
    bv_omega
  refine ⟨A64.Machine.get_put_self _ _ _ (by decide), ⟨?_, by omega, ?_, ?_⟩, by omega, rfl⟩
  · intro n hn hs
    have hx0 : n ≠ A64.XReg.x0.num := by
      rintro rfl
      exact Machine.not_survives_of_lt 0 _ (by decide) hs
    rw [A64.Machine.x_put_of_ne _ _ _ _ hx0, m'.x_put_of_ne .sp _ _ hn]
    exact h.regs n hn hs
  · intro i w' hw'
    refine h.words i w' ?_
    rw [List.getElem?_append_left (List.getElem?_eq_some_iff.mp hw').1]
    exact hw'
  · intro a ha
    exact h.stack a ha

/-! ## Words in slots -/

/-- The words are in the slots from `first` on, and otherwise all is as an expression leaves it. -/
structure Filled (base : Nat) (first : Slot) (m : Machine) (ws : List (BitVec 64)) (m' : Machine) :
    Prop where
  regs : ∀ n, Machine.Survives 0 n → m'.x n = m.x n
  words : ∀ i w, ws[i]? = some w → m'.slots base (first.nth i) = w
  stack : ∀ a, m.sp.toNat ≤ a → (∀ cell ∈ first.run ws.length, a ≠ base + cell.distance) →
    m'.stack a = m.stack a

theorem unstage_concat (first : Slot) (kinds : List Scalar) (kind : Scalar) :
    Lower.unstage first (kinds ++ [kind]) =
      Lower.pop kind :: Lower.store kind (first.nth kinds.length) :: Lower.unstage first kinds := by
  simp [Lower.unstage, List.zipIdx_append]

theorem Stacked.store (h : Stacked m ws m') (slot : Slot) (hbase : m.sp.toNat ≤ base) :
    Stacked (m.store (base + slot.distance) w) ws (m'.store (base + slot.distance) w) where
  regs := h.regs
  sp := h.sp
  words i w' hw' := by
    have hlt := (List.getElem?_eq_some_iff.mp hw').1
    have hsp := h.sp
    have hspm : (m.store (base + slot.distance) w).sp = m.sp := rfl
    rw [hspm, A64.Machine.stack_store, if_neg]
    · exact h.words i w' hw'
    · unfold Slot.distance
      omega
  stack a ha := by
    simp only [A64.Machine.stack_store]
    split
    · rfl
    · exact h.stack a ha

/-- The last word gets its slot first, and then the others do. -/
theorem Filled.concat (hslots : ∀ cell ∈ first.run (ws.length + 1), cell.index.toNat < 256)
    (hbase : m.sp.toNat ≤ base)
    (h : Filled base first (m.store (base + (first.nth ws.length).distance) w) ws m') :
    Filled base first m (ws ++ [w]) m' := by
  refine ⟨h.regs, fun i w' hw' => ?_, fun a ha hothers => ?_⟩
  · rcases Nat.lt_or_ge i ws.length with hi | hi
    · rw [List.getElem?_append_left hi] at hw'
      exact h.words i w' hw'
    · obtain ⟨rfl, rfl⟩ : i = ws.length ∧ w' = w := by
        have hlt := (List.getElem?_eq_some_iff.mp hw').1
        rw [List.length_append, List.length_singleton] at hlt
        obtain rfl : i = ws.length := by omega
        simpa [eq_comm] using hw'
      refine (h.stack _ (Nat.le_trans hbase (Nat.le_add_right _ _)) fun cell hcell heq => ?_).trans ?_
      · obtain ⟨j, hj, rfl⟩ := List.mem_map.mp hcell
        have hj : j < ws.length := List.mem_range.mp hj
        have hne := Slot.nth_ne hslots (Nat.lt_succ_self _) (Nat.lt_succ_of_lt hj) (by omega)
        exact Slot.distance_ne hne (Nat.add_left_cancel heq)
      · simp
  · rw [List.length_append, List.length_singleton, Slot.run_add, List.forall_mem_append] at hothers
    refine (h.stack a ha hothers.1).trans ?_
    rw [A64.Machine.stack_store, if_neg]
    exact hothers.2 (first.nth ws.length) (by simp [Slot.run, Slot.nth])

theorem Stacked.unstage (hkinds : ∀ kind ∈ kinds, kind ≠ .float)
    (hslots : ∀ cell ∈ first.run kinds.length, cell.index.toNat < 256)
    (hcode : env.Installed place k (Lower.unstage first kinds)) (hm : env.InFrame base m)
    (hlen : ws.length = kinds.length) (h : Stacked m ws m')
    (hlow : env.stackLow ≤ m'.sp.toNat) :
    env.Leads (env.pc k) m' (env.pc (k + Code.size (Lower.unstage first kinds))) fun m'' =>
      Filled base first m ws m'' ∧ m''.output = m'.output := by
  induction hn : kinds.length generalizing kinds ws m m' k with
  | zero =>
    obtain rfl := List.eq_nil_of_length_eq_zero hn
    obtain rfl := List.eq_nil_of_length_eq_zero (hlen.trans hn)
    refine .refl ⟨⟨fun n hs => ?_, nofun, fun a ha _ => h.stack a ha⟩, rfl⟩
    by_cases hsp : n = 31
    · subst hsp
      exact BitVec.eq_of_toNat_eq h.sp
    · exact h.regs n hsp hs
  | succ n ih =>
    obtain rfl | ⟨kinds, kind, rfl⟩ := List.eq_nil_or_concat kinds
    · cases hn
    obtain rfl | ⟨ws, w, rfl⟩ := List.eq_nil_or_concat ws
    · cases hlen.trans hn
    simp only [List.concat_eq_append] at *
    simp only [List.length_append, List.length_singleton, Nat.add_right_cancel_iff] at hn hlen
    rw [List.forall_mem_append] at hkinds
    have hkind := hkinds.2 kind (List.mem_singleton.mpr rfl)
    rw [List.length_append, List.length_singleton, ← hlen] at hslots
    have hlast := Slot.index_nth hslots (Nat.lt_succ_self _)
    rw [unstage_concat, Lower.pop, Lower.store, if_neg hkind, if_neg hkind, ← hlen] at hcode ⊢
    rw [installed_cons, installed_cons] at hcode
    obtain ⟨hpop, hstore, hrest⟩ := hcode
    refine (h.pop (h.inFrame hm hlow) hpop).trans ?_
    rintro m₁ ⟨rfl, hm₁, hlow₁, hout₁⟩
    refine (hstore.storeX (hm₁.inFrame hm hlow₁) (first.nth ws.length) (by omega)).trans ?_
    rintro _ rfl
    have hframe : env.InFrame base
        (m.store (base + (first.nth ws.length).distance) (m₁.get .x0)) := hm.congr rfl rfl
    have hfilled := ih hkinds.1 (fun cell hcell => hslots cell ?_) hrest hframe hlen
      (hm₁.store (first.nth ws.length) hm.below) hlow₁ hn
    · rw [Code.size_cons, Code.size_cons, ← Nat.add_assoc, ← Nat.add_assoc]
      exact hfilled.mono fun m₂ hm₂ => ⟨hm₂.1.concat hslots hm.below, hm₂.2.trans hout₁⟩
    · rw [Slot.run_add, hlen]
      exact List.mem_append_left _ hcell

/-! ## Values in slots -/

section

variable (env : Process image)

/-- The words are of the values, each of its kind. -/
def EncodeAll : List Scalar → List (BitVec 64) → List Value → Prop
  | [], [], [] => True
  | kind :: kinds, w :: ws, v :: vs => env.Encodes kind w v ∧ EncodeAll kinds ws vs
  | _, _, _ => False

/-- Values of these kinds are in the slots from `first` on. -/
def HoldsRun (words : Slot → BitVec 64) (first : Slot) : List Scalar → List Value → Prop
  | [], [] => True
  | kind :: kinds, v :: vs =>
    env.Encodes kind (words first) v ∧ HoldsRun words (first.nth 1) kinds vs
  | _, _ => False

end

theorem EncodeAll.length_eq (h : env.EncodeAll kinds ws vs) : ws.length = kinds.length := by
  fun_induction EncodeAll env kinds ws vs with
  | case1 => rfl
  | case2 kind kinds w ws v vs ih => simp [ih h.2]
  | case3 => exact h.elim

theorem EncodeAll.holdsRun (h : env.EncodeAll kinds ws vs)
    (hwords : ∀ i w, ws[i]? = some w → words (first.nth i) = w) :
    env.HoldsRun words first kinds vs := by
  fun_induction EncodeAll env kinds ws vs generalizing first with
  | case1 => trivial
  | case2 kind kinds w ws v vs ih =>
    have hfirst : words first = w := by simpa [Slot.nth] using hwords 0 w rfl
    refine ⟨hfirst ▸ h.1, ih h.2 fun i w' hw' => ?_⟩
    rw [Slot.nth_nth, Nat.add_comm]
    exact hwords (i + 1) w' hw'
  | case3 => exact h.elim

namespace HoldsRun

theorem split (h : env.HoldsRun words first kinds (vs ++ vs')) :
    env.HoldsRun words first (kinds.take vs.length) vs ∧
      env.HoldsRun words (first.nth vs.length) (kinds.drop vs.length) vs' := by
  induction vs generalizing first kinds with
  | nil => simpa [HoldsRun, Slot.nth] using h
  | cons v vs ih =>
    cases kinds with
    | nil => exact h.elim
    | cons kind kinds =>
      obtain ⟨hv, hrest⟩ := h
      obtain ⟨hvs, hvs'⟩ := ih hrest
      rw [Slot.nth_nth, Nat.add_comm] at hvs'
      exact ⟨⟨hv, hvs⟩, hvs'⟩

theorem row (h : env.HoldsRun words first kinds vs) (hkinds : ∀ k ∈ kinds, k = kind) :
    env.HoldsRow words first vs.length kind (.array vs) := by
  induction vs generalizing first kinds with
  | nil => exact ⟨rfl, nofun⟩
  | cons v vs ih =>
    cases kinds with
    | nil => exact h.elim
    | cons k kinds =>
      rw [List.forall_mem_cons] at hkinds
      obtain ⟨rfl, hkinds⟩ := hkinds
      obtain ⟨-, hvs⟩ := ih h.2 hkinds
      refine ⟨rfl, fun i v' hv' => ?_⟩
      cases i with
      | zero =>
        cases hv'
        simpa [Slot.nth] using h.1
      | succ i =>
        have hv := hvs i v' hv'
        rwa [Slot.nth_nth, Nat.add_comm] at hv

theorem rows {columns : Nat} {grid : List (List Value)}
    (h : env.HoldsRun words first kinds grid.flatten) (hkinds : ∀ k ∈ kinds, k = kind)
    (hgrid : ∀ row ∈ grid, row.length = columns) (r : Nat) (row : List Value)
    (hrow : grid[r]? = some row) :
    env.HoldsRow words (first.nth (r * columns)) columns kind (.array row) := by
  induction grid generalizing first kinds r with
  | nil => cases hrow
  | cons row' grid ih =>
    rw [List.forall_mem_cons] at hgrid
    obtain ⟨rfl, hgrid⟩ := hgrid
    obtain ⟨hfirst, hrest⟩ := h.split
    cases r with
    | zero =>
      cases hrow
      simpa [Slot.nth] using hfirst.row fun k hk => hkinds k (List.mem_of_mem_take hk)
    | succ r =>
      have hlater := ih hrest (fun k hk => hkinds k (List.mem_of_mem_drop hk)) hgrid r
        (by simpa using hrow)
      rwa [Slot.nth_nth, Nat.add_comm, ← Nat.succ_mul] at hlater

theorem tuple {n : Nat} (h : env.HoldsRun words (first.nth n) kinds vs) :
    env.HoldsTuple words ((kinds.zipIdx n).map fun (kind, i) => (first.nth i, kind)) vs := by
  induction kinds generalizing n vs with
  | nil => cases vs <;> exact h
  | cons kind kinds ih =>
    cases vs with
    | nil => exact h.elim
    | cons v vs =>
      obtain ⟨hv, hrest⟩ := h
      rw [Slot.nth_nth] at hrest
      exact ⟨hv, ih hrest⟩

end HoldsRun

section Fields

variable (env : Process image) {rounds depth : Nat} {scope : Scope} {s s' : State}
  {name key : String} {seen : List String} {entries : List (Expr × Expr)}
  {fields : List Lower.FieldLiteral}

theorem plain_fields (hfields : Lower.dictFields name seen entries = .ok fields)
    (hplain : ∀ entry ∈ entries, Lower.plain scope 0 entry.2 = true) :
    ∀ e ∈ fields.flatMap Lower.FieldLiteral.values, Lower.plain scope 0 e = true := by
  induction entries generalizing seen fields with
  | nil =>
    cases hfields
    exact nofun
  | cons entry rest ih =>
    obtain ⟨key, e⟩ := entry
    cases key with
    | str key =>
      obtain ⟨value, fields', rfl, hrest, hvalue⟩ := Lower.dictFields_cons hfields
      rw [List.forall_mem_cons] at hplain
      rw [List.flatMap_cons, List.forall_mem_append]
      refine ⟨?_, ih hrest hplain.2⟩
      rcases hvalue with rfl | ⟨items, rfl, rfl⟩
      · simpa [Lower.FieldLiteral.values] using hplain.1
      · exact Lower.plain_array hplain.1
    | _ => cases hfields

theorem allPushes_fields (hfields : Lower.dictFields name seen entries = .ok fields) :
    Expr.allPushes (fields.flatMap Lower.FieldLiteral.values) ≤ Expr.entryPushes entries := by
  induction entries generalizing seen fields with
  | nil =>
    cases hfields
    exact Nat.le_refl 0
  | cons entry rest ih =>
    obtain ⟨key, e⟩ := entry
    cases key with
    | str key =>
      obtain ⟨value, fields', rfl, hrest, hvalue⟩ := Lower.dictFields_cons hfields
      have hle := ih hrest
      rw [List.flatMap_cons, Expr.allPushes_append, Expr.entryPushes]
      rcases hvalue with rfl | ⟨items, rfl, rfl⟩
      · simp only [Lower.FieldLiteral.values, Expr.allPushes, Expr.allSpan]
        omega
      · simp only [Lower.FieldLiteral.values, Expr.pushes, Expr.span]
        omega
    | _ => cases hfields

theorem field_stored {value : Expr ⊕ List Expr} {e : Expr} {v : Value}
    (hvalue : value = .inl e ∨ ∃ items, value = .inr items ∧ e = .array items)
    (hplain : ∀ e ∈ Lower.FieldLiteral.values ⟨key, value⟩, Lower.plain scope 0 e = true)
    (hv : Run.evalWithin rounds depth e s = .done v s') :
    ∃ vs, Run.EvaluateAll s (Lower.FieldLiteral.values ⟨key, value⟩) vs ∧ s' = s ∧
      ∀ words first kinds kind, env.HoldsRun words first kinds vs → (∀ k ∈ kinds, k = kind) →
        env.HoldsField words ⟨key, first, if value.isLeft then .scalar kind
          else .array (Lower.FieldLiteral.values ⟨key, value⟩).length kind⟩ v := by
  rcases hvalue with rfl | ⟨items, rfl, rfl⟩
  · obtain rfl := Run.state_of_plain (hplain e (List.mem_singleton.mpr rfl)) hv
    refine ⟨[v], ⟨⟨⟨depth, rounds⟩, hv⟩, trivial⟩, rfl, fun words first kinds kind h hkinds => ?_⟩
    cases kinds with
    | nil => exact h.elim
    | cons k kinds =>
      obtain rfl := hkinds k List.mem_cons_self
      exact h.1
  · cases depth with
    | zero => cases hv
    | succ depth =>
      simp only [Run.evalWithin, Run.bind_done, Run.pure_done] at hv
      obtain ⟨vs, _, hvs, rfl, rfl⟩ := hv
      obtain ⟨hitems, rfl⟩ := Run.evaluateAll_of_mapAll hplain hvs
      refine ⟨vs, hitems, rfl, fun words first kinds kind h hkinds => ?_⟩
      have hrow := h.row hkinds
      rw [hitems.length_eq] at hrow
      exact hrow

theorem fields_stored {shapes : List (String × FieldShape)}
    {given result : Bindings Value} (hfields : Lower.dictFields name seen entries = .ok fields)
    (hshapes : Lower.fieldShapes name kinds fields = .ok shapes)
    (hplain : ∀ e ∈ fields.flatMap Lower.FieldLiteral.values, Lower.plain scope 0 e = true)
    (hv : Run.dictFields (Run.evalWithin rounds depth) given entries s = .done result s') :
    ∃ found vs, result = given.setAll found ∧
      found.map (·.1) = entries.filterMap (·.1.keyText?) ∧
      Run.EvaluateAll s (fields.flatMap Lower.FieldLiteral.values) vs ∧ s' = s ∧
      ∀ words first, env.HoldsRun words first kinds vs →
        env.HoldsFields words (Lower.placeFields first shapes) found := by
  induction entries generalizing seen fields kinds shapes given with
  | nil =>
    cases hfields
    cases hshapes
    obtain ⟨rfl, rfl⟩ := (Run.pure_done _ _ _ _).mp hv
    exact ⟨[], [], rfl, rfl, trivial, rfl, fun _ _ _ => trivial⟩
  | cons entry rest ih =>
    obtain ⟨key, e⟩ := entry
    cases key with
    | str key =>
      obtain ⟨value, fields', rfl, hrest, hvalue⟩ := Lower.dictFields_cons hfields
      obtain ⟨kind, shapes', hkind, hshapes', rfl⟩ := Lower.fieldShapes_cons hshapes
      rw [List.flatMap_cons, List.forall_mem_append] at hplain
      simp only [Run.dictFields, Run.bind_done] at hv
      obtain ⟨key', s₁, hkey, text, s₂, htext, v, s₃, hv, hothers⟩ := hv
      obtain rfl := Run.relates_callFree rounds depth (.str key) rfl s s₁ (by rw [hkey]; rfl)
      obtain rfl := Run.eval_literal hkey _ rfl
      obtain ⟨rfl, rfl⟩ := (Run.pure_done _ _ _ _).mp htext
      obtain ⟨vs, hvs, rfl, hfield⟩ := env.field_stored hvalue hplain.1 hv
      obtain ⟨found, vs', rfl, hkeys, hvs', rfl, hstored⟩ := ih hrest hshapes' hplain.2 hothers
      refine ⟨(Escape.text key, v) :: found, vs ++ vs', rfl, ?_, hvs.append hvs', rfl, ?_⟩
      · rw [List.map_cons, hkeys]
        rfl
      · intro words first h
        obtain ⟨hfirst, hlater⟩ := h.split
        rw [hvs.length_eq] at hfirst hlater
        have hspan : (if value.isLeft then .scalar kind
            else .array (Lower.FieldLiteral.values ⟨key, value⟩).length kind : FieldShape).span =
            (Lower.FieldLiteral.values ⟨key, value⟩).length := by
          cases value <;> rfl
        rw [Lower.placeFields, hspan]
        refine ⟨rfl, hfield words first _ kind hfirst fun k hk => ?_, hstored words _ hlater⟩
        rw [Lower.commonKind_eq hkind] at hk
        exact List.eq_of_mem_replicate hk
    | _ => cases hfields

end Fields

/-! ## Declarations -/

/-- The code puts the value into the slots of the variable, if the slots of the frame hold `words`
before it. -/
def Stores (env : Process image) (place : Label → Nat) (base : Nat) (words : Slot → BitVec 64)
    (c : Code) (room : Nat) (symbol : Symbol) (v : Value) : Prop :=
  ∃ ws : List (BitVec 64), symbol.shape.cells symbol.slot = symbol.slot.run ws.length ∧
    (∀ words' : Slot → BitVec 64, (∀ i w, ws[i]? = some w → words' (symbol.slot.nth i) = w) →
      env.Holds words' symbol.slot symbol.shape v) ∧
    ∀ k m, env.Installed place k c → env.InFrame base m → m.slots base = words →
      env.stackLow + 16 * room ≤ m.sp.toNat →
      env.Leads (env.pc k) m (env.pc (k + Code.size c)) fun m' =>
        Filled base symbol.slot m ws m' ∧ m'.output = m.output

/-- The code stores the value, and the variable is bound to the slots where it is. -/
def Declares (env : Process image) (place : Label → Nat) (base : Nat) (words : Slot → BitVec 64)
    (c : Code) (room : Nat) (scope scope' : Scope) (name : String) (v : Value) : Prop :=
  ∃ symbol, env.Stores place base words c room symbol v ∧ symbol.shape.KeysDiffer ∧
    scope'.enums = scope.enums ∧ ∀ other, scope'.frame.lookup other =
      if name = other then some symbol else scope.frame.lookup other

theorem Declares.mono {c : Code} {room room' : Nat} {scope scope' : Scope} {name : String}
    {v : Value} (h : env.Declares place base words c room scope scope' name v)
    (hle : room ≤ room') : env.Declares place base words c room' scope scope' name v := by
  obtain ⟨symbol, ⟨ws, hcells, hholds, hcode⟩, h⟩ := h
  exact ⟨symbol, ⟨ws, hcells, hholds, fun k m hk hm hwords hroom =>
    hcode k m hk hm hwords (by omega)⟩, h⟩

section Declarations

variable {scope scope' : Scope} {hidden : List Slot} {s : State}
  (hreflects : env.Reflects words scope s) (hshadow : scope.Unshadowed s)
  (hframe : scope.frame.Apart hidden)

include hreflects hshadow hframe

theorem stage_stacks {values : List Expr} {code : Code}
    (hstage : Lower.stage values scope = .ok ((kinds, code), scope'))
    (hplain : ∀ e ∈ values, Lower.plain scope 0 e = true) (hvs : Run.EvaluateAll s values vs)
    (hinterns : env.Interns code) :
    ∃ ws, env.EncodeAll kinds ws vs ∧
      ∀ k m, env.Installed place k code → env.InFrame base m → m.slots base = words →
        env.stackLow + 16 * Expr.allPushes values ≤ m.sp.toNat →
        env.Leads (env.pc k) m (env.pc (k + Code.size code)) fun m' =>
          Stacked m ws m' ∧ env.stackLow ≤ m'.sp.toNat ∧ m'.output = m.output := by
  induction values generalizing kinds code vs with
  | nil =>
    obtain ⟨heq, -⟩ := (Lowering.pure_ok _ _ _ _).mp hstage
    cases heq
    cases vs with
    | nil => exact ⟨[], trivial, fun k m _ hm _ _ => .refl ⟨stacked_nil m, hm.low, rfl⟩⟩
    | cons => exact hvs.elim
  | cons e rest ih =>
    simp only [Lower.stage, Lowering.bind_ok, Lowering.value_ok, Lowering.pure_ok] at hstage
    obtain ⟨c, _, ⟨hc, rfl⟩, ⟨kinds', code'⟩, s₁, hrest, heq, rfl⟩ := hstage
    cases heq
    cases vs with
    | nil => exact hvs.elim
    | cons v vs =>
      obtain ⟨⟨fuel, hv⟩, hvs⟩ := hvs
      rw [List.forall_mem_cons] at hplain
      have hkind := Lower.plain_kind hplain.1 hc
      have hspan : e.span = 1 := by
        cases e with
        | array => rw [Lower.expr] at hc; cases hc
        | _ => rfl
      have hgives : env.Gives place base words 0 c e.pushes v :=
        expr_gives hreflects hshadow hframe hc hplain.1 hv
          (hinterns.mono (List.subset_append_left _ _))
      obtain ⟨w, hw, hyields⟩ := hgives
      obtain ⟨ws, hws, hstacks⟩ := ih hrest hplain.2 hvs
        (hinterns.mono fun l hl => List.mem_append_right _ (List.mem_cons_of_mem _ hl))
      refine ⟨w :: ws, ⟨hw, hws⟩, fun k m hk hm hslots hroom => ?_⟩
      have hhigh := hm.high
      have hbelow := hm.below
      rw [Expr.allPushes, hspan] at hroom
      rw [Lower.push, if_neg hkind] at hk ⊢
      rw [installed_append, installed_cons] at hk
      obtain ⟨hcode, hpush, hcode'⟩ := hk
      refine (hyields k m hcode hm hslots (by omega)).trans ?_
      rintro m₁ ⟨rfl, hquiet, hout₁⟩
      rw [← hquiet.sp] at hroom hbelow
      refine (Stands.push 0 hpush (hm.quiet hquiet).aligned (by omega) (by omega)).trans ?_
      rintro m₂ ⟨hpushed, hout₂⟩
      have hslots₂ : m₂.slots base = words := by
        rw [hpushed.slots hbelow, hquiet.slots hm.below, hslots]
      have hsp₂ := hpushed.toNat_sp
      rw [Code.size_append, Code.size_cons, ← Nat.add_assoc, ← Nat.add_assoc]
      refine (hstacks _ m₂ hcode' (hpushed.inFrame (hm.quiet hquiet) (by omega)) hslots₂
        (by omega)).mono ?_
      rintro m₃ ⟨hstacked, hlow, hout₃⟩
      exact ⟨(hpushed.ofQuiet hquiet).stacked hstacked, hlow, by rw [hout₃, hout₂, hout₁]⟩

theorem composite_declares {values : List Expr} {shape : Slot → Shape} {code d : Code}
    {name : String} {v : Value}
    (hstage : Lower.stage values scope = .ok ((kinds, code), scope))
    (hd : Lower.bindComposite name kinds shape scope = .ok (d, scope'))
    (hsound : scope'.frame.Sound) (hplain : ∀ e ∈ values, Lower.plain scope 0 e = true)
    (hvs : Run.EvaluateAll s values vs) (hinterns : env.Interns (code ++ d))
    (hcells : ∀ first, (shape first).cells first = first.run kinds.length)
    (hkeys : ∀ first, (shape first).KeysDiffer)
    (hholds : ∀ words' first, env.HoldsRun words' first kinds vs →
      env.Holds words' first (shape first) v) :
    env.Declares place base words (code ++ d) (Expr.allPushes values) scope scope' name v := by
  obtain ⟨first, span, frame, hspan, rfl, rfl⟩ := Lower.bindComposite_ok _ _ _ _ _ _ hd
  have hlookup (other : String) : (frame.bind name ⟨first, span, shape first⟩).lookup other =
      if name = other then some ⟨first, span, shape first⟩ else scope.frame.lookup other := by
    rw [Frame.lookup_bind, Frame.lookup, Frame.spanFor_symbols hspan]
    rfl
  refine ⟨⟨first, span, shape first⟩, ?_, hkeys first, rfl, hlookup⟩
  obtain ⟨hidden', hapart⟩ := hsound
  have hslots := hapart.cell_lt ((hlookup name).trans (if_pos rfl))
  rw [hcells] at hslots
  have hfloat : ∀ kind ∈ kinds, kind ≠ .float := by
    intro kind hkind
    have hmem : some kind ∈ values.map (Lower.kindOf scope) := by
      rw [Lower.stage_kinds hstage]
      exact List.mem_map_of_mem hkind
    obtain ⟨e, he, hkindOf⟩ := List.mem_map.mp hmem
    obtain ⟨c, hc, rfl⟩ := Lower.kindOf_eq.mp hkindOf
    exact Lower.plain_kind (hplain e he) hc
  obtain ⟨ws, hws, hstacks⟩ := stage_stacks hreflects hshadow hframe hstage hplain hvs
    (hinterns.mono (List.subset_append_left _ _))
  refine ⟨ws, by rw [hcells, hws.length_eq], fun words' hwords => hholds words' first
    (hws.holdsRun hwords), fun k m hk hm hwords hroom => ?_⟩
  rw [installed_append] at hk
  refine (hstacks k m hk.1 hm hwords hroom).trans ?_
  rintro m₁ ⟨hstacked, hlow, hout₁⟩
  rw [Code.size_append, ← Nat.add_assoc]
  refine (hstacked.unstage hfloat hslots hk.2 hm hws.length_eq hlow).mono ?_
  rintro m₂ ⟨hfilled, hout₂⟩
  exact ⟨hfilled, hout₂.trans hout₁⟩

theorem scalar_declares {e : Expr} {c : Code} {name : String} {fuel : Fuel} {v : Value}
    (hdecl : Lower.declareScalar name e scope = .ok (c, scope')) (hsound : scope'.frame.Sound)
    (hplain : Lower.plain scope 0 e = true) (hv : Run.eval fuel e s = .done v s)
    (hinterns : env.Interns c) :
    env.Declares place base words c e.pushes scope scope' name v := by
  obtain ⟨value, slot, frame, hvalue, hassign, rfl, rfl⟩ := Lower.declareScalar_ok _ _ _ _ _ hdecl
  obtain ⟨symbol, rfl, hshape, hlookup⟩ := Frame.assign_lookup hassign
  have hscalar : symbol.shape.scalar? = some value.kind :=
    hshape ▸ Lower.scalar?_scalarShape hvalue
  have hcells : symbol.shape.cells symbol.slot = [symbol.slot] :=
    Shape.cells_scalar (by simp [hscalar]) symbol.slot
  have hkeys : symbol.shape.KeysDiffer := by
    cases hs : symbol.shape with
    | dict => simp [hs, Shape.scalar?] at hscalar
    | _ => trivial
  refine ⟨symbol, ?_, hkeys, rfl, hlookup⟩
  obtain ⟨hidden', hapart⟩ := hsound
  have hslot : symbol.slot.index.toNat < 256 :=
    hapart.cell_lt ((hlookup name).trans (if_pos rfl)) _ (by rw [hcells]; simp)
  have hgives : env.Gives place base words 0 value e.pushes v :=
    expr_gives hreflects hshadow hframe hvalue hplain hv
      (hinterns.mono (List.subset_append_left _ _))
  obtain ⟨w, hw, hyields⟩ := hgives
  have hfirst := symbol.slot.nth_zero
  refine ⟨[w], by rw [hcells]; simp [Slot.run, hfirst], fun words' hwords => ?_,
    fun k m hk hm hwords hroom => ?_⟩
  · rw [holds_scalar hscalar, ← hfirst, hwords 0 w rfl]
    exact hw
  · rw [Lower.store, if_neg (Lower.plain_kind hplain hvalue)] at hk ⊢
    rw [installed_append, installed_cons] at hk
    obtain ⟨hcode, hstore, -⟩ := hk
    refine (hyields k m hcode hm hwords hroom).trans ?_
    rintro m₁ ⟨rfl, hquiet, hout⟩
    rw [Code.size_append, ← Nat.add_assoc]
    refine (hstore.storeX (hm.quiet hquiet) symbol.slot hslot).mono ?_
    rintro _ rfl
    refine ⟨⟨hquiet.regs, fun i w hw => ?_, fun a ha hothers => ?_⟩, hout⟩
    · cases i with
      | zero =>
        cases hw
        simp [Machine.slots, hfirst]
      | succ i => cases hw
    · rw [A64.Machine.stack_store, if_neg]
      · exact hquiet.stack a ha
      · exact hothers symbol.slot (by simp [Slot.run, hfirst])

theorem array_declares {items : List Expr} {c : Code} {name : String} {fuel : Fuel} {v : Value}
    (hdecl : Lower.declareArray name items scope = .ok (c, scope')) (hsound : scope'.frame.Sound)
    (hplain : Lower.plain scope 0 (.array items) = true)
    (hv : Run.eval fuel (.array items) s = .done v s) (hinterns : env.Interns c) :
    env.Declares place base words c (Expr.allPushes items) scope scope' name v := by
  obtain ⟨values, inner, kinds, kind, code, d, hvalues, hstage, hkind, hd, rfl⟩ :=
    Lower.declareArray_ok _ _ _ _ _ hdecl
  obtain ⟨depth, rounds⟩ := fuel
  cases depth with
  | zero => cases hv
  | succ depth =>
    simp only [Run.eval, Run.evalWithin, Run.bind_done, Run.pure_done] at hv
    obtain ⟨vs, _, hvs, rfl, rfl⟩ := hv
    have hcells (first : Slot) : Shape.cells first (.array ⟨first, items.length, kind, inner⟩) =
        first.run kinds.length := by
      rw [Lower.length_stage hstage, ← Lower.length_arrayElements hvalues]
      rfl
    have hkinds : ∀ k ∈ kinds, k = kind := by
      rw [Lower.commonKind_eq hkind]
      exact fun k hk => List.eq_of_mem_replicate hk
    rcases Lower.arrayElements_ok hvalues with ⟨rfl, rfl⟩ | ⟨columns, rfl, hall, hgrid⟩
    · obtain ⟨hvs, -⟩ := Run.evaluateAll_of_mapAll (Lower.plain_array hplain) hvs
      refine composite_declares hreflects hshadow hframe hstage hd hsound
        (Lower.plain_array hplain) hvs hinterns hcells (fun _ => trivial) fun words' first h => ?_
      have hrow := h.row hkinds
      rw [hvs.length_eq] at hrow
      exact hrow
    · obtain ⟨rows, rfl, rfl, hrows⟩ := Lower.gridElements_ok hgrid hall
      have hplain' : ∀ row ∈ rows, ∀ e ∈ row, Lower.plain scope 0 e = true := fun row hrow =>
        Lower.plain_array (Lower.plain_array hplain _ (List.mem_map_of_mem hrow))
      obtain ⟨grid, rfl, hlengths, hvs, -⟩ := Run.evaluateAll_rows hplain' hvs
      rw [Expr.allPushes_rows]
      refine composite_declares hreflects hshadow hframe hstage hd hsound ?_ hvs hinterns hcells
        (fun _ => trivial) fun words' first h => ?_
      · intro e he
        obtain ⟨row, hrow, he⟩ := List.mem_flatten.mp he
        exact hplain' row hrow e he
      · have hgrid : ∀ row ∈ grid, row.length = columns := by
          intro row hrow
          have hmem : row.length ∈ rows.map List.length := hlengths ▸ List.mem_map_of_mem hrow
          obtain ⟨row', hrow', heq⟩ := List.mem_map.mp hmem
          rw [← heq, hrows row' hrow']
        refine ⟨by simpa using congrArg List.length hlengths, fun r row hrow => ?_⟩
        rw [List.getElem?_map, Option.map_eq_some_iff] at hrow
        obtain ⟨row, hrow, rfl⟩ := hrow
        exact h.rows hkinds hgrid r row hrow

theorem tuple_declares {items : List Expr} {c : Code} {name : String} {fuel : Fuel} {v : Value}
    (hdecl : Lower.declareTuple name items scope = .ok (c, scope')) (hsound : scope'.frame.Sound)
    (hplain : Lower.plain scope 0 (.tuple items) = true)
    (hv : Run.eval fuel (.tuple items) s = .done v s) (hinterns : env.Interns c) :
    env.Declares place base words c (Expr.allPushes items) scope scope' name v := by
  obtain ⟨kinds, code, d, -, hstage, hd, rfl⟩ := Lower.declareTuple_ok _ _ _ _ _ hdecl
  obtain ⟨depth, rounds⟩ := fuel
  cases depth with
  | zero => cases hv
  | succ depth =>
    simp only [Run.eval, Run.evalWithin, Run.bind_done, Run.pure_done] at hv
    obtain ⟨vs, _, hvs, rfl, rfl⟩ := hv
    obtain ⟨hvs, -⟩ := Run.evaluateAll_of_mapAll (Lower.plain_tuple hplain) hvs
    refine composite_declares hreflects hshadow hframe hstage hd hsound (Lower.plain_tuple hplain)
      hvs hinterns (fun first => Lower.cells_tuple first kinds) (fun _ => trivial)
      fun words' first h => HoldsRun.tuple (n := 0) ?_
    simpa [Slot.nth] using h

theorem dict_declares {entries : List (Expr × Expr)} {c : Code} {name : String} {fuel : Fuel}
    {v : Value} (hdecl : Lower.declareDict name entries scope = .ok (c, scope'))
    (hsound : scope'.frame.Sound) (hplain : Lower.plain scope 0 (.dict entries) = true)
    (hkeys : (Expr.dict entries).distinctKeys = true)
    (hv : Run.eval fuel (.dict entries) s = .done v s) (hinterns : env.Interns c) :
    env.Declares place base words c (Expr.entryPushes entries) scope scope' name v := by
  obtain ⟨fields, shapes, kinds, code, d, hfields, hstage, hshapes, hd, rfl⟩ :=
    Lower.declareDict_ok _ _ _ _ _ hdecl
  have hvalues := plain_fields hfields (Lower.plain_dict hplain)
  obtain ⟨depth, rounds⟩ := fuel
  cases depth with
  | zero => cases hv
  | succ depth =>
    simp only [Run.eval, Run.evalWithin, Run.bind_done, Run.pure_done] at hv
    obtain ⟨result, _, hresult, rfl, rfl⟩ := hv
    have hnodup := of_decide_eq_true hkeys
    obtain ⟨found, vs, rfl, hnames, hvs, -, hholds⟩ :=
      env.fields_stored hfields hshapes hvalues hresult
    rw [Bindings.setAll_of_nodup [] found (by rw [hnames]; exact hnodup)]
    refine Declares.mono (composite_declares (v := .dict found) hreflects hshadow hframe hstage hd
      hsound hvalues hvs hinterns (fun first => ?_) (fun first => ?_) hholds)
      (allPushes_fields hfields)
    · rw [Lower.cells_placeFields, Lower.span_fieldShapes hshapes, Lower.length_stage hstage]
    · have hshaped := Lower.fields_shaped first hfields (Lower.stage_kinds hstage) hshapes
      rw [keys_of_shaped hshaped] at hnodup
      exact hnodup

theorem declare_declares {e : Expr} {c : Code} {name : String} {fuel : Fuel} {v : Value}
    (hdecl : Lower.declare name e scope = .ok (c, scope')) (hsound : scope'.frame.Sound)
    (hplain : Lower.plain scope 0 e = true) (hkeys : e.distinctKeys = true)
    (hv : Run.eval fuel e s = .done v s) (hinterns : env.Interns c) :
    env.Declares place base words c e.pushes scope scope' name v := by
  cases e with
  | array items => exact array_declares hreflects hshadow hframe hdecl hsound hplain hv hinterns
  | tuple items => exact tuple_declares hreflects hshadow hframe hdecl hsound hplain hv hinterns
  | dict entries =>
    exact dict_declares hreflects hshadow hframe hdecl hsound hplain hkeys hv hinterns
  | _ => exact scalar_declares hreflects hshadow hframe hdecl hsound hplain hv hinterns

end Declarations

theorem Filled.reflects {scope scope' : Scope} {hidden : List Slot} {s : State} {name : String}
    {symbol : Symbol} {v : Value} (h : Filled base symbol.slot m ws m')
    (hbelow : m.sp.toNat ≤ base) (hreflects : env.Reflects (m.slots base) scope s)
    (hframe : scope'.frame.Apart hidden) (henums : scope'.enums = scope.enums)
    (hlookup : ∀ other, scope'.frame.lookup other =
      if name = other then some symbol else scope.frame.lookup other)
    (hcells : symbol.shape.cells symbol.slot = symbol.slot.run ws.length)
    (hkeys : symbol.shape.KeysDiffer)
    (hholds : env.Holds (m'.slots base) symbol.slot symbol.shape v) :
    env.Reflects (m'.slots base) scope' { s with locals := s.locals.set name v } := by
  have hsymbol := (hlookup name).trans (if_pos rfl)
  refine ⟨fun other v' hv' => ?_, fun other => by rw [henums, hreflects.enums]⟩
  by_cases hne : name = other
  · subst hne
    rw [Bindings.get?_set_self] at hv'
    cases hv'
    exact ⟨symbol, hsymbol, hkeys, hholds⟩
  · rw [Bindings.get?_set_of_ne _ _ hne] at hv'
    obtain ⟨symbol', hs, hkeys', hold⟩ := hreflects.locals other v' hv'
    have hs' : scope'.frame.lookup other = some symbol' := by rw [hlookup, if_neg hne, hs]
    refine ⟨symbol', hs', hkeys', hold.congr fun cell hcell => ?_⟩
    -- the slots of the other variable are not among those that are filled
    refine h.stack _ (by omega) fun cell' hcell' heq => ?_
    have howns' := hframe.cells other symbol' hs' cell hcell
    have howns := hframe.cells name symbol hsymbol cell' (hcells ▸ hcell')
    refine Slot.distance_ne (fun hsame => ?_) (Nat.add_left_cancel heq)
    exact hframe.symbols name other symbol symbol' hsymbol hs' hne cell' howns (hsame ▸ howns')

end Process

open Process in
/-- A declaration without calls and doubles. If the frame in memory reflects the state before it, then
after its code the frame reflects the state after it, for every variable. No slot has changed that
the declared variable does not own, even if the variable was a composite and has been built from its
own elements. -/
theorem decl_reflected {image : Image} {place : Label → Nat} {before c after : Code}
    (hbuilt : image.Built place (before ++ c ++ after)) (env : Process image)
    {scope scope' : Scope} {name : String} {e : Expr}
    (hdecl : Lower.declare name e scope = .ok (c, scope'))
    (hplain : Lower.plain scope 0 e = true) (hkeys : e.distinctKeys = true)
    (hframe : scope.frame.Sound) {fuel : Fuel} {s s' : State} {flow : Flow}
    (hexec : Run.exec fuel (.decl name e) s = .done flow s') {base : Nat} {m : Machine}
    (hm : env.InFrame base m) (hroom : env.stackLow + 16 * e.pushes ≤ m.sp.toNat)
    (hreflects : env.Reflects (m.slots base) scope s) (hshadow : scope.Unshadowed s) :
    scope'.frame.Sound ∧ scope'.Unshadowed s' ∧
    ∃ symbol, scope'.frame.lookup name = some symbol ∧
      env.Leads (env.pc before.size) m (env.pc (before ++ c).size) fun m' =>
        env.Reflects (m'.slots base) scope' s' ∧
        (∀ a, m.sp.toNat ≤ a → (∀ slot, symbol.Owns slot → a ≠ base + slot.distance) →
          m'.stack a = m.stack a) ∧
        (∀ n, Machine.Survives 0 n → m'.x n = m.x n) ∧ m'.output = m.output := by
  have hsound := (Lowering.declaring_recorded.declare name e).sound hdecl hframe
  obtain ⟨hidden, hapart⟩ := hframe
  obtain ⟨depth, rounds⟩ := fuel
  cases depth with
  | zero => cases hexec
  | succ depth =>
    simp only [Run.exec, Run.execWithin, Run.bind_done, Run.setVar_done, Run.pure_done] at hexec
    obtain ⟨v, s₁, hv, _, _, ⟨-, rfl⟩, -, rfl⟩ := hexec
    obtain rfl := Run.state_of_plain hplain hv
    have hinstalled := env.installed_of_built _ place hbuilt
    rw [installed_append, installed_append, Nat.zero_add] at hinstalled
    have hcode := hinstalled.1.2
    have hv' : Run.eval ⟨depth, rounds⟩ e s₁ = .done v s₁ := hv
    obtain ⟨symbol, ⟨ws, hcells, hholds, hruns⟩, hdiffer, henums, hlookup⟩ :
        env.Declares place base (m.slots base) c e.pushes scope scope' name v :=
      declare_declares hreflects hshadow hapart hdecl hsound hplain hkeys hv' hcode.interns
    have hsymbol := (hlookup name).trans (if_pos rfl)
    obtain ⟨hidden', hapart'⟩ := hsound
    refine ⟨⟨hidden', hapart'⟩, ?_, symbol, hsymbol, ?_⟩
    · intro other symbol' hs hnone
      by_cases hne : name = other
      · subst hne
        rw [Bindings.get?_set_self] at hnone
        cases hnone
      · rw [hlookup, if_neg hne] at hs
        rw [Bindings.get?_set_of_ne _ _ hne] at hnone
        exact hshadow other symbol' hs hnone
    · rw [Code.size_append]
      refine (hruns _ m hcode hm rfl hroom).mono ?_
      rintro m' ⟨hfilled, hout⟩
      refine ⟨hfilled.reflects hm.below hreflects hapart' henums hlookup hcells hdiffer
        (hholds _ hfilled.words), fun a ha hothers => ?_, hfilled.regs, hout⟩
      refine hfilled.stack a ha fun cell hcell => hothers cell ?_
      exact hapart'.cells name symbol hsymbol cell (hcells ▸ hcell)

def pairScope : Scope :=
  { Session.enter ⟨[], [], .empty, none⟩ false with
    frame := (Frame.History.after [.place "pair" 2 fun base => .array ⟨base, 2, .int, none⟩,
      .assign "n" (.scalar .int)]).frame }

def pairState : State :=
  { State.initial with locals := [("pair", .array [.int 3, .int 8]), ("n", .int 5)] }

/-- `[pair[1], pair[0]]` -/
def pairSwapped : Expr :=
  .array [.index (.var "pair") (.int 1), .index (.var "pair") (.int 0)]

theorem pair_reflects {image : Image} {env : Process image} {words : Slot → BitVec 64}
    (h₀ : words ⟨0⟩ = 3) (h₁ : words ⟨1⟩ = 8) (h₂ : words ⟨2⟩ = 5) :
    env.Reflects words pairScope pairState := by
  refine ⟨fun name v hv => ?_, fun _ => rfl⟩
  have hmem := Bindings.mem_of_get? _ name v hv
  simp only [pairState, List.mem_cons, Prod.mk.injEq, List.not_mem_nil, or_false] at hmem
  rcases hmem with ⟨rfl, rfl⟩ | ⟨rfl, rfl⟩
  · exact ⟨⟨⟨0⟩, 2, .array ⟨⟨0⟩, 2, .int, none⟩⟩, rfl, trivial,
      .cons h₀ (.cons h₁ Process.holdsRow_nil)⟩
  · exact ⟨⟨⟨2⟩, 1, .scalar .int⟩, rfl, trivial, h₂⟩

theorem pair_swapped : ∃ c scope', Lower.declare "pair" pairSwapped pairScope = .ok (c, scope') ∧
    ∃ (image : Image) (place : Label → Nat) (env : Process image) (base : Nat) (m : Machine),
      image.Built place ([.entry] ++ c ++ []) ∧ env.InFrame base m ∧
      env.Reflects (m.slots base) pairScope pairState ∧
      env.Leads (env.pc (Code.size [.entry])) m (env.pc (Code.size ([.entry] ++ c))) fun m' =>
        env.Reflects (m'.slots base) scope'
          { pairState with locals := [("pair", .array [.int 8, .int 3]), ("n", .int 5)] } := by
  obtain ⟨c, scope', hdecl, hmarks, htargets, hsmall⟩ :
      ∃ c scope', Lower.declare "pair" pairSwapped pairScope = .ok (c, scope') ∧
        Code.marks c = [] ∧ (∀ line ∈ c, line.target? = none) ∧
        Code.Small ([.entry] ++ c ++ []) :=
    ⟨_, _, rfl, rfl, by decide +kernel, by decide +kernel⟩
  obtain ⟨image, place, env, base, hbuilt, hroom, hframe⟩ :=
    Process.exists_frame_alone hmarks htargets hsmall
  obtain ⟨m, hm, hsp, -, hslots⟩ := hframe fun o => if o = 64 then 3 else if o = 72 then 8 else 5
  have hreflects : env.Reflects (m.slots base) pairScope pairState :=
    pair_reflects (hslots ⟨0⟩) (hslots ⟨1⟩) (hslots ⟨2⟩)
  have hsound : pairScope.frame.Sound := by
    refine ⟨_, (Frame.History.apart_after _ ?_).frame⟩
    simp [Frame.Op.Fits, Shape.scalar?, Shape.cells]
  have hexec : Run.exec ⟨6, 0⟩ (.decl "pair" pairSwapped) pairState = .done .next
      { pairState with locals := [("pair", .array [.int 8, .int 3]), ("n", .int 5)] } := rfl
  have hpushes : pairSwapped.pushes = 2 := rfl
  obtain ⟨-, -, symbol, -, hleads⟩ := decl_reflected hbuilt env hdecl (by decide +kernel) rfl hsound
    hexec hm (by omega) hreflects fun _ _ _ _ => rfl
  exact ⟨c, scope', hdecl, image, place, env, base, m, hbuilt, hm, hreflects,
    hleads.mono fun m' hm' => hm'.1⟩

/-- It is not enough that the frame reflects the state. If `x` has a slot and is still an enum,
`y = !x` stores what its slot says, and the value of `y` is another one. -/
theorem hiddenEnum_misstored :
    Lower.plain hiddenEnumScope 0 hiddenEnumTest = true ∧ hiddenEnumScope.frame.Sound ∧
    Run.exec ⟨6, 0⟩ (.decl "y" hiddenEnumTest) hiddenEnumState = .done .next
      { hiddenEnumState with locals := [("y", .bool false)] } ∧
    ∃ c scope', Lower.declare "y" hiddenEnumTest hiddenEnumScope = .ok (c, scope') ∧
    ∃ (image : Image) (place : Label → Nat) (env : Process image) (base : Nat) (m : Machine),
      image.Built place ([.entry] ++ c ++ []) ∧ env.InFrame base m ∧
      env.stackLow + 16 * hiddenEnumTest.pushes ≤ m.sp.toNat ∧
      env.Reflects (m.slots base) hiddenEnumScope hiddenEnumState ∧
      env.Leads (env.pc (Code.size [.entry])) m (env.pc (Code.size ([.entry] ++ c))) fun m' =>
        ¬ env.Reflects (m'.slots base) scope'
          { hiddenEnumState with locals := [("y", .bool false)] } := by
  have hplain : Lower.plain hiddenEnumScope 0 hiddenEnumTest = true := by decide +kernel
  obtain ⟨c, scope', hdecl, hy, hmarks, htargets, hsmall⟩ :
      ∃ c scope', Lower.declare "y" hiddenEnumTest hiddenEnumScope = .ok (c, scope') ∧
        scope'.frame.lookup "y" = some ⟨⟨1⟩, 1, .scalar .bool⟩ ∧ Code.marks c = [] ∧
        (∀ line ∈ c, line.target? = none) ∧ Code.Small ([.entry] ++ c ++ []) :=
    ⟨_, _, rfl, rfl, rfl, by decide +kernel, by decide +kernel⟩
  obtain ⟨image, place, env, base, hbuilt, hroom, hframe⟩ :=
    Process.exists_frame_alone hmarks htargets hsmall
  obtain ⟨m, hm, hsp, -, hslots⟩ := hframe fun _ => 0
  have hpushes : hiddenEnumTest.pushes = 0 := rfl
  refine ⟨hplain, hiddenEnum_sound, rfl, c, scope', hdecl, image, place, env, base, m, hbuilt, hm,
    by omega, hiddenEnum_reflects env _, ?_⟩
  have hv : Run.eval ⟨6, 0⟩ hiddenEnumTest hiddenEnumZero = .done (.bool true) hiddenEnumZero := rfl
  have hinstalled := env.installed_of_built _ place hbuilt
  rw [Process.installed_append, Process.installed_append, Nat.zero_add] at hinstalled
  have hcode := hinstalled.1.2
  have hsound := (Lowering.declaring_recorded.declare "y" hiddenEnumTest).sound hdecl hiddenEnum_sound
  obtain ⟨hidden, hapart⟩ := hiddenEnum_sound
  obtain ⟨symbol, ⟨ws, -, hholds, hruns⟩, -, -, hlookup⟩ :
      env.Declares place base (m.slots base) c hiddenEnumTest.pushes hiddenEnumScope scope' "y"
        (.bool true) :=
    Process.declare_declares (hiddenEnumZero_reflects (hslots ⟨0⟩)) hiddenEnumZero_unshadowed hapart
      hdecl hsound hplain rfl hv hcode.interns
  refine (hruns _ m hcode hm rfl (by omega)).mono fun m' hm' hreflects => ?_
  have hstored := hholds _ hm'.1.words
  obtain ⟨symbol', hs, -, hfalse⟩ := hreflects.locals "y" (.bool false) rfl
  obtain rfl : symbol = symbol' := Option.some.inj ((hlookup "y").symm.trans hs)
  obtain rfl := Option.some.inj (hs.symm.trans hy)
  have hone : m'.slots base ⟨1⟩ = 1 := hstored
  have hzero : m'.slots base ⟨1⟩ = 0 := hfalse
  rw [hone] at hzero
  exact absurd hzero (by decide)

end Armature
