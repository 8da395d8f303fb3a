import Armature.Proofs.Staging

/-!
# Frames of compiled code

Every statement starts and ends with nothing on the stack, and stores values only in slots of its
frame. So the code of a program keeps the frame discipline.
-/

namespace Armature

open A64 (Instr XReg decode)
open Asm (Code Label Line)

/-! ## Sound frames -/

theorem Lowering.Recorded.sound {α : Type} {x : Lowering α} {s s' : Scope} {a : α}
    (hx : x.Recorded) (h : x s = .ok (a, s')) (hs : s.frame.Sound) : s'.frame.Sound := by
  obtain ⟨hidden, hapart⟩ := hs
  obtain ⟨ops, r, s₁, hfits, hends⟩ := hx s
  have hresult := h.symm.trans hends.result
  cases r with
  | error e => cases hresult
  | ok a' =>
    cases hresult
    have hstart : Frame.History.Apart ⟨s.frame, hidden, []⟩ := ⟨hapart, nofun, .nil⟩
    rw [hends.frame ⟨s.frame, hidden, []⟩ rfl]
    exact ⟨_, (hstart.performAll ops hfits).frame⟩

namespace Frame.Sound

variable {f f' : Frame}

theorem assign_lt (hf : f.Sound) {name : String} {shape : Shape} {slot : Slot}
    (h : f.assign name shape = (.ok slot, f')) : slot.index.toNat < 256 := by
  obtain ⟨hidden, hapart⟩ := hf
  have hused : f.used ≤ 256 := hapart.used_le
  obtain ⟨symbol, hsymbol, hspan, heq⟩ | ⟨slot', hslot, hle, heq⟩ | heq := f.assign_cases name shape
  · have hbelow := hapart.symbol_le name symbol hsymbol
    rw [heq] at h
    cases h
    omega
  · have hlimit : f.used + 1 ≤ 256 := hle
    rw [heq] at h
    cases h
    omega
  · rw [heq] at h
    cases h

theorem hidden_lt {slot : Slot} (h : f.hidden = (.ok slot, f')) : slot.index.toNat < 256 := by
  obtain ⟨slot', hslot, hle, heq⟩ | heq := f.reserve_cases 1
  · have hlimit : f.used + 1 ≤ 256 := hle
    rw [Frame.hidden, heq] at h
    cases h
    omega
  · rw [Frame.hidden, heq] at h
    cases h

theorem spanFor_le (hf : f.Sound) {name : String} {count span : Nat} {base : Slot}
    (h : f.spanFor name count = (.ok (base, span), f')) : base.index.toNat + count ≤ 256 := by
  obtain ⟨hidden, hapart⟩ := hf
  have hused : f.used ≤ 256 := hapart.used_le
  obtain ⟨symbol, hsymbol, hspan, heq⟩ | ⟨slot', hslot, hle, heq⟩ | heq := f.spanFor_cases name count
  · have hbelow := hapart.symbol_le name symbol hsymbol
    rw [heq] at h
    cases h
    omega
  · have hlimit : f.used + count ≤ 256 := hle
    rw [heq] at h
    cases h
    omega
  · rw [heq] at h
    cases h

theorem scratchSlots_ok (hf : f.Sound) {count : Nat} {slots : List Slot}
    (h : f.scratchSlots count = (.ok slots, f')) :
    f'.Sound ∧ f.scratch <+: f'.scratch ∧ count ≤ f'.scratch.length ∧
      slots = f'.scratch.take count := by
  obtain ⟨hidden, hapart⟩ := hf
  obtain ⟨hgrown, hprefix, hlength⟩ := hapart.growScratch (count - f.scratch.length)
  unfold Frame.scratchSlots at h
  cases hgrow : f.growScratch (count - f.scratch.length) with
  | mk outcome frame =>
    rw [hgrow] at h hgrown hprefix hlength
    cases outcome with
    | error r => cases h
    | ok u =>
      cases h
      have hlength : f'.scratch.length = _ := hlength rfl
      exact ⟨⟨hidden, hgrown⟩, hprefix, by omega, rfl⟩

theorem scratch_lt (hf : f.Sound) {count : Nat} {slots : List Slot}
    (h : f.scratchSlots count = (.ok slots, f')) (i : Nat) :
    (Lower.scratchSlot slots i).index.toNat < 256 := by
  obtain ⟨⟨hidden, hgrown⟩, -, -, rfl⟩ := hf.scratchSlots_ok h
  have hused : f'.used ≤ 256 := hgrown.used_le
  unfold Lower.scratchSlot
  rw [List.getD_eq_getElem?_getD]
  cases hget : (f'.scratch.take count)[i]? with
  | none => decide
  | some slot =>
    have hmem := List.mem_of_mem_take (List.mem_of_getElem? hget)
    have hlt : slot.index.toNat < f'.used :=
      hgrown.handed_lt slot (List.mem_append_right _ hmem)
    rw [Option.getD_some]
    omega

theorem cell_lt {s : Scope} (hs : s.frame.Sound) {slot : Slot} (h : s.Cell slot) :
    slot.index.toNat < 256 := by
  obtain ⟨hidden, hapart⟩ := hs
  obtain ⟨name, first, shape, hshape, hmem⟩ := h
  obtain ⟨symbol, hsymbol, heq⟩ := Option.map_eq_some_iff.mp hshape
  cases heq
  have hused : s.frame.used ≤ 256 := hapart.used_le
  have howned := (hapart.cells name symbol hsymbol slot hmem).2
  have hbelow := hapart.symbol_le name symbol hsymbol
  omega

end Frame.Sound

/-! ## Pieces of code -/

/-- The code starts and ends with nothing on the stack. -/
def Asm.Code.Level (c : Code) : Prop := c.Moves 0 0

theorem Asm.Code.Level.append {c d : Code} (hc : c.Level) (hd : d.Level) : (c ++ d).Level :=
  Code.Moves.append hc hd

namespace Lower

section

variable {c : Code} {l : Line} {slot counter stop : Slot} {s s' : Scope}

theorem level_line (h : l.Keeps 0) (hmove : l.move = 0) : Code.Level [l] := moves_line h hmove

theorem level_cons (h : l.Keeps 0) (hmove : l.move = 0) (hc : c.Level) : Code.Level (l :: c) :=
  (level_line h hmove).append hc

theorem level_calm (is : List Instr) (h : is.all Instr.calm = true) :
    Code.Level (is.map .instr) := moves_calm is h (Int.le_refl 0)

theorem level_constant (rd : XReg) (hrd : Instr.isTemporary rd = true) (value : BitVec 64) :
    (constant rd value).Level := level_calm _ (calm_loadImm rd hrd value)

theorem level_expr {e : Expr} {v : ValueCode} (hs : s.frame.Sound) (h : expr s 0 e = .ok v) :
    v.code.Level :=
  (expr_evaluates s 0 e v h).moves (fun _ => hs.cell_lt) (Int.le_refl 0)

theorem level_loadX (rt : XReg) (hrt : Instr.isTemporary rt = true)
    (hslot : slot.index.toNat < 256) (hc : c.Level) : Code.Level (loadX rt slot :: c) := by
  refine level_cons (keeps_slot (Int.le_refl 0) hslot rfl rfl ?_) rfl hc
  rw [List.all_eq_true]
  intro r hr
  rw [Instr.mem_general hr]
  exact Instr.free_of_temporary hrt

theorem level_storeX (rt : XReg) (hslot : slot.index.toNat < 256) (hc : c.Level) :
    Code.Level (storeX rt slot :: c) :=
  level_cons (keeps_slot (Int.le_refl 0) hslot rfl rfl rfl) rfl hc

theorem level_load (kind : Scalar) (hslot : slot.index.toNat < 256) (hc : c.Level) :
    Code.Level (load kind slot :: c) :=
  level_cons (keeps_load kind (Int.le_refl 0) hslot) (move_load kind) hc

theorem level_loadAt (kind : Scalar) (base : Slot) : (loadAt kind base).Level := by
  have hload : Code.Level
      [if kind = .float then .instr (.ldrDAt .d0 .x16 .x0) else .instr (.ldrXAt .x0 .x16 .x0)] := by
    split <;> exact level_line (Line.keeps_of_calm (Int.le_refl 0) rfl) rfl
  exact Code.Level.append (moves_base base (Int.le_refl 0)) hload

/-! ## Print statements -/

theorem level_printf (format : String) : (printf format).Level :=
  level_cons ⟨Int.le_refl 0, rfl⟩ rfl (level_line rfl rfl)

theorem level_printText (text : String) : (printText text).Level := level_printf _

theorem keeps_argument {i : Instr} {k : Nat} (hk : k < 8)
    (h : i.store? = some (.sp, BitVec.ofNat 16 (8 * k))) : (Line.instr i).Keeps 0 := by
  have hoffset : (BitVec.ofNat 16 (8 * k)).toNat = 8 * k := by
    rw [BitVec.toNat_ofNat, Nat.mod_eq_of_lt (by omega)]
  cases i with
  | strX rt rn offset | strD rt rn offset =>
    cases h
    refine Line.keeps_of_fits rfl ⟨by omega, by omega⟩
      ⟨nofun, Int.le_refl 0, nofun, ⟨nofun, nofun⟩, ?_, ?_⟩
    · intro h
      exact absurd (Option.some.inj h) (by decide)
    · rintro _ ⟨⟩
      exact ⟨rfl, by omega⟩
  | _ => cases h

theorem level_boolText : Code.Level boolText := by
  refine level_cons (Line.keeps_of_calm (Int.le_refl 0) rfl) rfl ?_
  refine level_cons ⟨Int.le_refl 0, rfl⟩ rfl (level_cons ⟨Int.le_refl 0, rfl⟩ rfl ?_)
  exact level_line (Line.keeps_of_calm (Int.le_refl 0) rfl) rfl

theorem level_storeArgument (kind : Scalar) {k : Nat} (hk : k < 8) :
    (storeArgument kind k).Level := by
  cases kind with
  | int | string | float => exact level_line (keeps_argument hk rfl) rfl
  | bool => exact level_boolText.append (level_line (keeps_argument hk rfl) rfl)

theorem level_printLine (kind : Scalar) : (printLine kind).Level :=
  (level_storeArgument kind (by decide)).append (level_printf _)

theorem level_printPart (kind : Scalar) (before after : String) :
    (printPart kind before after).Level :=
  (level_storeArgument kind (by decide)).append (level_printf _)

theorem level_initCounter (hcounter : counter.index.toNat < 256) (hstop : stop.index.toNat < 256)
    (count : Nat) : (initCounter counter stop count).Level := by
  have hfirst := (level_constant .x0 rfl 0).append
    (level_storeX .x0 hcounter (level_constant .x0 rfl (BitVec.ofNat 64 count)))
  exact hfirst.append (level_storeX .x0 hstop rfl)

theorem level_addRowStart (hslot : slot.index.toNat < 256) (columns : Nat) :
    (addRowStart slot columns).Level :=
  (level_loadX .x1 rfl hslot (level_constant .x2 rfl _)).append
    (level_calm [.mul .x1 .x1 .x2, .add .x0 .x0 .x1] rfl)

theorem level_countedLoop {body : Lowering Code} (hcounter : counter.index.toNat < 256)
    (hstop : stop.index.toNat < 256)
    (hbody : ∀ labels code, body { s with labels } = .ok (code, s') → code.Level)
    (h : countedLoop counter stop body s = .ok (c, s')) : c.Level := by
  obtain ⟨code, top, done, -, -, hcode, rfl⟩ := countedLoop_ok _ _ _ _ _ _ h
  have hhead : Code.Level [.mark top, loadX .x0 counter, loadX .x1 stop, .instr (.cmp .x0 .x1),
      .jumpIf .ge done] :=
    level_cons rfl rfl (level_loadX .x0 rfl hcounter (level_loadX .x1 rfl hstop
      (level_cons (Line.keeps_of_calm (Int.le_refl 0) rfl) rfl (level_line rfl rfl))))
  have hfoot : Code.Level [loadX .x0 counter, .instr (.addImm .x0 .x0 1), storeX .x0 counter,
      .jump top, .mark done] :=
    level_loadX .x0 rfl hcounter (level_cons (Line.keeps_of_calm (Int.le_refl 0) rfl) rfl
      (level_storeX .x0 hcounter (level_cons rfl rfl (level_line rfl rfl))))
  exact (hhead.append (hbody _ code hcode)).append hfoot

theorem level_printSeparator (hcounter : counter.index.toNat < 256)
    (h : printSeparator counter s = .ok (c, s')) : c.Level := by
  simp only [printSeparator, Lowering.bind_ok, Lowering.newLabel_ok, Lowering.pure_ok] at h
  obtain ⟨skip, _, -, rfl, -⟩ := h
  have hjump : Code.Level (.jumpIfZero .x0 skip :: printText ", ") :=
    level_cons rfl rfl (level_printText ", ")
  exact (level_loadX .x0 rfl hcounter hjump).append (level_line rfl rfl)

theorem level_printArray {view : ArrayView} {row : Option Slot} {before after : String}
    (hs : s.frame.Sound) (hrow : ∀ slot ∈ row, slot.index.toNat < 256)
    (h : printArray view row before after s = .ok (c, s')) : c.Level := by
  unfold printArray at h
  split at h
  · rw [Lowering.pure_ok] at h
    rw [← h.1]
    exact level_printText _
  · simp only [Lowering.bind_ok, Lowering.take_ok, Lowering.pure_ok] at h
    obtain ⟨slots, _, ⟨frame, hslots, rfl⟩, loop, _, hloop, rfl, rfl⟩ := h
    have hslot := hs.scratch_lt hslots
    have hlevel := level_countedLoop (hslot _) (hslot _) ?_ hloop
    · exact ((level_printText _).append (level_initCounter (hslot _) (hslot _) _)).append hlevel
        |>.append (level_printText _)
    · intro labels code hcode
      simp only [Lowering.bind_ok, Lowering.pure_ok] at hcode
      obtain ⟨sep, s₁, hsep, rfl, rfl⟩ := hcode
      refine (((level_printSeparator (hslot _) hsep).append (level_loadX .x0 rfl (hslot _) ?_)).append
        (level_loadAt _ _)).append (level_printPart _ _ _)
      cases row with
      | none => rfl
      | some row => exact level_addRowStart (hrow row rfl) _

theorem level_printRows {layout : ArrayLayout} {columns : Nat} (hs : s.frame.Sound)
    (h : printRows layout columns s = .ok (c, s')) : c.Level := by
  unfold printRows at h
  split at h
  · rw [Lowering.pure_ok] at h
    rw [← h.1]
    exact level_printText _
  · simp only [Lowering.bind_ok, Lowering.pure_ok] at h
    obtain ⟨slots, s₁, htake, loop, _, hloop, rfl, rfl⟩ := h
    have hs₁ := (Lowering.recorded_take (.scratch 4) trivial).sound htake hs
    obtain ⟨frame, hslots, rfl⟩ := (Lowering.take_ok _ _ _ _).mp htake
    have hslot := hs.scratch_lt hslots
    have hlevel := level_countedLoop (hslot _) (hslot _) ?_ hloop
    · exact ((level_printText _).append (level_initCounter (hslot _) (hslot _) _)).append hlevel
        |>.append (level_printText _)
    · intro labels code hcode
      simp only [Lowering.bind_ok, Lowering.pure_ok] at hcode
      obtain ⟨sep, s₂, hsep, row, s₃, hrow, rfl, rfl⟩ := hcode
      have hs₂ := (Lowering.declaring_recorded.printSeparator _).sound hsep hs₁
      refine (level_printSeparator (hslot _) hsep).append (level_printArray hs₂ ?_ hrow)
      simpa using hslot 0

theorem level_printRow {layout : ArrayLayout} {columns : Nat} {position : Expr}
    (hs : s.frame.Sound) (h : printRow layout columns position s = .ok (c, s')) : c.Level := by
  simp only [printRow, Lowering.bind_ok, Lowering.value_ok] at h
  obtain ⟨v, _, ⟨hv, rfl⟩, h⟩ := h
  cases hcode : indexCode v with
  | error e => simp [hcode, Lowering.fail_ok] at h
  | ok code =>
    simp only [hcode, Lowering.bind_ok, Lowering.pure_ok] at h
    obtain ⟨slots, s₁, htake, row, _, hrow, rfl, rfl⟩ := h
    have hs₁ := (Lowering.recorded_take (.scratch 5) trivial).sound htake hs
    obtain ⟨frame, hslots, rfl⟩ := (Lowering.take_ok _ _ _ _).mp htake
    have hslot := hs.scratch_lt hslots
    have hindex : code.Level :=
      (indexCode_evaluates (expr_evaluates s 0 position v hv) hcode).moves (fun _ => hs.cell_lt)
        (Int.le_refl 0)
    refine hindex.append (level_storeX .x0 (hslot _) (level_printArray hs₁ ?_ hrow))
    simpa using hslot 4

theorem level_flatMap {α : Type} {xs : List α} {f : α → Code} (h : ∀ x ∈ xs, (f x).Level) :
    Code.Level (xs.flatMap f) := by
  induction xs with
  | nil => rfl
  | cons x rest ih =>
    rw [List.flatMap_cons]
    exact (h x List.mem_cons_self).append (ih fun x hx => h x (List.mem_cons_of_mem _ hx))

theorem level_printTuple {elements : List (Slot × Scalar)}
    (hslots : ∀ slot ∈ elements.map (·.1), slot.index.toNat < 256) :
    (printTuple elements).Level := by
  unfold printTuple
  split
  · exact level_printText _
  · apply level_flatMap
    rintro ⟨⟨slot, kind⟩, i⟩ hmem
    have hslot := hslots slot (List.mem_map.mpr ⟨_, List.fst_mem_of_mem_zipIdx hmem, rfl⟩)
    exact level_load kind hslot (level_printPart _ _ _)

theorem level_printEnum (cases : List String) : (printEnum cases).Level := by
  unfold printEnum
  split
  · exact level_printText _
  · apply level_flatMap
    rintro ⟨case, i⟩ -
    have hstore (k : Nat) (hk : k < 8) :
        (Line.instr (.strX .x0 .sp (BitVec.ofNat 16 (8 * k)))).Keeps 0 := keeps_argument hk rfl
    exact level_cons ⟨Int.le_refl 0, rfl⟩ rfl (level_cons (hstore 0 (by decide)) rfl
      (level_cons (hstore 1 (by decide)) rfl (level_printf _)))

theorem level_printFields {fields : List (Field × Nat)} (hs : s.frame.Sound)
    (hslots : ∀ f i kind, (f, i) ∈ fields → f.shape = .scalar kind → f.slot.index.toNat < 256)
    (h : printFields fields s = .ok (c, s')) : c.Level := by
  induction fields generalizing c s with
  | nil =>
    rw [printFields, Lowering.pure_ok] at h
    rw [← h.1]
    exact level_printText _
  | cons entry rest ih =>
    obtain ⟨f, i⟩ := entry
    have hrest_slots (f i kind) (hmem : (f, i) ∈ rest) :=
      hslots f i kind (List.mem_cons_of_mem _ hmem)
    cases hshape : f.shape with
    | scalar kind =>
      simp only [printFields, hshape, Lowering.bind_ok, Lowering.pure_ok] at h
      obtain ⟨_, _, ⟨rfl, rfl⟩, restCode, s₂, hrest, rfl, rfl⟩ := h
      have hslot := hslots f i kind List.mem_cons_self hshape
      exact (level_load kind hslot (level_printPart _ _ _)).append (ih hs hrest_slots hrest)
    | array count element =>
      simp only [printFields, hshape, Lowering.bind_ok, Lowering.pure_ok] at h
      obtain ⟨code, s₁, hcode, restCode, s₂, hrest, rfl, rfl⟩ := h
      have hs₁ := (Lowering.declaring_recorded.printArray _ _ _ _).sound hcode hs
      exact (level_printArray hs (by simp) hcode).append (ih hs₁ hrest_slots hrest)

theorem level_interpolate {k : Nat} {parts : List Part} {r : String × Code} (hs : s.frame.Sound)
    (hk : k + parts.countP isVar ≤ 8) (h : interpolate s k parts = .ok r) : r.2.Level := by
  induction parts generalizing k r with
  | nil =>
    cases h
    rfl
  | cons part rest ih =>
    cases part with
    | text source =>
      simp only [interpolate, bind_eq_ok, pure, Except.pure, Except.ok.injEq] at h
      obtain ⟨⟨format, code⟩, hrest, rfl⟩ := h
      exact ih (r := (format, code)) (by simpa [isVar] using hk) hrest
    | var name =>
      rw [List.countP_cons_of_pos rfl] at hk
      simp only [interpolate] at h
      split at h
      · cases h
      · rename_i slot shape hshape
        split at h
        · cases h
        · rename_i kind hkind
          simp only [bind_eq_ok, pure, Except.pure, Except.ok.injEq] at h
          obtain ⟨⟨format, code⟩, hrest, rfl⟩ := h
          have hslot : slot.index.toNat < 256 := by
            refine hs.cell_lt ⟨name, slot, shape, hshape, ?_⟩
            cases shape with
            | scalar | enumCase => exact List.mem_singleton_self slot
            | _ => cases hkind
          have hcode : Code.Level code := ih (k := k + 1) (by omega) hrest
          exact (level_load kind hslot (level_storeArgument kind (by omega))).append hcode

theorem level_printInterpolation {parts : List Part} (hs : s.frame.Sound)
    (h : printInterpolation parts s = .ok (c, s')) : c.Level := by
  unfold printInterpolation at h
  split at h
  · rw [Lowering.fail_ok] at h
    exact h.elim
  · rename_i hcount
    simp only [Lowering.bind_ok, Lowering.get_ok] at h
    obtain ⟨_, _, ⟨rfl, rfl⟩, h⟩ := h
    cases hcode : interpolate s 0 parts with
    | error e => simp [hcode, Lowering.refuse_ok] at h
    | ok r =>
      obtain ⟨format, code⟩ := r
      simp only [hcode, Lowering.pure_ok] at h
      rw [← h.1]
      have hlevel : Code.Level code :=
        level_interpolate hs (by simpa [Resource.limit] using hcount) hcode
      exact hlevel.append (level_printf _)

theorem level_printValue {e : Expr} (hs : s.frame.Sound) (h : printValue e s = .ok (c, s')) :
    c.Level := by
  simp only [printValue, Lowering.bind_ok, Lowering.value_ok, Lowering.pure_ok] at h
  obtain ⟨v, _, ⟨hv, rfl⟩, rfl, -⟩ := h
  exact (level_expr hs hv).append (level_printLine v.kind)

theorem level_printComposite {slot : Slot} {shape : Shape} (hs : s.frame.Sound)
    (hcell : ∀ cell ∈ shape.cells slot, cell.index.toNat < 256)
    (h : printComposite shape s = .ok (c, s')) : c.Level := by
  cases shape with
  | scalar | enumCase => cases h
  | array layout =>
    cases hinner : layout.inner with
    | none =>
      simp only [printComposite, hinner] at h
      exact level_printArray hs (by simp) h
    | some columns =>
      simp only [printComposite, hinner] at h
      exact level_printRows hs h
  | tuple elements =>
    rw [← ((Lowering.pure_ok _ _ _ _).mp h).1]
    exact level_printTuple hcell
  | dict fields =>
    simp only [printComposite, printDict] at h
    split at h
    · rw [← ((Lowering.pure_ok _ _ _ _).mp h).1]
      exact level_printText _
    · refine level_printFields hs (fun f i kind hmem hkind => hcell f.slot ?_) h
      refine List.mem_flatMap.mpr ⟨f, List.fst_mem_of_mem_zipIdx hmem, ?_⟩
      simp [hkind, FieldShape.span, Slot.run, Slot.nth]

theorem level_printVariable {name : String} (hs : s.frame.Sound)
    (h : printVariable name s = .ok (c, s')) : c.Level := by
  simp only [printVariable, Lowering.bind_ok, Lowering.get_ok] at h
  obtain ⟨_, _, ⟨rfl, rfl⟩, h⟩ := h
  cases hshape : s.shape? name with
  | none =>
    cases hcases : s.enums.get? name with
    | none => simp [hshape, hcases, Lowering.refuse_ok] at h
    | some cases =>
      simp only [hshape, hcases, Lowering.pure_ok] at h
      rw [← h.1]
      exact level_printEnum cases
  | some found =>
    obtain ⟨slot, shape⟩ := found
    have hcell (cell : Slot) (hmem : cell ∈ shape.cells slot) : cell.index.toNat < 256 :=
      hs.cell_lt ⟨name, slot, shape, hshape, hmem⟩
    simp only [hshape] at h
    cases hscalar : shape.scalar? with
    | none =>
      simp only [hscalar] at h
      exact level_printComposite hs hcell h
    | some kind =>
      have hslot : slot ∈ shape.cells slot := by
        rw [Shape.cells_scalar (by rw [hscalar]; rfl)]
        exact List.mem_singleton_self slot
      simp only [hscalar, Lowering.pure_ok] at h
      rw [← h.1]
      exact level_load _ (hcell slot hslot) (level_printLine _)

theorem level_printElement {name : String} {position : Expr} (hs : s.frame.Sound)
    (h : printElement name position s = .ok (c, s')) : c.Level := by
  simp only [printElement, Lowering.bind_ok, Lowering.get_ok] at h
  obtain ⟨_, _, ⟨rfl, rfl⟩, h⟩ := h
  cases hview : arrayView s name position with
  | error e => simp [hview, Lowering.fail_ok] at h
  | ok view? =>
    simp only [hview] at h
    cases view? with
    | some view => exact level_printArray hs (by simp) h
    | none =>
      cases hshape : s.shape? name with
      | none =>
        simp only [hshape] at h
        exact level_printValue hs h
      | some found =>
        obtain ⟨slot, shape⟩ := found
        simp only [hshape] at h
        cases shape with
        | array layout =>
          cases hinner : layout.inner with
          | none =>
            simp only [hinner] at h
            exact level_printValue hs h
          | some columns =>
            simp only [hinner] at h
            exact level_printRow hs h
        | _ => exact level_printValue hs h

theorem level_print {e : Expr} (hs : s.frame.Sound) (h : print e s = .ok (c, s')) : c.Level := by
  unfold print at h
  split at h
  · exact level_printInterpolation hs h
  · exact level_printVariable hs h
  · exact level_printElement hs h
  · exact level_printValue hs h

/-! ## Declarations -/

theorem level_store (kind : Scalar) (hslot : slot.index.toNat < 256) (hc : c.Level) :
    Code.Level (store kind slot :: c) :=
  level_cons (keeps_store kind (Int.le_refl 0) hslot) (move_store kind) hc

theorem moves_stage {values : List Expr} {kinds : List Scalar} (hs : s.frame.Sound)
    (h : stage values s = .ok ((kinds, c), s')) {d : Int} (hd : d ≤ 0) :
    c.Moves d (d - 16 * kinds.length) := by
  induction values generalizing kinds c d with
  | nil =>
    obtain ⟨heq, -⟩ := (Lowering.pure_ok _ _ _ _).mp h
    cases heq
    show d = d - 16 * 0
    omega
  | cons e rest ih =>
    simp only [stage, Lowering.bind_ok, Lowering.value_ok] at h
    obtain ⟨v, _, ⟨hv, rfl⟩, ⟨kinds', c'⟩, s₁, hrest, h⟩ := h
    obtain ⟨heq, rfl⟩ := (Lowering.pure_ok _ _ _ _).mp h
    cases heq
    have hvalue := (expr_evaluates s 0 e v hv).moves (fun _ => hs.cell_lt) hd
    have hothers := ih hrest (d := d - 16) (by omega)
    have hend : d - 16 - 16 * (kinds'.length : Int) = d - 16 * ((v.kind :: kinds').length : Int) := by
      rw [List.length_cons]
      omega
    rw [hend] at hothers
    exact hvalue.append ((moves_push v.kind hd).append hothers)

/-- Staged values are popped into slots, the last one first. -/
theorem moves_unstage {base : Slot} {pairs : List (Scalar × Nat)}
    (hslots : ∀ kind i, (kind, i) ∈ pairs → (base.nth i).index.toNat < 256) :
    Code.Moves (-16 * pairs.length)
      (pairs.map fun (kind, i) => [pop kind, store kind (base.nth i)]).flatten 0 := by
  induction pairs with
  | nil => rfl
  | cons pair rest ih =>
    obtain ⟨kind, i⟩ := pair
    have hrest := ih fun kind i hmem => hslots kind i (List.mem_cons_of_mem _ hmem)
    have hle : (-16 * (rest.length : Int)) ≤ 0 := by omega
    have hstart : -16 * (((kind, i) :: rest).length : Int) = -16 * rest.length - 16 := by
      rw [List.length_cons]
      omega
    have hstore := keeps_store kind hle (hslots kind i List.mem_cons_self)
    rw [hstart]
    exact (moves_pop kind hle).append ((moves_line hstore (move_store kind)).append hrest)

theorem level_composite {name : String} {kinds : List Scalar} {shape : Slot → Shape} {code d : Code}
    (hs : s.frame.Sound) (hcode : code.Moves 0 (-16 * kinds.length))
    (h : bindComposite name kinds shape s = .ok (d, s')) : (code ++ d).Level := by
  obtain ⟨base, span, frame, hspan, -, rfl⟩ := bindComposite_ok name kinds shape d s s' h
  have hle := hs.spanFor_le hspan
  have hslots (kind : Scalar) (i : Nat) (hmem : (kind, i) ∈ kinds.zipIdx.reverse) :
      (base.nth i).index.toNat < 256 := by
    have hlt := List.snd_lt_of_mem_zipIdx (List.mem_reverse.mp hmem)
    have hbelow := (Frame.mem_run hle (Slot.nth_mem_run (by simpa using hlt))).2
    omega
  have hunstage := moves_unstage hslots
  rw [List.length_reverse, List.length_zipIdx] at hunstage
  exact hcode.append hunstage

theorem level_declare {name : String} {e : Expr} (hs : s.frame.Sound)
    (h : declare name e s = .ok (c, s')) : c.Level := by
  have hstage {values : List Expr} {kinds : List Scalar} {code : Code}
      (h : stage values s = .ok ((kinds, code), s)) : code.Moves 0 (-16 * kinds.length) := by
    have hmoves := moves_stage hs h (Int.le_refl 0)
    rwa [show (0 : Int) - 16 * kinds.length = -16 * kinds.length by omega] at hmoves
  unfold declare at h
  split at h
  · obtain ⟨values, inner, kinds, kind, code, d, -, hvalues, -, hbind, rfl⟩ :=
      declareArray_ok name _ c s s' h
    exact level_composite hs (hstage hvalues) hbind
  · obtain ⟨kinds, code, d, -, hvalues, hbind, rfl⟩ := declareTuple_ok name _ c s s' h
    exact level_composite hs (hstage hvalues) hbind
  · obtain ⟨fields, shapes, kinds, code, d, -, hvalues, -, hbind, rfl⟩ :=
      declareDict_ok name _ c s s' h
    exact level_composite hs (hstage hvalues) hbind
  · obtain ⟨v, slot, frame, hv, hassign, -, rfl⟩ := declareScalar_ok name e c s s' h
    exact (level_expr hs hv).append (level_store v.kind (hs.assign_lt hassign) rfl)

/-! ## Statements -/

theorem level_jumpUnless {target : Label} {e : Expr} (h : jumpUnless target e s = .ok (c, s'))
    (hs : s.frame.Sound) : c.Level := by
  obtain ⟨-, hcase⟩ := jumpUnless_ok target e c s s' h
  rcases hcase with ⟨v, hv, rfl⟩ | ⟨op, lhs, rhs, test, left, right, cond, code, rfl, -, hleft,
    hright, hcode, rfl⟩
  · have hvalue := (expr_evaluates s 0 e v hv).append (evaluates_truth v.kind)
    exact Code.Level.append (hvalue.moves (fun _ => hs.cell_lt) (Int.le_refl 0))
      (level_line rfl rfl)
  · have hvalues := comparison_evaluates (expr_evaluates s 0 lhs left hleft)
      (expr_evaluates s 0 rhs right hright) hcode
    exact Code.Level.append (hvalues.moves (fun _ => hs.cell_lt) (Int.le_refl 0))
      (level_line rfl rfl)

theorem level_loop {var : String} {start stop : Expr} {body : Lowering Code} (hs : s.frame.Sound)
    (hbody : ∀ s₁ code, s₁.frame.Sound → body s₁ = .ok (code, s') → code.Level)
    (h : loop var start stop body s = .ok (c, s')) : c.Level := by
  obtain ⟨startCode, counter, frame₁, stopCode, stopSlot, frame₂, code, hstart, hcounter, hstop,
    hhidden, hcode, rfl⟩ := loop_ok var start stop body c s s' h
  have hs₁ : frame₁.Sound := (Lowering.recorded_take (.assign var (.scalar .int)) rfl).sound
    ((Lowering.take_ok _ _ _ _).mpr ⟨frame₁, hcounter, rfl⟩) hs
  have hs₂ : frame₂.Sound := (Lowering.recorded_take .hidden trivial).sound
    ((Lowering.take_ok _ _ { s with frame := frame₁ } _).mpr ⟨frame₂, hhidden, rfl⟩) hs₁
  have hcounter_lt := hs.assign_lt hcounter
  have hstop_lt := Frame.Sound.hidden_lt hhidden
  have hloop : code.Level :=
    level_countedLoop hcounter_lt hstop_lt (fun _ code => hbody _ code hs₂) hcode
  exact ((level_expr hs hstart).append (level_store .int hcounter_lt (level_expr hs₁ hstop))).append
    (level_store .int hstop_lt hloop)

end

mutual

theorem level_stmt (st : Stmt) (c : Code) (s s' : Scope) (h : stmt st s = .ok (c, s'))
    (hs : s.frame.Sound) : c.Level := by
  match st with
  | .print e =>
    rw [stmt] at h
    exact level_print hs h
  | .decl name e =>
    rw [stmt] at h
    exact level_declare hs h
  | .loop var (.counted start stop) body =>
    rw [stmt] at h
    exact level_loop hs (fun s₁ code hs₁ hcode => level_block body code s₁ s' hcode hs₁) h
  | .cond test thenBody none =>
    obtain ⟨otherwise, testCode, thenCode, -, htest, hthen, rfl⟩ :=
      cond_none_ok test thenBody c s s' h
    exact ((level_jumpUnless htest hs).append (level_block thenBody thenCode _ s' hthen hs)).append
      (level_line rfl rfl)
  | .cond test thenBody (some elseBody) =>
    obtain ⟨otherwise, done, testCode, thenCode, elseCode, s₁, -, -, htest, hthen, helse, rfl⟩ :=
      cond_some_ok test thenBody elseBody c s s' h
    have hs₁ := (Lowering.declaring_recorded.block thenBody).sound hthen hs
    have hmiddle : Code.Level [.jump done, .mark otherwise] :=
      level_cons rfl rfl (level_line rfl rfl)
    exact ((((level_jumpUnless htest hs).append (level_block thenBody thenCode _ s₁ hthen hs)).append
      hmiddle).append (level_block elseBody elseCode _ s' helse hs₁)).append (level_line rfl rfl)
  | .ret e =>
    rw [stmt] at h
    obtain ⟨label, code, -, hcode, -, rfl⟩ := ret_ok e c s s' h
    exact (level_expr hs hcode).append (level_line rfl rfl)
  | .enum name cases =>
    rw [stmt] at h
    cases h
    rw [List.map_eq_flatMap]
    exact level_flatMap fun case _ => level_line (Int.le_refl 0) rfl
  | .expr e =>
    simp only [stmt, Lowering.bind_ok, Lowering.value_ok, Lowering.pure_ok] at h
    obtain ⟨v, _, ⟨hv, rfl⟩, rfl, -⟩ := h
    exact level_expr hs hv

theorem level_block (body : List Stmt) (c : Code) (s s' : Scope)
    (h : block body s = .ok (c, s')) (hs : s.frame.Sound) : c.Level := by
  match body with
  | [] =>
    obtain ⟨rfl, -⟩ := (Lowering.pure_ok _ _ _ _).mp h
    rfl
  | st :: rest =>
    obtain ⟨c₁, c₂, s₁, h₁, h₂, rfl⟩ := block_cons_ok st rest c s s' h
    have hs₁ := (Lowering.declaring_recorded.stmt st).sound h₁ hs
    exact (level_stmt st c₁ s s₁ h₁ hs).append (level_block rest c₂ s₁ s' h₂ hs₁)

end

/-! ## Bodies -/

theorem level_parameters {i : Nat} {params : List String} {c : Code} {s s' : Scope}
    (hs : s.frame.Sound) (h : parameters i params s = .ok (c, s')) : c.Level := by
  induction params generalizing i c s with
  | nil =>
    obtain ⟨rfl, -⟩ := (Lowering.pure_ok _ _ _ _).mp h
    rfl
  | cons param rest ih =>
    simp only [parameters, Lowering.bind_ok, Lowering.pure_ok] at h
    obtain ⟨slot, s₁, htake, c', _, hrest, rfl, rfl⟩ := h
    have hs₁ := (Lowering.recorded_take (.assign param (.scalar .int)) rfl).sound htake hs
    obtain ⟨frame, hassign, rfl⟩ := (Lowering.take_ok _ _ _ _).mp htake
    exact level_storeX _ (hs.assign_lt hassign) (ih hs₁ hrest)

/-- The lines of a body between its prologue and its epilogue. -/
structure Middle (head : Line) (c mid : Code) : Prop where
  shape : c = head :: (prologue ++ mid ++ epilogue)
  closed : mid.Closed []
  level : mid.Level

theorem sound_enter (s : Session) (inFunction : Bool) : (s.enter inFunction).frame.Sound :=
  ⟨[], Frame.apart_empty⟩

theorem function_middle {name : String} {f : Function} {c : Code} {s s' : Session}
    (h : function name f s = .ok (c, s')) : ∃ entry mid, Middle (.mark entry) c mid := by
  obtain ⟨callee, s₁, s₂, params, body, -, hparams, hbody, -, rfl⟩ := function_ok name f c s s' h
  have hs₀ := sound_enter s true
  have hs₁ := (Lowering.declaring_recorded.parameters 0 f.params).sound hparams hs₀
  have hparams_level := level_parameters hs₀ hparams
  obtain ⟨hplain, frame, rfl⟩ := parameters_ok 0 f.params params _ s₁ hparams
  refine ⟨callee.entry, _, rfl, closed_of_emits true (Stmt.allCalls f.body) _ s s₂ ?_, ?_⟩
  · rw [List.append_assoc]
    exact ((block_emits f.body body _ s₂ hbody).plainAfter (plain_constant _ _)).ofFrame.plainBefore
      hplain
  · exact ((hparams_level.append (level_block f.body body _ s₂ hbody hs₁)).append
      (level_constant .x0 rfl 0)).append (level_line rfl rfl)

theorem main_middle {statements : List Stmt} {c : Code} {s s' : Session}
    (h : mainBody statements s = .ok (c, s')) : ∃ mid, Middle .entry c mid := by
  obtain ⟨s₁, body, hbody, -, rfl⟩ := mainBody_ok statements c s s' h
  have hemits := (block_emits _ body _ s₁ hbody).plainAfter
    (d := constant .x0 0 ++ [.callImport .exit]) (by simp)
  have hexit : Code.Level (constant .x0 0 ++ [.callImport .exit]) :=
    (level_constant .x0 rfl 0).append (level_line rfl rfl)
  refine ⟨_, rfl, closed_of_emits false _ _ s s₁ hemits, ?_⟩
  exact ((level_block _ body _ s₁ hbody (sound_enter s false)).append hexit).append
    (level_line rfl rfl)

end Lower

open Lower

/-- A body keeps the frame discipline. `mid` are its words between the prologue and the
epilogue. -/
structure BodyFramed (body mid : List Word) : Prop where
  shape : body = Code.words prologue ++ mid ++ Code.words epilogue
  scanned : Scanned 0 mid
  /-- Nothing is on the stack when the epilogue starts. -/
  balanced : stackMove mid = 0
  /-- A branch goes to a place where nothing is on the stack. -/
  targets : ∀ (j : Nat) w instr d, body[j]? = some w → decode w = some instr →
    instr.jump? = some d → ∃ t ≤ mid.length,
      4 * ((Code.words prologue).length + t : Int) = 4 * j + d.toInt ∧ stackMove (mid.take t) = 0

namespace Lower.Middle

variable {head : Line} {c mid : Code} {place : Label → Nat} {k : Nat}

theorem located_mid (h : Middle head c mid) (hhead : head.body = []) {q : Nat} {l : Line}
    (hmem : (q, l) ∈ Code.located (k + 9) mid) : (q, l) ∈ Code.located k c := by
  have hzero : head.size = 0 := by rw [Line.size, hhead, List.length_nil]
  have hprologue : Code.size prologue = 9 := rfl
  rw [h.shape, Code.located_cons, Code.located_append, Code.located_append, hzero, hprologue]
  simp [hmem]

theorem jump_mid (h : Middle head c mid) (hhead : head.body = []) {q : Nat} {l : Line}
    {label : Label} (hmem : (q, l) ∈ Code.located k c) (hl : l.jumpTarget? = some label) :
    (q, l) ∈ Code.located (k + 9) mid := by
  have hzero : head.size = 0 := by rw [Line.size, hhead, List.length_nil]
  have hprologue : Code.size prologue = 9 := rfl
  have hplain (d : Code) (hd : d.all Line.plain = true) (k : Nat) : (q, l) ∉ Code.located k d := by
    intro hq
    have := List.all_eq_true.mp hd l (Code.mem_of_mem_located k d q l hq)
    cases l with
    | jump | jumpIf | jumpIfZero => cases this
    | _ => cases hl
  rw [h.shape, Code.located_cons, Code.located_append, Code.located_append, hzero, hprologue,
    List.mem_cons, List.mem_append, List.mem_append, Prod.mk.injEq] at hmem
  rcases hmem with ⟨-, rfl⟩ | (hq | hq) | hq
  · cases l with
    | jump | jumpIf | jumpIfZero => cases hhead
    | _ => cases hl
  · exact absurd hq (hplain _ plain_prologue _)
  · exact hq
  · exact absurd hq (hplain _ plain_epilogue _)

theorem words_eq (h : Middle head c mid) (hhead : head.body = []) :
    (c.instrs place k).map Instr.encode =
      Code.words prologue ++ (mid.instrs place (k + 9)).map Instr.encode ++ Code.words epilogue := by
  have hresolved : head.resolved place k = [] := by
    apply List.eq_nil_of_length_eq_zero
    rw [Line.length_resolved, Line.size, hhead, List.length_nil]
  have hzero : head.size = 0 := by rw [Line.size, hhead, List.length_nil]
  have hprologue : Code.size prologue = 9 := rfl
  rw [h.shape, Code.instrs_cons, hresolved, List.nil_append, Code.instrs_append,
    Code.instrs_append, List.map_append, List.map_append,
    Code.words_of_plain place _ prologue plain_prologue,
    Code.words_of_plain place _ epilogue plain_epilogue, hzero, hprologue, Nat.add_zero]

theorem framed (h : Middle head c mid) (hhead : head.body = []) (hsound : ∀ l ∈ c, l.Sound)
    (hreach : ∀ q l, (q, l) ∈ Code.located k c → l.Reaches place q)
    (hplaced : ∀ r label, (r, .mark label) ∈ Code.located k c → place label = r) :
    BodyFramed ((c.instrs place k).map Instr.encode)
      ((mid.instrs place (k + 9)).map Instr.encode) := by
  have hreach_mid (q l) (hmem : (q, l) ∈ Code.located (k + 9) mid) :=
    hreach q l (h.located_mid hhead hmem)
  obtain ⟨hscanned, hbalanced⟩ := Code.Moves.scanned h.level hreach_mid
  refine ⟨h.words_eq hhead, hscanned, by simpa using hbalanced, ?_⟩
  intro j w instr o hj hdecode ho
  rw [List.getElem?_map, Option.map_eq_some_iff] at hj
  obtain ⟨i, hi, rfl⟩ := hj
  obtain ⟨l, label, hmem, htarget, hfar, hjump⟩ := Code.decode_jump place k c hsound hreach j i instr
    o hi hdecode (instr.displacement?_of_jump o ho)
  cases hl : l.jumpTarget? with
  | none =>
    rw [hl, ho] at hjump
    cases hjump
  | some label' =>
    have heq : label' = label := by simpa [Line.target?, hl] using htarget
    subst heq
    rcases h.closed (k + 9) _ l label' (h.jump_mid hhead hmem hl) hl with ⟨r, hr, -⟩ | hout
    · have hplace := hplaced r label' (h.located_mid hhead hr)
      have hbounds := Code.mem_located _ _ _ _ hr
      have hlevel := Code.Moves.level h.level hreach_mid hr
      refine ⟨r - (k + 9), ?_, ?_, by simpa using hlevel⟩
      · rw [List.length_map, Code.length_instrs]
        omega
      · have hprologue : (Code.words prologue).length = 9 := rfl
        rw [hprologue]
        omega
    · cases hout

end Lower.Middle

theorem Program.LowersTo.middle {p : Program} {i : Nat} {code : Code} (h : p.LowersTo i code) :
    ∃ head mid, head.body = [] ∧ Middle head code mid := by
  unfold Program.LowersTo at h
  split at h
  · obtain ⟨f, s, s', -, hlower⟩ := h
    obtain ⟨entry, mid, hmid⟩ := function_middle hlower
    exact ⟨_, mid, rfl, hmid⟩
  · obtain ⟨s, s', hlower⟩ := h
    obtain ⟨mid, hmid⟩ := main_middle hlower
    exact ⟨_, mid, rfl, hmid⟩

/-- The code of an image consists of bodies that keep the frame discipline, one for each function and
then one for the other statements. -/
structure ImageFramed (p : Program) (image : Asm.Image) (place : Label → Nat)
    (bodies : List (List Word)) : Prop where
  code : image.code = .ofWords bodies.flatten
  length : bodies.length = p.functionNames.length + 1
  source : ∀ (i : Nat) body, bodies[i]? = some body → ∃ code, p.LowersTo i code ∧
    body = (Code.instrs place (bodies.take i).flatten.length code).map Instr.encode
  framed : ∀ (i : Nat) body, bodies[i]? = some body → ∃ mid, BodyFramed body mid

/-- Every body of an image keeps the frame discipline. And an expression that is lowered with some
arguments waiting sets the counter of them back, and its code leaves their registers. -/
theorem image_framed :
    (∀ (p : Program) image, p.image = .ok image → ∃ place bodies, ImageFramed p image place bodies) ∧
    ∀ s depth e v, expr s depth e = .ok v → counted s e depth = .ok (v, depth) ∧
      ∀ w ∈ v.code.words, ∃ i, decode w = some i ∧ i.Spares depth := by
  refine ⟨?_, fun s depth e v h => ⟨counted_of_ok h, (expr_evaluates s depth e v h).spares⟩⟩
  intro p image himage
  obtain ⟨l, d, codes, place, -, hbodies, hbuilt⟩ := image_built p image himage
  have htake (i : Nat) : (((Code.rows place 0 codes).map (·.map Instr.encode)).take i).flatten.length
      = Code.start codes i := by
    rw [← List.map_take, ← List.map_flatten, List.length_map, Code.length_flatten_take_rows]
  have hbody {i : Nat} {body : List Word}
      (h : ((Code.rows place 0 codes).map (·.map Instr.encode))[i]? = some body) :
      ∃ code, codes[i]? = some code ∧
        body = (code.instrs place (Code.start codes i)).map Instr.encode := by
    rw [List.getElem?_map, Code.getElem?_rows, Nat.zero_add, Option.map_map,
      Option.map_eq_some_iff] at h
    obtain ⟨code, hi, rfl⟩ := h
    exact ⟨code, hi, rfl⟩
  refine ⟨place, (Code.rows place 0 codes).map (·.map Instr.encode), ?_, ?_, ?_, ?_⟩
  · rw [← List.map_flatten, Code.flatten_rows, hbuilt.code, hbodies.code, Code.instrs_append,
      hbodies.size_declared, hbodies.instrs_declared, List.nil_append]
  · rw [List.length_map, Code.length_rows, hbodies.length, ← hbodies.declared.names, List.length_map]
  · intro i body hi
    obtain ⟨code, hcode, rfl⟩ := hbody hi
    obtain ⟨-, -, -, hlowers⟩ := hbodies.body_at i code hcode
    exact ⟨code, hlowers, by rw [htake]⟩
  · intro i body hi
    obtain ⟨code, hcode, rfl⟩ := hbody hi
    obtain ⟨head, hhead, hbodyCode, hlowers⟩ := hbodies.body_at i code hcode
    obtain ⟨head', mid, hhead', hmid⟩ := hlowers.middle
    have hlocated := hbodies.located_of_body i code hcode
    refine ⟨_, hmid.framed hhead' (hbodyCode.sound hhead) ?_ ?_⟩
    · exact fun q l hmem => hbuilt.reaches q l (hlocated q l hmem)
    · exact fun r label hmem => hbuilt.placed r label (hlocated r _ hmem)

/-- Composites, doubles and texts, in a loop and as arguments of calls inside calls. -/
def mixture : Program where
  statements :=
    [.func "mean" ["a", "b"]
        [.ret (.binary .div (.binary .add (.var "a") (.var "b")) (.int 2))],
      .decl "xs" (.array [.float ⟨0x3FF8000000000000⟩, .float ⟨0x4004000000000000⟩]),
      .decl "d" (.dict [(.str "k", .array [.int 1, .int 2]), (.str "t", .str "text")]),
      .loop "i" (.counted (.int 0) (.int 2))
        [.print (.binary .mul (.index (.var "xs") (.var "i")) (.int 2))],
      .print (.var "d"),
      .cond (.binary .lt (.index (.var "xs") (.int 0)) (.int 3))
        [.print (.interpolation [.text "mean ", .var "i"])] none,
      .print (.call "mean" [.call "mean" [.int 1, .int 2], .binary .add (.int 3) (.int 4)])]

/-- Two calls of a function, one in an index in an argument of the other. -/
def nestedCall : Expr :=
  .call "mean" [.index (.var "xs") (.call "mean" [.int 1, .int 2]), .int 3]

def meanScope : Scope :=
  { Session.enter ⟨[("mean", ⟨⟨0⟩, 2⟩)], [], .empty, none⟩ false with
    frame := (Frame.empty.place "xs" 2 fun base => .array ⟨base, 2, .int, none⟩).2 }

theorem mixture_framed :
    (∃ image place bodies, mixture.image = .ok image ∧ ImageFramed mixture image place bodies) ∧
    ∃ v, expr meanScope 6 nestedCall = .ok v ∧ counted meanScope nestedCall 6 = .ok (v, 6) ∧
      ∀ w ∈ v.code.words, ∃ i, decode w = some i ∧ i.Spares 6 := by
  obtain ⟨hframed, hspares⟩ := image_framed
  constructor
  · obtain ⟨l, hlower, hsize⟩ : ∃ l, mixture.lower = .ok l ∧ 4 * Code.size l.code ≤ 2 ^ 20 :=
      exists_ok (by decide +kernel)
    obtain ⟨image, himage⟩ := exists_image mixture l hlower hsize
    obtain ⟨place, bodies, hbodies⟩ := hframed mixture image himage
    exact ⟨image, place, bodies, himage, hbodies⟩
  · obtain ⟨v, h⟩ : ∃ v, expr meanScope 6 nestedCall = .ok v :=
      exists_ok_of_isOk (by decide +kernel)
    exact ⟨v, h, hspares meanScope 6 nestedCall v h⟩

end Armature
