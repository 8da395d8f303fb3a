import Armature.Proofs.Inversion

/-!
# Slots of a frame

No slot of a frame is given away twice: not to two variables, and not to a variable and to a loop.
This holds after all operations on frames, one after the other, also if some of them fail.
-/

namespace Armature

/-! ## What slots are for -/

/-- The distance of a slot from the frame base. -/
def Slot.distance (s : Slot) : Nat := 64 + 8 * s.index.toNat

theorem Slot.toNat_offset (s : Slot) (h : s.index.toNat < 256) : s.offset.toNat = s.distance := by
  have h64 : (64 : BitVec 16).toNat = 64 := rfl
  have h8 : (8 : BitVec 16).toNat = 8 := rfl
  simp only [offset, distance, BitVec.toNat_add, BitVec.toNat_mul, h64, h8]
  omega

theorem Slot.fits_offset (s : Slot) (h : s.index.toNat < 256) :
    s.offset.toNat % 8 = 0 ∧ s.offset.toNat < 32768 := by
  rw [s.toNat_offset h, distance]
  omega

/-- The slot and those that follow it, so many in all. -/
def Slot.run (slot : Slot) (count : Nat) : List Slot := (List.range count).map slot.nth

theorem Slot.nth_zero (slot : Slot) : slot.nth 0 = slot := by simp [nth]

theorem Slot.nth_nth (slot : Slot) (i j : Nat) : (slot.nth i).nth j = slot.nth (i + j) := by
  simp [nth, BitVec.add_assoc, ← BitVec.ofNat_add]

theorem Slot.run_add (slot : Slot) (i j : Nat) :
    slot.run (i + j) = slot.run i ++ (slot.nth i).run j := by
  simp [run, List.range_add, Function.comp_def, nth_nth]

theorem Slot.nth_mem_run {slot : Slot} {i count : Nat} (h : i < count) :
    slot.nth i ∈ slot.run count :=
  List.mem_map_of_mem (List.mem_range.mpr h)

theorem Slot.nth_run_subset (slot : Slot) {i j count : Nat} (h : i + j ≤ count) :
    (slot.nth i).run j ⊆ slot.run count := by
  intro cell hcell
  obtain ⟨n, hn, rfl⟩ := List.mem_map.mp hcell
  have hn := List.mem_range.mp hn
  rw [nth_nth]
  exact nth_mem_run (by omega)

theorem Slot.run_subset (slot : Slot) {i count : Nat} (h : i ≤ count) :
    slot.run i ⊆ slot.run count := by
  have hsub : (slot.nth 0).run i ⊆ slot.run count := slot.nth_run_subset (by omega)
  rwa [nth_zero] at hsub

theorem Slot.index_nth {slot : Slot} {count i : Nat}
    (h : ∀ cell ∈ slot.run count, cell.index.toNat < 256) (hi : i < count) :
    (slot.nth i).index.toNat = slot.index.toNat + i ∧ slot.index.toNat + i < 256 := by
  have hindex (j : Nat) : (slot.nth j).index.toNat = (slot.index.toNat + j) % 65536 := by
    rw [nth, BitVec.toNat_add, BitVec.toNat_ofNat, Nat.add_mod_mod]
  have hlt (j : Nat) (hj : j < count) : (slot.index.toNat + j) % 65536 < 256 := by
    rw [← hindex]
    exact h _ (nth_mem_run hj)
  have hfirst := hlt 0 (by omega)
  -- otherwise a slot on the way has the number 256
  have hlast : slot.index.toNat + i < 256 := by
    have := slot.index.isLt
    refine Nat.lt_of_not_le fun hge => ?_
    have := hlt (256 - slot.index.toNat) (by omega)
    omega
  exact ⟨by rw [hindex, Nat.mod_eq_of_lt (by omega)], hlast⟩

theorem Slot.nth_ne {slot : Slot} {count i j : Nat}
    (h : ∀ cell ∈ slot.run count, cell.index.toNat < 256) (hi : i < count) (hj : j < count)
    (hne : i ≠ j) : slot.nth i ≠ slot.nth j := by
  intro heq
  have hnumber := (index_nth h hi).1
  rw [heq, (index_nth h hj).1] at hnumber
  omega

theorem Slot.distance_ne {slot slot' : Slot} (h : slot ≠ slot') :
    slot.distance ≠ slot'.distance := by
  intro heq
  apply h
  obtain ⟨index⟩ := slot
  obtain ⟨index'⟩ := slot'
  simp only [Slot.distance] at heq
  exact congrArg Slot.mk (BitVec.eq_of_toNat_eq (by omega))

/-- The slots that hold the values of a variable. `slot` is the first that it owns. -/
def Shape.cells (slot : Slot) : Shape → List Slot
  | scalar _ | enumCase _ => [slot]
  | array layout => layout.base.run (layout.count * layout.inner.getD 1)
  | tuple elements => elements.map (·.1)
  | dict fields => fields.flatMap fun f => f.slot.run f.shape.span

theorem Shape.cells_scalar {shape : Shape} (h : shape.scalar?.isSome) (slot : Slot) :
    shape.cells slot = [slot] := by
  cases shape with
  | scalar | enumCase => rfl
  | _ => cases h

def Symbol.Owns (symbol : Symbol) (slot : Slot) : Prop :=
  symbol.slot.index.toNat ≤ slot.index.toNat ∧
    slot.index.toNat < symbol.slot.index.toNat + symbol.span

namespace Frame

/-- No slot is given away twice. `hidden` are those that no variable has asked for. -/
structure Apart (f : Frame) (hidden : List Slot) : Prop where
  used_le : f.used ≤ Resource.frameSlots.limit
  symbol_le : ∀ name symbol, f.lookup name = some symbol →
    symbol.slot.index.toNat + symbol.span ≤ f.used
  symbols : ∀ name other symbol symbol', f.lookup name = some symbol →
    f.lookup other = some symbol' → name ≠ other → ∀ slot, symbol.Owns slot → ¬ symbol'.Owns slot
  cells : ∀ name symbol, f.lookup name = some symbol →
    ∀ slot ∈ symbol.shape.cells symbol.slot, symbol.Owns slot
  handed_lt : ∀ slot ∈ hidden ++ f.scratch, slot.index.toNat < f.used
  handed_free : ∀ slot ∈ hidden ++ f.scratch, ∀ name symbol, f.lookup name = some symbol →
    ¬ symbol.Owns slot
  handed_nodup : (hidden ++ f.scratch).Nodup

theorem Apart.cell_lt {f : Frame} {hidden : List Slot} (h : f.Apart hidden) {name : String}
    {symbol : Symbol} (hs : f.lookup name = some symbol) :
    ∀ cell ∈ symbol.shape.cells symbol.slot, cell.index.toNat < 256 := by
  intro cell hcell
  have howns := (h.cells name symbol hs cell hcell).2
  have hle := h.symbol_le name symbol hs
  have hused : f.used ≤ 256 := h.used_le
  omega

/-- No slot of the frame has been given away twice. -/
def Sound (f : Frame) : Prop := ∃ hidden, f.Apart hidden

/-! ## Operations -/

/-- What lowering does to a frame. -/
inductive Op where
  | assign (name : String) (shape : Shape)
  /-- Asks for room for a composite. -/
  | span (name : String) (count : Nat)
  /-- Asks for room for a composite and binds a variable to it. -/
  | place (name : String) (count : Nat) (shape : Slot → Shape)
  | hidden
  | scratch (count : Nat)

/-- The shape has values in those slots that are asked for. -/
def Op.Fits : Op → Prop
  | assign _ shape => shape.scalar?.isSome
  | place _ count shape => ∀ base, (shape base).cells base = base.run count
  | span .. | hidden | scratch _ => True

/-- Room for a composite, with a variable bound to it. -/
def place (f : Frame) (name : String) (count : Nat) (shape : Slot → Shape) : Taking Slot :=
  match f.spanFor name count with
  | (.ok (base, span), f) => (.ok base, f.bind name ⟨base, span, shape base⟩)
  | (.error r, f) => (.error r, f)

/-- A frame, and what has been handed out of it. -/
structure History where
  frame : Frame
  hidden : List Slot
  /-- The scratch slots for each print loop, and how many were asked for. -/
  scratch : List (Nat × List Slot)

namespace History

def empty : History := ⟨.empty, [], []⟩

def perform (h : History) : Op → History
  | .assign name shape => { h with frame := (h.frame.assign name shape).2 }
  | .span name count => { h with frame := (h.frame.spanFor name count).2 }
  | .place name count shape => { h with frame := (h.frame.place name count shape).2 }
  | .hidden =>
    match h.frame.hidden with
    | (.ok slot, frame) => { h with frame, hidden := slot :: h.hidden }
    | (.error _, frame) => { h with frame }
  | .scratch count =>
    match h.frame.scratchSlots count with
    | (.ok slots, frame) => { h with frame, scratch := h.scratch ++ [(count, slots)] }
    | (.error _, frame) => { h with frame }

/-- One operation after the other, from an empty frame. -/
def after (ops : List Op) : History := ops.foldl perform empty

/-- No slot is given away twice, and all print loops have the same scratch slots. -/
structure Apart (h : History) : Prop where
  frame : h.frame.Apart h.hidden
  scratch : ∀ count slots, (count, slots) ∈ h.scratch →
    count ≤ h.frame.scratch.length ∧ slots = h.frame.scratch.take count
  -- later requests come later in the list
  prefixes : h.scratch.Pairwise fun earlier later =>
    earlier.1 ≤ later.1 → earlier.2 <+: later.2

end History

/-! ## Single operations -/

section

variable {f f' : Frame} {hidden : List Slot}

theorem apart_empty : Frame.empty.Apart [] where
  used_le := Nat.zero_le _
  symbol_le := nofun
  symbols := nofun
  cells := nofun
  handed_lt := nofun
  handed_free := nofun
  handed_nodup := .nil

theorem reserve_cases (f : Frame) (count : Nat) :
    (∃ slot, slot.index.toNat = f.used ∧ f.used + count ≤ Resource.frameSlots.limit ∧
      f.reserve count = (.ok slot, { f with used := f.used + count })) ∨
    f.reserve count = (.error .frameSlots, f) := by
  unfold reserve
  split
  · exact .inr rfl
  · rename_i hle
    refine .inl ⟨_, ?_, Nat.not_lt.mp hle, rfl⟩
    have hlimit : Resource.frameSlots.limit = 256 := rfl
    rw [BitVec.toNat_ofNat, Nat.mod_eq_of_lt (by omega)]

theorem Apart.reserved (h : f.Apart hidden) {count : Nat}
    (hle : f.used + count ≤ Resource.frameSlots.limit) :
    Apart { f with used := f.used + count } hidden where
  used_le := hle
  symbol_le := fun name symbol hs => Nat.le_add_right_of_le (h.symbol_le name symbol hs)
  symbols := h.symbols
  cells := h.cells
  handed_lt := fun slot hslot => Nat.lt_add_right _ (h.handed_lt slot hslot)
  handed_free := h.handed_free
  handed_nodup := h.handed_nodup

theorem Apart.bind (h : f.Apart hidden) {name : String} {symbol : Symbol}
    (hle : symbol.slot.index.toNat + symbol.span ≤ f.used)
    (hcells : ∀ slot ∈ symbol.shape.cells symbol.slot, symbol.Owns slot)
    (hothers : ∀ other symbol', f.lookup other = some symbol' → name ≠ other →
      ∀ slot, symbol.Owns slot → ¬ symbol'.Owns slot)
    (hhanded : ∀ slot ∈ hidden ++ f.scratch, ¬ symbol.Owns slot) :
    (f.bind name symbol).Apart hidden := by
  have hlookup (other : String) (symbol' : Symbol)
      (hs : (f.bind name symbol).lookup other = some symbol') :
      name = other ∧ symbol' = symbol ∨ name ≠ other ∧ f.lookup other = some symbol' := by
    rw [lookup_bind] at hs
    split at hs
    · rename_i heq
      cases hs
      exact .inl ⟨heq, rfl⟩
    · rename_i hne
      exact .inr ⟨hne, hs⟩
  refine ⟨h.used_le, ?_, ?_, ?_, h.handed_lt, ?_, h.handed_nodup⟩
  · intro other symbol' hs
    obtain ⟨-, rfl⟩ | ⟨-, hs⟩ := hlookup other symbol' hs
    · exact hle
    · exact h.symbol_le other symbol' hs
  · intro name₁ name₂ symbol₁ symbol₂ hs₁ hs₂ hne slot howns₁ howns₂
    obtain ⟨rfl, rfl⟩ | ⟨hne₁, hold₁⟩ := hlookup name₁ symbol₁ hs₁
    · obtain ⟨rfl, -⟩ | ⟨hne₂, hold₂⟩ := hlookup name₂ symbol₂ hs₂
      · exact hne rfl
      · exact hothers name₂ symbol₂ hold₂ hne₂ slot howns₁ howns₂
    · obtain ⟨rfl, rfl⟩ | ⟨-, hold₂⟩ := hlookup name₂ symbol₂ hs₂
      · exact hothers name₁ symbol₁ hold₁ hne₁ slot howns₂ howns₁
      · exact h.symbols name₁ name₂ symbol₁ symbol₂ hold₁ hold₂ hne slot howns₁ howns₂
  · intro other symbol' hs
    obtain ⟨-, rfl⟩ | ⟨-, hs⟩ := hlookup other symbol' hs
    · exact hcells
    · exact h.cells other symbol' hs
  · intro slot hslot other symbol' hs
    obtain ⟨-, rfl⟩ | ⟨-, hs⟩ := hlookup other symbol' hs
    · exact hhanded slot hslot
    · exact h.handed_free slot hslot other symbol' hs

theorem Apart.rebind (h : f.Apart hidden) {name : String} {symbol : Symbol} {shape : Shape}
    (hs : f.lookup name = some symbol)
    (hcells : ∀ slot ∈ shape.cells symbol.slot, symbol.Owns slot) :
    (f.bind name { symbol with shape }).Apart hidden :=
  h.bind (h.symbol_le name symbol hs) hcells
    (fun other symbol' hs' hne => h.symbols name other symbol symbol' hs hs' hne)
    (fun slot hslot => h.handed_free slot hslot name symbol hs)

theorem Apart.bind_fresh (h : f.Apart hidden) {name : String} {count : Nat} {slot : Slot}
    {shape : Shape} (hslot : slot.index.toNat = f.used)
    (hle : f.used + count ≤ Resource.frameSlots.limit)
    (hcells : ∀ cell ∈ shape.cells slot, Symbol.Owns ⟨slot, count, shape⟩ cell) :
    (Frame.bind { f with used := f.used + count } name ⟨slot, count, shape⟩).Apart hidden := by
  refine (h.reserved hle).bind ?_ hcells ?_ ?_
  · show slot.index.toNat + count ≤ f.used + count
    omega
  · intro other symbol' hs _ cell hnew hold
    have hbelow := h.symbol_le other symbol' hs
    have hfrom : slot.index.toNat ≤ cell.index.toNat := hnew.1
    have hto := hold.2
    omega
  · intro cell hcell hnew
    have hbelow := h.handed_lt cell hcell
    have hfrom : slot.index.toNat ≤ cell.index.toNat := hnew.1
    omega

/-- The next slot, which is given to no variable. -/
structure Fresh (f : Frame) (hidden : List Slot) (slot : Slot) : Prop where
  index : slot.index.toNat = f.used
  not_mem : slot ∉ hidden ++ f.scratch
  free : ∀ name symbol, f.lookup name = some symbol → ¬ symbol.Owns slot

theorem Apart.fresh (h : f.Apart hidden) {slot : Slot} (hslot : slot.index.toNat = f.used) :
    f.Fresh hidden slot where
  index := hslot
  not_mem := fun hmem => by
    have hbelow := h.handed_lt slot hmem
    omega
  free := fun name symbol hs howns => by
    have hbelow := h.symbol_le name symbol hs
    have hto := howns.2
    omega

theorem Apart.hand (h : f.Apart hidden) {slot : Slot} (hslot : slot.index.toNat = f.used)
    (hle : f.used + 1 ≤ Resource.frameSlots.limit) :
    Apart { f with used := f.used + 1 } (slot :: hidden) := by
  have hfresh := h.fresh hslot
  have hreserved := h.reserved hle
  refine ⟨hle, hreserved.symbol_le, h.symbols, h.cells, ?_, ?_, ?_⟩
  · intro other hother
    rcases List.mem_cons.mp hother with rfl | hother
    · show other.index.toNat < f.used + 1
      omega
    · exact hreserved.handed_lt other hother
  · intro other hother
    rcases List.mem_cons.mp hother with rfl | hother
    · exact hfresh.free
    · exact h.handed_free other hother
  · exact List.nodup_cons.mpr ⟨hfresh.not_mem, h.handed_nodup⟩

theorem Apart.scribble (h : f.Apart hidden) {slot : Slot} (hslot : slot.index.toNat = f.used)
    (hle : f.used + 1 ≤ Resource.frameSlots.limit) :
    Apart { f with used := f.used + 1, scratch := f.scratch ++ [slot] } hidden := by
  have hfresh := h.fresh hslot
  have hreserved := h.reserved hle
  have hmem (other : Slot) (hother : other ∈ hidden ++ (f.scratch ++ [slot])) :
      other ∈ hidden ++ f.scratch ∨ other = slot := by
    simpa [or_assoc] using hother
  refine ⟨hle, hreserved.symbol_le, h.symbols, h.cells, ?_, ?_, ?_⟩
  · intro other hother
    obtain hother | rfl := hmem other hother
    · exact hreserved.handed_lt other hother
    · show other.index.toNat < f.used + 1
      omega
  · intro other hother
    obtain hother | rfl := hmem other hother
    · exact h.handed_free other hother
    · exact hfresh.free
  · show (hidden ++ (f.scratch ++ [slot])).Nodup
    rw [← List.append_assoc, List.nodup_append]
    refine ⟨h.handed_nodup, by simp, ?_⟩
    rintro other hother _ (_ | ⟨_, ⟨⟩⟩) rfl
    exact hfresh.not_mem hother

/-! ## Operations, one after the other -/

theorem mem_run {slot cell : Slot} {count : Nat} (hle : slot.index.toNat + count ≤ 256)
    (h : cell ∈ slot.run count) :
    slot.index.toNat ≤ cell.index.toNat ∧ cell.index.toNat < slot.index.toNat + count := by
  obtain ⟨k, hk, rfl⟩ := List.mem_map.mp h
  have hlt : k < count := List.mem_range.mp hk
  have hindex : (slot.nth k).index.toNat = slot.index.toNat + k := by
    rw [Slot.nth, BitVec.toNat_add, BitVec.toNat_ofNat, Nat.mod_eq_of_lt (by omega : k < 2 ^ 16),
      Nat.mod_eq_of_lt (by omega)]
  omega

theorem assign_cases (f : Frame) (name : String) (shape : Shape) :
    (∃ symbol, f.lookup name = some symbol ∧ 0 < symbol.span ∧
      f.assign name shape = (.ok symbol.slot, f.bind name { symbol with shape })) ∨
    (∃ slot, slot.index.toNat = f.used ∧ f.used + 1 ≤ Resource.frameSlots.limit ∧
      f.assign name shape =
        (.ok slot, Frame.bind { f with used := f.used + 1 } name ⟨slot, 1, shape⟩)) ∨
    f.assign name shape = (.error .frameSlots, f) := by
  unfold assign
  obtain ⟨slot, hslot, hle, hreserve⟩ | hreserve := f.reserve_cases 1
  · cases hlookup : f.lookup name with
    | none => exact .inr (.inl ⟨slot, hslot, hle, by simp only [hreserve]⟩)
    | some symbol =>
      by_cases hspan : 0 < symbol.span
      · exact .inl ⟨symbol, rfl, hspan, by simp only [hspan, if_true]⟩
      · exact .inr (.inl ⟨slot, hslot, hle, by simp only [hreserve, hspan, if_false]⟩)
  · cases hlookup : f.lookup name with
    | none => exact .inr (.inr (by simp only [hreserve]))
    | some symbol =>
      by_cases hspan : 0 < symbol.span
      · exact .inl ⟨symbol, rfl, hspan, by simp only [hspan, if_true]⟩
      · exact .inr (.inr (by simp only [hreserve, hspan, if_false]))

theorem spanFor_cases (f : Frame) (name : String) (count : Nat) :
    (∃ symbol, f.lookup name = some symbol ∧ count ≤ symbol.span ∧
      f.spanFor name count = (.ok (symbol.slot, symbol.span), f)) ∨
    (∃ slot, slot.index.toNat = f.used ∧ f.used + count ≤ Resource.frameSlots.limit ∧
      f.spanFor name count = (.ok (slot, count), { f with used := f.used + count })) ∨
    f.spanFor name count = (.error .frameSlots, f) := by
  unfold spanFor
  obtain ⟨slot, hslot, hle, hreserve⟩ | hreserve := f.reserve_cases count
  · cases hlookup : f.lookup name with
    | none => exact .inr (.inl ⟨slot, hslot, hle, by simp only [hreserve]⟩)
    | some symbol =>
      by_cases hspan : count ≤ symbol.span ∧ 0 < symbol.span
      · exact .inl ⟨symbol, rfl, hspan.1, by simp only [hspan, and_self, if_true]⟩
      · exact .inr (.inl ⟨slot, hslot, hle, by simp only [hreserve, hspan, if_false]⟩)
  · cases hlookup : f.lookup name with
    | none => exact .inr (.inr (by simp only [hreserve]))
    | some symbol =>
      by_cases hspan : count ≤ symbol.span ∧ 0 < symbol.span
      · exact .inl ⟨symbol, rfl, hspan.1, by simp only [hspan, and_self, if_true]⟩
      · exact .inr (.inr (by simp only [hreserve, hspan, if_false]))

theorem Apart.assign (h : f.Apart hidden) (name : String) {shape : Shape}
    (hshape : shape.scalar?.isSome) : (f.assign name shape).2.Apart hidden := by
  have howns (slot : Slot) (span : Nat) (old : Shape) (hspan : 0 < span) :
      ∀ cell ∈ shape.cells slot, Symbol.Owns ⟨slot, span, old⟩ cell := by
    intro cell hcell
    rw [Shape.cells_scalar hshape, List.mem_singleton] at hcell
    subst hcell
    exact ⟨Nat.le_refl _, Nat.lt_add_of_pos_right hspan⟩
  obtain ⟨symbol, hs, hspan, hassign⟩ | ⟨slot, hslot, hle, hassign⟩ | hassign :=
    f.assign_cases name shape
  · rw [hassign]
    exact h.rebind hs (howns symbol.slot symbol.span symbol.shape hspan)
  · rw [hassign]
    exact h.bind_fresh hslot hle (howns slot 1 shape Nat.one_pos)
  · rw [hassign]
    exact h

theorem Apart.spanFor (h : f.Apart hidden) (name : String) (count : Nat) :
    (f.spanFor name count).2.Apart hidden := by
  obtain ⟨symbol, -, -, hspan⟩ | ⟨slot, -, hle, hspan⟩ | hspan := f.spanFor_cases name count
  · rw [hspan]
    exact h
  · rw [hspan]
    exact h.reserved hle
  · rw [hspan]
    exact h

theorem Apart.place (h : f.Apart hidden) (name : String) {count : Nat} {shape : Slot → Shape}
    (hshape : ∀ base, (shape base).cells base = base.run count) :
    (f.place name count shape).2.Apart hidden := by
  have hlimit : Resource.frameSlots.limit = 256 := rfl
  have hused := h.used_le
  unfold Frame.place
  obtain ⟨symbol, hs, hcount, hspan⟩ | ⟨slot, hslot, hle, hspan⟩ | hspan :=
    f.spanFor_cases name count
  · rw [hspan]
    refine h.rebind hs ?_
    intro cell hcell
    have hbelow := h.symbol_le name symbol hs
    rw [hshape] at hcell
    obtain ⟨hfrom, hto⟩ := mem_run (by omega) hcell
    exact ⟨hfrom, by omega⟩
  · rw [hspan]
    refine h.bind_fresh hslot hle ?_
    intro cell hcell
    have hbelow : slot.index.toNat + count ≤ 256 := by omega
    rw [hshape] at hcell
    exact mem_run hbelow hcell
  · rw [hspan]
    exact h

theorem Apart.growScratch (missing : Nat) (h : f.Apart hidden) :
    (f.growScratch missing).2.Apart hidden ∧ f.scratch <+: (f.growScratch missing).2.scratch ∧
      ((f.growScratch missing).1 = .ok () →
        (f.growScratch missing).2.scratch.length = f.scratch.length + missing) := by
  induction missing generalizing f with
  | zero => exact ⟨h, List.prefix_rfl, fun _ => rfl⟩
  | succ missing ih =>
    rw [Frame.growScratch, Frame.hidden]
    obtain ⟨slot, hslot, hle, hreserve⟩ | hreserve := f.reserve_cases 1
    · rw [hreserve]
      obtain ⟨hafter, hprefix, hlength⟩ := ih (h.scribble hslot hle)
      refine ⟨hafter, (List.prefix_append _ _).trans hprefix, fun hok => ?_⟩
      rw [hlength hok, List.length_append, List.length_singleton]
      omega
    · rw [hreserve]
      exact ⟨h, List.prefix_rfl, nofun⟩

end

/-! ## Histories -/

namespace History

theorem apart_empty : empty.Apart := ⟨Frame.apart_empty, nofun, .nil⟩

theorem Apart.update {h : History} (hh : h.Apart) {frame : Frame} {hidden : List Slot}
    (hframe : frame.Apart hidden) (hscratch : h.frame.scratch <+: frame.scratch) :
    Apart ⟨frame, hidden, h.scratch⟩ where
  frame := hframe
  scratch := fun count slots hmem => by
    obtain ⟨hle, rfl⟩ := hh.scratch count slots hmem
    obtain ⟨more, hmore⟩ := hscratch
    rw [← hmore, List.take_append_of_le_length hle, List.length_append]
    exact ⟨Nat.le_add_right_of_le hle, rfl⟩
  prefixes := hh.prefixes

theorem scratch_assign (f : Frame) (name : String) (shape : Shape) :
    (f.assign name shape).2.scratch = f.scratch := by
  obtain ⟨symbol, -, -, hassign⟩ | ⟨slot, -, -, hassign⟩ | hassign := f.assign_cases name shape
  all_goals exact congrArg (·.2.scratch) hassign

theorem scratch_spanFor (f : Frame) (name : String) (count : Nat) :
    (f.spanFor name count).2.scratch = f.scratch := by
  obtain ⟨symbol, -, -, hspan⟩ | ⟨slot, -, -, hspan⟩ | hspan := f.spanFor_cases name count
  all_goals exact congrArg (·.2.scratch) hspan

theorem scratch_place (f : Frame) (name : String) (count : Nat) (shape : Slot → Shape) :
    (f.place name count shape).2.scratch = f.scratch := by
  have hscratch := scratch_spanFor f name count
  unfold Frame.place
  split
  · rename_i hspan
    rw [hspan] at hscratch
    exact hscratch
  · rename_i hspan
    rw [hspan] at hscratch
    exact hscratch

theorem Apart.scratchSlots {h : History} (hh : h.Apart) (count : Nat) :
    (h.perform (.scratch count)).Apart := by
  obtain ⟨hafter, hprefix, hlength⟩ := hh.frame.growScratch (count - h.frame.scratch.length)
  have hupdate := hh.update hafter hprefix
  rw [perform, Frame.scratchSlots]
  cases hgrow : h.frame.growScratch (count - h.frame.scratch.length) with
  | mk outcome frame =>
    rw [hgrow] at hafter hprefix hlength hupdate
    cases outcome with
    | error r => exact hupdate
    | ok u =>
      have hcount : count ≤ frame.scratch.length := by
        have hgrown : frame.scratch.length =
            h.frame.scratch.length + (count - h.frame.scratch.length) := hlength rfl
        omega
      refine ⟨hafter, ?_, ?_⟩
      · intro n slots hmem
        rcases List.mem_append.mp hmem with hmem | hmem
        · exact hupdate.scratch n slots hmem
        · obtain ⟨rfl, rfl⟩ : n = count ∧ slots = frame.scratch.take count := by
            simpa using hmem
          exact ⟨hcount, rfl⟩
      · refine List.pairwise_append.mpr ⟨hh.prefixes, by simp, ?_⟩
        rintro ⟨n, slots⟩ hmem later hlater hle
        obtain rfl := List.mem_singleton.mp hlater
        obtain ⟨-, rfl⟩ := hupdate.scratch n slots hmem
        exact List.take_prefix_take_left hle

theorem Apart.perform {h : History} (hh : h.Apart) (op : Op) (hop : op.Fits) :
    (h.perform op).Apart := by
  cases op with
  | assign name shape =>
    exact hh.update (hh.frame.assign name hop) (scratch_assign _ _ _ ▸ List.prefix_rfl)
  | span name count =>
    exact hh.update (hh.frame.spanFor name count) (scratch_spanFor _ _ _ ▸ List.prefix_rfl)
  | place name count shape =>
    exact hh.update (hh.frame.place name hop) (scratch_place _ _ _ _ ▸ List.prefix_rfl)
  | hidden =>
    rw [History.perform, Frame.hidden]
    obtain ⟨slot, hslot, hle, hreserve⟩ | hreserve := h.frame.reserve_cases 1
    · rw [hreserve]
      exact hh.update (hh.frame.hand hslot hle) List.prefix_rfl
    · rw [hreserve]
      exact hh
  | scratch count => exact hh.scratchSlots count

theorem Apart.performAll {h : History} (hh : h.Apart) (ops : List Op)
    (hops : ∀ op ∈ ops, op.Fits) : (ops.foldl History.perform h).Apart := by
  induction ops generalizing h with
  | nil => exact hh
  | cons op rest ih =>
    rw [List.forall_mem_cons] at hops
    exact ih (hh.perform op hops.1) hops.2

theorem apart_after (ops : List Op) (hops : ∀ op ∈ ops, op.Fits) : (after ops).Apart :=
  apart_empty.performAll ops hops

end History

end Frame

end Armature
