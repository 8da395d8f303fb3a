import Armature.Proofs.Defects

/-!
# Control flow of compiled code

The code of an image is a row of bodies. A branch stays in its body, and a call goes to the start
of the body of the function that it names.
-/

namespace Armature

open A64 (Instr decode)

/-- How far a branch goes that is no call. -/
def A64.Instr.jump? : Instr → Option (BitVec 32)
  | b offset | bCond _ offset | cbz _ offset => some offset
  | _ => none

namespace Asm

/-! ## Words of lines -/

namespace Line

/-- The line is not a branch that was written as an instruction. -/
def Sound (l : Line) : Prop := ∀ i, l = .instr i → i.displacement? = none

theorem sound_of_tame (l : Line) (h : l.tame = true) : l.Sound := by
  rintro i rfl
  simpa [tame] using h

theorem decode_plain (l : Line) (hl : l.Sound) (htarget : l.target? = none) (i instr : Instr)
    (hi : i ∈ l.body) (h : decode i.encode = some instr) : instr.displacement? = none := by
  apply A64.displacement?_decode i instr _ h
  cases l with
  | instr j =>
    rw [List.mem_singleton.mp hi]
    exact hl j rfl
  | mark | reserve | entry => cases hi
  | jump | jumpIf | jumpIfZero | call => cases htarget
  | address | double =>
    simp only [body, List.mem_cons, List.not_mem_nil, or_false] at hi
    rcases hi with rfl | rfl <;> rfl
  | callImport =>
    simp only [body, List.mem_cons, List.not_mem_nil, or_false] at hi
    rcases hi with rfl | rfl | rfl <;> rfl

theorem resolved_branch (l : Line) (place : Label → Nat) (q : Nat) (label : Label)
    (htarget : l.target? = some label) (hreach : l.Reaches place q) :
    ∃ i d, l.resolved place q = [i] ∧ decode i.encode = some i ∧ i.displacement? = some d ∧
      d.toInt = 4 * place label - 4 * q ∧ i.jump? = l.jumpTarget?.map fun _ => d := by
  obtain ⟨form, hform⟩ := l.form_of_target label htarget
  obtain ⟨i, hbody, hi⟩ := l.body_of_form form hform
  have hd := hreach label form htarget hform
  have hfits := A64.fits_retarget i form hi _ hd
  have htoInt : (BitVec.ofInt 32 (4 * place label - 4 * q : Int)).toInt =
      4 * place label - 4 * q := by
    obtain ⟨-, hl, hu⟩ := hd
    have hmax : form.reach < 0x7FFFFFFF := by cases form <;> decide
    exact BitVec.toInt_ofInt_eq_self (by decide) (by omega) (by omega)
  refine ⟨i.retarget (BitVec.ofInt 32 (4 * place label - 4 * q)),
    BitVec.ofInt 32 (4 * place label - 4 * q), ?_, ?_, ?_, htoInt, ?_⟩
  · rw [resolved, htarget, hbody]
    rfl
  · rw [A64.decode_encode _ hfits]
    cases i with
    | b | bl | bCond | cbz => rfl
    | _ => cases hi
  · cases i with
    | b | bl | bCond | cbz => rfl
    | _ => cases hi
  · cases l with
    | jump | jumpIf | jumpIfZero | call =>
      cases hbody
      rfl
    | _ => cases htarget

end Line

/-! ## Jumps -/

namespace Code

theorem decode_jump (place : Label → Nat) (k : Nat) (c : Code)
    (hsound : ∀ l ∈ c, l.Sound) (hreach : ∀ q l, (q, l) ∈ located k c → l.Reaches place q)
    (j : Nat) (i instr : Instr) (d : BitVec 32) (hi : (instrs place k c)[j]? = some i)
    (hdecode : decode i.encode = some instr) (hd : instr.displacement? = some d) :
    ∃ l label, (k + j, l) ∈ located k c ∧ l.target? = some label ∧
      d.toInt = 4 * place label - 4 * (k + j : Nat) ∧ instr.jump? = l.jumpTarget?.map fun _ => d := by
  obtain ⟨q, l, n, hmem, hn, hpos⟩ := getElem?_instrs place k c j i hi
  cases htarget : l.target? with
  | none =>
    have hbody : i ∈ l.body := by
      rw [Line.resolved, htarget] at hn
      exact List.mem_of_getElem? hn
    have hnone := l.decode_plain (hsound l (mem_of_mem_located k c q l hmem)) htarget i instr hbody
      hdecode
    rw [hnone] at hd
    cases hd
  | some label =>
    obtain ⟨i', d', hresolved, hdecode', hd', hfar, hjump⟩ :=
      l.resolved_branch place q label htarget (hreach q l hmem)
    rw [hresolved, List.getElem?_singleton] at hn
    split at hn
    · cases hn
      rw [hdecode'] at hdecode
      cases hdecode
      rw [hd'] at hd
      cases hd
      have hq : k + j = q := by omega
      subst hq
      exact ⟨l, label, hmem, htarget, hfar, hjump⟩
    · cases hn

end Code

end Asm

/-! ## Calls -/

/-- The addresses that the calls among the words go to, when the first word is at `address`. -/
def callTargets (address : Nat) : List Word → List Int
  | [] => []
  | w :: rest =>
    (match decode w with
      | some (.bl offset) => [address + offset.toInt]
      | _ => []) ++ callTargets (address + 4) rest

theorem callTargets_append (address : Nat) (xs ys : List Word) :
    callTargets address (xs ++ ys) =
      callTargets address xs ++ callTargets (address + 4 * xs.length) ys := by
  induction xs generalizing address with
  | nil => rfl
  | cons w rest ih =>
    rw [List.cons_append, callTargets, callTargets, ih, List.append_assoc, List.length_cons]
    congr 3
    omega

theorem callTargets_of_none (address : Nat) (ws : List Word)
    (h : ∀ w ∈ ws, ∀ instr, decode w = some instr → instr.displacement? = none) :
    callTargets address ws = [] := by
  induction ws generalizing address with
  | nil => rfl
  | cons w rest ih =>
    rw [callTargets, ih _ fun w hw => h w (List.mem_cons_of_mem _ hw), List.append_nil]
    split
    · rename_i offset hw
      cases h w List.mem_cons_self _ hw
    · rfl

namespace Asm

theorem Line.callTargets_resolved (l : Line) (place : Label → Nat) (q : Nat) (hl : l.Sound)
    (hreach : l.Reaches place q) :
    callTargets (4 * q) ((l.resolved place q).map Instr.encode) =
      l.callTarget?.toList.map fun label => (4 * place label : Int) := by
  cases htarget : l.target? with
  | none =>
    have hcall : l.callTarget? = none := by
      cases l with
      | call => cases htarget
      | _ => rfl
    rw [hcall]
    apply callTargets_of_none
    intro w hw instr hinstr
    obtain ⟨i, hi, rfl⟩ := List.mem_map.mp hw
    rw [resolved, htarget] at hi
    exact l.decode_plain hl htarget i instr hi hinstr
  | some label =>
    obtain ⟨i, d, hresolved, hdecode, hd, hfar, hjump⟩ :=
      l.resolved_branch place q label htarget hreach
    rw [hresolved, List.map_singleton, callTargets, hdecode, callTargets, List.append_nil]
    cases hl' : l.callTarget? with
    | none =>
      have : l.jumpTarget? = some label := by simpa [target?, hl'] using htarget
      rw [this] at hjump
      cases i with
      | bl => cases hjump
      | _ => rfl
    | some label' =>
      have hnone : l.jumpTarget? = none := by
        cases l with
        | call => rfl
        | _ => cases hl'
      have heq : label' = label := by simpa [target?, hl', hnone] using htarget
      rw [hnone] at hjump
      cases i with
      | bl offset =>
        cases hd
        simp only [hfar, heq, Option.toList_some, List.map_singleton]
        congr 1
        omega
      | b | bCond | cbz => cases hjump
      | _ => cases hd

theorem Code.callTargets_instrs (place : Label → Nat) (k : Nat) (c : Code)
    (hsound : ∀ l ∈ c, l.Sound) (hreach : ∀ q l, (q, l) ∈ located k c → l.Reaches place q) :
    callTargets (4 * k) ((instrs place k c).map Instr.encode) =
      (calls c).map fun label => (4 * place label : Int) := by
  induction c generalizing k with
  | nil => rfl
  | cons l rest ih =>
    have hl := l.callTargets_resolved place k (hsound l List.mem_cons_self) (hreach k l (by simp))
    have hrest := ih (k + l.size) (fun l hl => hsound l (List.mem_cons_of_mem _ hl))
      fun q l hmem => hreach q l (by simp [hmem])
    rw [instrs_cons, List.map_append, callTargets_append, hl, List.length_map,
      Line.length_resolved, ← Nat.mul_add, hrest, ← List.map_append]
    congr 1
    cases h : l.callTarget? <;> simp [calls, h]

end Asm

/-! ## Bodies -/

open Asm Lower

/-- Where body number `i` starts, in bytes. -/
def bodyStart (bodies : List (List Word)) (i : Nat) : Nat := 4 * (bodies.take i).flatten.length

/-- The statements that body number `i` is made from: those of the last definition of a function,
or, behind all functions, those outside. -/
def Program.bodyStatements (p : Program) (i : Nat) : List Stmt :=
  match p.functionNames[i]? with
  | some name => ((p.function? name).map (·.body)).getD []
  | none => p.mainStatements

/-- The lines that body number `i` is lowered to. -/
def Program.LowersTo (p : Program) (i : Nat) (code : Code) : Prop :=
  match p.functionNames[i]? with
  | some name => ∃ f s s', p.function? name = some f ∧ function name f s = .ok (code, s')
  | none => ∃ s s', mainBody p.statements s = .ok (code, s')

/-- Body number `i` of a program is whole, and its branches go where they should. -/
structure BodyIntact (p : Program) (place : Label → Nat) (bodies : List (List Word)) (i : Nat)
    (body : List Word) : Prop where
  /-- It is made from the lines of its function. -/
  source : ∃ code, p.LowersTo i code ∧
    body = (Code.instrs place (bodies.take i).flatten.length code).map Instr.encode
  prologue : Code.words prologue <+: body
  epilogue : Code.words epilogue <:+ body
  ret : body.getLast? = some Instr.ret.encode
  /-- A branch goes to a word of the same body. -/
  jumps : ∀ (j : Nat) w instr d, body[j]? = some w → decode w = some instr →
    instr.jump? = some d → ∃ t < body.length, 4 * (t : Int) = 4 * j + d.toInt
  /-- The calls go to the functions that are named in the statements, in this order. -/
  calls : callTargets (bodyStart bodies i) body =
    (Stmt.allCalls (p.bodyStatements i)).map fun name =>
      (bodyStart bodies (p.functionNames.idxOf name) : Int)
  called : ∀ name ∈ Stmt.allCalls (p.bodyStatements i), name ∈ p.functionNames
  /-- No displacement is left open. -/
  patched : ∀ (j : Nat) w instr d, body[j]? = some w → decode w = some instr →
    instr.displacement? = some d → d ≠ 0

theorem map_eq_map_of_some {α β γ : Type} (xs : List α) (ys : List β) (f : β → Option α)
    (g : α → γ) (h : β → γ) (hmap : xs.map some = ys.map f)
    (hf : ∀ y ∈ ys, ∀ x, f y = some x → g x = h y) : xs.map g = ys.map h := by
  induction ys generalizing xs with
  | nil =>
    rw [List.map_nil, List.map_eq_nil_iff] at hmap
    rw [hmap]
    rfl
  | cons y rest ih =>
    cases xs with
    | nil => cases hmap
    | cons x xs =>
      rw [List.map_cons, List.map_cons, List.cons.injEq] at hmap
      rw [List.map_cons, List.map_cons, hf y List.mem_cons_self x hmap.1.symm,
        ih xs hmap.2 fun y hy => hf y (List.mem_cons_of_mem _ hy)]

namespace Lower.Bodies

variable {p : Program} {d : Declared} {codes : List Code} {l : Listing}

theorem name_at (h : Bodies p d codes l) (i : Nat) :
    p.functionNames[i]? = d.functions[i]?.map (·.1) := by
  rw [← h.declared.names, List.getElem?_map]

theorem function_at (h : Bodies p d codes l) (i : Nat) (name : String) (entry : Label)
    (f : Function) (hi : d.functions[i]? = some (name, entry, f)) : p.function? name = some f := by
  have hnodup : (d.functions.map (·.1)).Nodup := by
    rw [h.declared.names]
    exact p.functionNames_nodup
  have hget := Bindings.get?_of_nodup hnodup (List.mem_of_getElem? hi)
  rw [← h.declared.get? name, hget]
  rfl

theorem body_at (h : Bodies p d codes l) (i : Nat) (code : Code) (hi : codes[i]? = some code) :
    ∃ head, head.body = [] ∧
      BodyCode d.session.entryOf head (Stmt.allCalls (p.bodyStatements i)) code ∧
      p.LowersTo i code := by
  unfold Program.bodyStatements Program.LowersTo
  obtain ⟨sessions, hsessions⟩ := h.lowered
  rw [h.name_at i]
  cases hf : d.functions[i]? with
  | some fn =>
    obtain ⟨name, entry, f⟩ := fn
    have hlower := hsessions.function i name entry f code hf hi
    have hfn := h.function_at i name entry f hf
    simp only [Option.map_some, hfn]
    exact ⟨_, rfl, h.function i name entry f code hf hi, f, _, _, rfl, hlower⟩
  | none =>
    have hlt := (List.getElem?_eq_some_iff.mp hi).1
    have hge := List.getElem?_eq_none_iff.mp hf
    rw [h.length] at hlt
    have heq : i = d.functions.length := by omega
    rw [heq] at hi
    obtain ⟨s', hlower⟩ := hsessions.main code hi
    exact ⟨_, rfl, h.main code hi, _, s', hlower⟩

theorem located_of_body (h : Bodies p d codes l) (i : Nat) (code : Code)
    (hi : codes[i]? = some code) (q : Nat) (line : Line)
    (hmem : (q, line) ∈ Code.located (Code.start codes i) code) :
    (q, line) ∈ Code.located 0 l.code := by
  rw [h.code, Code.located_append, List.mem_append, h.size_declared, Code.mem_located_flatten]
  exact .inr ⟨i, code, hi, by simpa using hmem⟩

theorem place_entry (h : Bodies p d codes l) {place : Label → Nat} (hplaced : l.code.Placed place)
    (name : String) (label : Label) (hname : d.session.entryOf name = some label) :
    name ∈ p.functionNames ∧ place label = Code.start codes (p.functionNames.idxOf name) := by
  obtain ⟨i, f, code, hf, hi, hhead⟩ := h.exists_callee name label hname
  have hat : p.functionNames[i]? = some name := by
    rw [h.name_at i, hf]
    rfl
  obtain ⟨hlt, hget⟩ := List.getElem?_eq_some_iff.mp hat
  have hidx : p.functionNames.idxOf name = i := by
    rw [← hget]
    exact p.functionNames_nodup.idxOf_getElem i hlt
  refine ⟨List.mem_of_getElem? hat, ?_⟩
  rw [hidx]
  apply hplaced
  apply h.located_of_body i code hi
  obtain ⟨first, rest⟩ := code
  · cases hhead
  · cases hhead
    exact List.mem_cons_self

end Lower.Bodies

theorem Asm.Code.words_of_plain (place : Label → Nat) (k : Nat) (c : Code)
    (h : c.all Line.plain = true) : (c.instrs place k).map Instr.encode = c.words := by
  induction c generalizing k with
  | nil => rfl
  | cons l rest ih =>
    rw [List.all_cons, Bool.and_eq_true] at h
    have htarget : l.target? = none := by
      cases l with
      | jump | jumpIf | jumpIfZero | call => cases h.1
      | _ => rfl
    rw [Code.instrs_cons, List.map_append, ih _ h.2, Line.resolved, htarget]
    simp [Code.words]

theorem A64.Instr.displacement?_of_jump (i : Instr) (d : BitVec 32) (h : i.jump? = some d) :
    i.displacement? = some d := by
  cases i with
  | b | bCond | cbz => exact h
  | _ => cases h

namespace Lower.BodyCode

variable {entryOf : String → Option Label} {head : Line} {names : List String} {c : Code}

theorem sound (h : BodyCode entryOf head names c) (hhead : head.body = []) (line : Line)
    (hline : line ∈ c) : line.Sound := by
  obtain ⟨mid, hshape⟩ := h.shape
  have htame := h.tame
  rw [hshape] at htame hline
  rcases List.mem_cons.mp hline with rfl | hline
  · rintro instr rfl
    cases hhead
  · exact line.sound_of_tame (List.all_eq_true.mp htame line hline)

theorem lt_of_call (h : BodyCode entryOf head names c) (hhead : head.body = []) (k q : Nat)
    (line : Line) (label : Label) (hmem : (q, line) ∈ Code.located k c)
    (hcall : line.callTarget? = some label) : k < q := by
  obtain ⟨mid, hshape⟩ := h.shape
  have hzero : head.size = 0 := by
    rw [Line.size, hhead]
    rfl
  have hcons : head :: (prologue ++ mid ++ epilogue) =
      head :: .instr (savePair (.x29, .x30)) :: (prologue.tail ++ mid ++ epilogue) := rfl
  rw [hshape, hcons, Code.located_cons, Code.located_cons, List.mem_cons, List.mem_cons,
    Prod.mk.injEq, Prod.mk.injEq, hzero] at hmem
  rcases hmem with ⟨-, rfl⟩ | ⟨-, rfl⟩ | hmem
  · cases line with
    | call => cases hhead
    | _ => cases hcall
  · cases hcall
  · have := (Code.mem_located _ _ _ line hmem).1
    simp only [Line.size, Line.body, List.length_singleton] at this
    omega

theorem words_eq (h : BodyCode entryOf head names c) (hhead : head.body = []) (place : Label → Nat)
    (k : Nat) :
    ∃ ws, (c.instrs place k).map Instr.encode =
      Code.words prologue ++ ws ++ Code.words epilogue := by
  obtain ⟨mid, hshape⟩ := h.shape
  have hresolved : head.resolved place k = [] := by
    apply List.eq_nil_of_length_eq_zero
    rw [Line.length_resolved, Line.size, hhead]
    rfl
  refine ⟨(Code.instrs place (k + head.size + Code.size prologue) mid).map Instr.encode, ?_⟩
  rw [hshape, Code.instrs_cons, hresolved, List.nil_append, Code.instrs_append,
    Code.instrs_append, List.map_append, List.map_append,
    Code.words_of_plain place _ prologue plain_prologue,
    Code.words_of_plain place _ epilogue plain_epilogue]

end Lower.BodyCode

theorem Asm.Code.start_ne (codes : List Code) (i j : Nat) (c : Code) (hi : codes[i]? = some c)
    (q : Nat) (hlo : start codes i < q) (hhi : q < start codes i + size c) :
    start codes j ≠ q := by
  have hlen := (List.getElem?_eq_some_iff.mp hi).1
  rcases Nat.lt_trichotomy j i with hlt | rfl | hlt
  · have := start_lt_start codes j i _ (List.getElem?_eq_getElem (Nat.lt_trans hlt hlen)) hlt
    omega
  · omega
  · have := start_lt_start codes i j c hi hlt
    omega

namespace Lower.Bodies

variable {p : Program} {d : Declared} {codes : List Code} {l : Listing} {place : Label → Nat}

section

variable (h : Bodies p d codes l) (hplaced : l.code.Placed place) (i : Nat) (code : Code)
  (hi : codes[i]? = some code)

include h hplaced hi

theorem place_of_jump (q : Nat) (line : Line) (label : Label)
    (hmem : (q, line) ∈ Code.located (Code.start codes i) code)
    (hjump : line.jumpTarget? = some label) :
    place label ≠ q ∧ Code.start codes i ≤ place label ∧
      place label < Code.start codes i + Code.size code := by
  obtain ⟨head, -, hbody, -⟩ := h.body_at i code hi
  rcases hbody.closed _ q line label hmem hjump with ⟨r, hr, hne⟩ | hout
  · rw [hplaced r label (h.located_of_body i code hi r _ hr)]
    exact ⟨hne, (Code.mem_located _ code r _ hr).1, hbody.mark_lt _ r label hr⟩
  · cases hout

theorem place_of_call (q : Nat) (line : Line) (label : Label)
    (hmem : (q, line) ∈ Code.located (Code.start codes i) code)
    (hcall : line.callTarget? = some label) : place label ≠ q := by
  obtain ⟨head, hhead, hbody, -⟩ := h.body_at i code hi
  have hname : some label ∈ (Code.calls code).map some := by
    rw [List.mem_map]
    exact ⟨label, List.mem_filterMap.mpr
      ⟨line, Code.mem_of_mem_located _ code _ line hmem, hcall⟩, rfl⟩
  rw [hbody.calls, List.mem_map] at hname
  obtain ⟨name, -, hname⟩ := hname
  rw [(h.place_entry hplaced name label hname).2]
  have hlo := hbody.lt_of_call hhead _ q line label hmem hcall
  have hhi := (Code.mem_located _ code q line hmem).2
  have hsize : line.size = 1 := by
    cases line with
    | call => rfl
    | _ => cases hcall
  exact Code.start_ne codes i _ code hi q hlo (by omega)

theorem branch_target
    (hreach : ∀ q line, (q, line) ∈ Code.located 0 l.code → line.Reaches place q) (j : Nat)
    (i' instr : Instr) (o : BitVec 32)
    (hat : (code.instrs place (Code.start codes i))[j]? = some i')
    (hdecode : decode i'.encode = some instr) (ho : instr.displacement? = some o) :
    o.toInt ≠ 0 ∧ (instr.jump? = some o →
      ∃ t < Code.size code, 4 * (t : Int) = 4 * j + o.toInt) := by
  obtain ⟨head, hhead, hbody, -⟩ := h.body_at i code hi
  obtain ⟨line, label, hmem, htarget, hfar, hjump⟩ := Code.decode_jump place _ code
    (hbody.sound hhead) (fun q line hq => hreach q line (h.located_of_body i code hi q line hq))
    j i' instr o hat hdecode ho
  cases hcase : line.jumpTarget? with
  | some label' =>
    have heq : label' = label := by simpa [Line.target?, hcase] using htarget
    subst heq
    obtain ⟨hne, hlo, hhi⟩ := h.place_of_jump hplaced i code hi _ line label' hmem hcase
    exact ⟨by omega, fun _ => ⟨place label' - Code.start codes i, by omega, by omega⟩⟩
  | none =>
    have hcall : line.callTarget? = some label := by simpa [Line.target?, hcase] using htarget
    have hne := h.place_of_call hplaced i code hi _ line label hmem hcall
    rw [hcase] at hjump
    refine ⟨by omega, ?_⟩
    intro hsome
    rw [hjump] at hsome
    cases hsome

theorem callTargets_body
    (hreach : ∀ q line, (q, line) ∈ Code.located 0 l.code → line.Reaches place q) :
    callTargets (4 * Code.start codes i)
        ((code.instrs place (Code.start codes i)).map Instr.encode) =
      ((Stmt.allCalls (p.bodyStatements i)).map fun name =>
        (4 * Code.start codes (p.functionNames.idxOf name) : Int)) := by
  obtain ⟨head, hhead, hbody, -⟩ := h.body_at i code hi
  rw [Code.callTargets_instrs place _ code (hbody.sound hhead)
    fun q line hq => hreach q line (h.located_of_body i code hi q line hq)]
  apply map_eq_map_of_some _ _ _ _ _ hbody.calls
  intro name _ label hname
  rw [(h.place_entry hplaced name label hname).2]

end

theorem not_entry_of_tame (line : Line) (h : line.tame = true) : line.isEntry = false := by
  cases line with
  | entry => cases h
  | _ => rfl

theorem entries_of_none (k : Nat) (c : Code) (h : ∀ line ∈ c, line.isEntry = false) :
    Code.entries k c = [] := by
  rw [Code.entries, List.filterMap_eq_nil_iff]
  rintro ⟨q, line⟩ hmem
  simp [h line (Code.mem_of_mem_located k c q line hmem)]

theorem entries_eq (h : Bodies p d codes l) :
    Code.entries 0 l.code = [4 * Code.start codes d.functions.length] := by
  have hlt : d.functions.length < codes.length := by
    rw [h.length]
    omega
  have hmain := List.getElem?_eq_getElem hlt
  generalize codes[d.functions.length] = main at hmain
  have hsplit : codes = codes.take d.functions.length ++ [main] := by
    have := List.take_add_one (l := codes) (i := d.functions.length)
    rwa [← h.length, List.take_length, hmain] at this
  have hdeclared : Code.entries 0 d.code = [] := by
    apply entries_of_none
    intro line hline
    obtain ⟨bytes, rfl⟩ := h.declared.code line hline
    rfl
  have hfunctions (k : Nat) : Code.entries k (codes.take d.functions.length).flatten = [] := by
    apply entries_of_none
    intro line hline
    obtain ⟨code, hcode, hline⟩ := List.mem_flatten.mp hline
    obtain ⟨i, hi⟩ := List.getElem?_of_mem hcode
    have hilt := (List.getElem?_eq_some_iff.mp hi).1
    rw [List.length_take] at hilt
    rw [List.getElem?_take_of_lt (by omega)] at hi
    have hbody := h.function i _ _ _ code (List.getElem?_eq_getElem (by omega)) hi
    obtain ⟨mid, hshape⟩ := hbody.shape
    have htame := hbody.tame
    rw [hshape] at htame hline
    rcases List.mem_cons.mp hline with rfl | hline
    · rfl
    · exact not_entry_of_tame line (List.all_eq_true.mp htame line hline)
  have hbody := h.main main hmain
  obtain ⟨mid, hshape⟩ := hbody.shape
  have htame := hbody.tame
  rw [hshape] at htame
  have hentry (k : Nat) : Code.entries k main = [4 * k] := by
    have hrest := entries_of_none (k + Line.size .entry) (prologue ++ mid ++ epilogue)
      fun line hline => not_entry_of_tame line (List.all_eq_true.mp htame line hline)
    rw [Code.entries] at hrest
    rw [hshape, Code.entries, Code.located_cons]
    show 4 * k :: List.filterMap _ _ = _
    rw [hrest]
  have hflatten : codes.flatten = (codes.take d.functions.length).flatten ++ main := by
    conv => lhs; rw [hsplit]
    simp
  rw [h.code, Code.entries_append, hdeclared, hflatten, Code.entries_append, hfunctions, hentry,
    h.size_declared]
  simp [Code.start]

end Lower.Bodies

/-- The code of an image consists of whole bodies, one for each function in the order of their
first definitions, and then the one where execution starts. Branches stay in their bodies, and
calls go to the starts of the bodies that they name. -/
theorem image_bodies (p : Program) (image : Image) (h : p.image = .ok image) :
    ∃ place bodies, image.code = .ofWords bodies.flatten ∧
      bodies.length = p.functionNames.length + 1 ∧
      image.entry = bodyStart bodies p.functionNames.length ∧
      ∀ i body, bodies[i]? = some body → BodyIntact p place bodies i body := by
  obtain ⟨l, d, codes, place, -, hbodies, hbuilt⟩ := image_built p image h
  have hnames : p.functionNames.length = d.functions.length := by
    rw [← hbodies.declared.names, List.length_map]
  have htake (i : Nat) : (((Code.rows place 0 codes).map (·.map Instr.encode)).take i).flatten.length
      = Code.start codes i := by
    rw [← List.map_take, ← List.map_flatten, List.length_map, Code.length_flatten_take_rows]
  refine ⟨place, (Code.rows place 0 codes).map (·.map Instr.encode), ?_, ?_, ?_, ?_⟩
  · rw [← List.map_flatten, Code.flatten_rows, hbuilt.code, hbodies.code, Code.instrs_append,
      hbodies.size_declared, hbodies.instrs_declared, List.nil_append]
  · rw [List.length_map, Code.length_rows, hbodies.length, hnames]
  · have := hbuilt.entry
    rw [hbodies.entries_eq] at this
    rw [bodyStart, htake, hnames]
    exact (Option.some.inj this).symm
  · intro i body hbody
    rw [List.getElem?_map, Code.getElem?_rows, Nat.zero_add, Option.map_map,
      Option.map_eq_some_iff] at hbody
    obtain ⟨code, hi, rfl⟩ := hbody
    obtain ⟨head, hhead, hcode, hlowers⟩ := hbodies.body_at i code hi
    have hat (j : Nat) (w : Word)
        (hj : ((code.instrs place (Code.start codes i)).map Instr.encode)[j]? = some w) :
        ∃ i', (code.instrs place (Code.start codes i))[j]? = some i' ∧ i'.encode = w := by
      rwa [List.getElem?_map, Option.map_eq_some_iff] at hj
    have htarget := hbodies.branch_target hbuilt.placed i code hi hbuilt.reaches
    obtain ⟨ws, hws⟩ := hcode.words_eq hhead place (Code.start codes i)
    refine ⟨⟨code, hlowers, by rw [htake]; rfl⟩, ?_, ?_, ?_, ?_, ?_, ?_, ?_⟩
    · exact ⟨ws ++ Code.words epilogue, by rw [← List.append_assoc]; exact hws.symm⟩
    · exact ⟨Code.words prologue ++ ws, hws.symm⟩
    · show List.getLast? (List.map _ _) = _
      rw [hws, List.getLast?_append]
      rfl
    · intro j w instr o hj hdecode ho
      obtain ⟨i', hi', rfl⟩ := hat j w hj
      have := (htarget j i' instr o hi' hdecode (instr.displacement?_of_jump o ho)).2 ho
      simpa using this
    · have := hbodies.callTargets_body hbuilt.placed i code hi hbuilt.reaches
      simpa [bodyStart, htake] using this
    · intro name hname
      have hentry : d.session.entryOf name ∈ (Code.calls code).map some := by
        rw [hcode.calls]
        exact List.mem_map_of_mem hname
      obtain ⟨label, -, hlabel⟩ := List.mem_map.mp hentry
      exact (hbodies.place_entry hbuilt.placed name label hlabel.symm).1
    · intro j w instr o hj hdecode ho
      obtain ⟨i', hi', rfl⟩ := hat j w hj
      have := (htarget j i' instr o hi' hdecode ho).1
      rintro rfl
      exact this rfl

/-- A function that is defined twice and calls itself, and a loop that calls it. -/
def countdown : Program where
  statements :=
    [.func "down" ["n"] [.ret (.int 0)],
      .func "down" ["n"]
        [.cond (.binary .gt (.var "n") (.int 0))
          [.print (.var "n"), .ret (.call "down" [.binary .sub (.var "n") (.int 1)])] none],
      .loop "i" (.counted (.int 0) (.int 3)) [.expr (.call "down" [.var "i"])]]

theorem countdown_bodies :
    ∃ image place bodies, countdown.image = .ok image ∧ image.code = .ofWords bodies.flatten ∧
      bodies.length = 2 ∧ image.entry = bodyStart bodies 1 ∧
      ∀ i body, bodies[i]? = some body → BodyIntact countdown place bodies i body := by
  obtain ⟨l, hlower, hsize⟩ : ∃ l, countdown.lower = .ok l ∧ 4 * Code.size l.code ≤ 2 ^ 20 :=
    exists_ok (by decide +kernel)
  obtain ⟨image, himage⟩ := exists_image countdown l hlower hsize
  obtain ⟨place, bodies, hcode, hlength, hentry, hbodies⟩ := image_bodies countdown image himage
  exact ⟨image, place, bodies, himage, hcode, hlength, hentry, hbodies⟩

end Armature
