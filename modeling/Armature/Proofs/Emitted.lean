import Armature.Proofs.Regions

/-!
# What lowering emits

Loops, conditions, print statements and declarations keep the discipline of labels, and so does
every statement that consists of them.
-/

namespace Armature.Lower

open Asm (Code Label Line)

/-! ## Branches over code -/

section

variable {s s' : Scope} {m n : List String} {label : Label}

theorem marks_of_jump (l : Line) (hl : l.jumpTarget? = some label) : Code.marks [l] = [] := by
  cases l with
  | mark => cases hl
  | _ => rfl

theorem calls_of_jump (l : Line) (hl : l.jumpTarget? = some label) : Code.calls [l] = [] := by
  cases l with
  | call => cases hl
  | _ => rfl

theorem tame_of_jump (l : Line) (hl : l.jumpTarget? = some label) : l.tame = true := by
  cases l with
  | instr | entry => cases hl
  | _ => rfl

@[simp] theorem tame_mark (label : Label) : Line.tame (.mark label) = true := rfl

@[simp] theorem tame_jump (label : Label) : Line.tame (.jump label) = true := rfl

theorem closed_mark (outside : List Label) (label : Label) : Code.Closed outside [.mark label] := by
  intro k q l label' hmem hl
  simp only [Code.located_cons, Code.located_nil, List.mem_singleton, Prod.mk.injEq] at hmem
  rw [hmem.2] at hl
  cases hl

theorem emits_skip (purpose : Asm.Purpose) (c d : Code) (l : Line)
    (hlabel : label = ⟨s.labels.entries.size⟩) (hl : l.jumpTarget? = some label)
    (hc : Straight s m c) (hd : Emits { s with labels := (s.labels.create purpose).2 } n d s') :
    Emits s (m ++ n) (c ++ [l] ++ d ++ [.mark label]) s' where
  functions := hd.functions
  ending := hd.ending
  grown := (s.labels.grown_create purpose).trans hd.grown
  once := by
    intro id
    have hle := hd.grown.le
    have honce := hd.once id
    have hadd := Code.between_add s.labels.entries.size (s.labels.entries.size + 1)
      s'.labels.entries.size id (by omega) (by simpa using hle)
    rw [Asm.LabelTable.size_create] at honce
    rw [Code.marks_append, Code.marks_append, Code.marks_append, Code.marks_of_linear c hc.linear,
      marks_of_jump l hl, List.nil_append, List.nil_append, List.count_append, honce, hlabel,
      Code.count_mark]
    omega
  closed := by
    have hcode : Code.Closed (label :: s.returnTo.toList) (c ++ [l] ++ d) :=
      ((Code.closed_of_linear _ c hc.linear).append (Code.closed_branch l label _ hl)).append
        (hd.closed.mono fun _ h => List.mem_cons_of_mem _ h)
    exact hcode.forward (closed_mark _ label) (by simp)
  tame := by
    simp [Code.tame_of_linear c hc.linear, tame_of_jump l hl, hd.tame]
  calls := by
    have hmark : Code.calls [.mark label] = [] := rfl
    rw [Code.calls_append, Code.calls_append, Code.calls_append, calls_of_jump l hl, hmark,
      List.append_nil, List.append_nil, List.map_append, List.map_append, hc.calls, hd.calls]
    rfl

/-- A branch over a code to a second one, which the first skips. -/
theorem emits_choice {o : List String} {done : Label} {s₁ : Scope} (purpose purpose' : Asm.Purpose)
    (c d e : Code) (l : Line) (hlabel : label = ⟨s.labels.entries.size⟩)
    (hdone : done = ⟨s₁.labels.entries.size⟩) (hl : l.jumpTarget? = some label)
    (hc : Straight s m c) (hd : Emits { s with labels := (s.labels.create purpose).2 } n d s₁)
    (he : Emits { s₁ with labels := (s₁.labels.create purpose').2 } o e s') :
    Emits s (m ++ n ++ o) (c ++ [l] ++ d ++ [.jump done, .mark label] ++ e ++ [.mark done]) s' where
  functions := he.functions.trans hd.functions
  ending := he.ending.trans hd.ending
  grown := ((s.labels.grown_create purpose).trans hd.grown).trans
    ((s₁.labels.grown_create purpose').trans he.grown)
  once := by
    intro id
    have hle := hd.grown.le
    have hle' := he.grown.le
    have honce := hd.once id
    have honce' := he.once id
    rw [Asm.LabelTable.size_create] at honce honce' hle hle'
    have h₁ := Code.between_add s.labels.entries.size (s.labels.entries.size + 1)
      s₁.labels.entries.size id (by omega) hle
    have h₂ := Code.between_add s₁.labels.entries.size (s₁.labels.entries.size + 1)
      s'.labels.entries.size id (by omega) hle'
    have h₃ := Code.between_add s.labels.entries.size s₁.labels.entries.size
      s'.labels.entries.size id (by omega) (by omega)
    have hjump : Code.marks [.jump done, .mark label] = Code.marks [.mark label] := rfl
    simp only [Code.marks_append, List.count_append, Code.marks_of_linear c hc.linear,
      marks_of_jump l hl, List.count_nil, honce, honce', hjump]
    rw [hlabel, hdone, Code.count_mark, Code.count_mark]
    omega
  closed := by
    have hret : s₁.returnTo = s.returnTo := hd.returnTo
    have hthen : Code.Closed (label :: done :: s.returnTo.toList) (c ++ [l] ++ d ++ [.jump done]) :=
      (((Code.closed_of_linear _ c hc.linear).append (Code.closed_branch l label _ hl)).append
        (hd.closed.mono fun _ h => List.mem_cons_of_mem _ (List.mem_cons_of_mem _ h))).append
        ((Code.closed_branch (.jump done) done s.returnTo.toList rfl).mono
          fun _ h => List.mem_cons_of_mem _ h)
    have helse : Code.Closed (done :: s.returnTo.toList) ([.mark label] ++ e) := by
      apply (closed_mark _ label).append
      rw [← hret]
      exact he.closed.mono fun _ h => List.mem_cons_of_mem _ h
    have := (hthen.forward helse (by simp)).forward (closed_mark s.returnTo.toList done) (by simp)
    simpa using this
  tame := by
    simp [Code.tame_of_linear c hc.linear, tame_of_jump l hl, hd.tame, he.tame]
  calls := by
    have hjump : Code.calls [.jump done, .mark label] = [] := rfl
    have hmark : Code.calls [.mark done] = [] := rfl
    have hentry : s₁.entryOf = s.entryOf := entryOf_congr hd.functions
    have hcalls : (Code.calls e).map some = o.map s.entryOf := by rw [he.calls, ← hentry]; rfl
    simp only [Code.calls_append, calls_of_jump l hl, hjump, hmark, List.append_nil,
      List.map_append, hc.calls, hd.calls, hcalls]
    rfl

end

/-! ## Loops -/

theorem countedLoop_emits (counter stop : Slot) (body : Lowering Code) (names : List String)
    (c : Code) (s s' : Scope)
    (hbody : ∀ labels code, body { s with labels } = .ok (code, s') →
      Emits { s with labels } names code s')
    (h : countedLoop counter stop body s = .ok (c, s')) : Emits s names c s' := by
  obtain ⟨code, top, done, htop, hdone, hcode, rfl⟩ := countedLoop_ok _ _ _ _ _ _ h
  have hd := hbody _ code hcode
  have hsize : ((s.labels.create .loopTop).2.create .loopEnd).2.entries.size =
      s.labels.entries.size + 1 + 1 := by simp
  have hle := hd.grown.le
  rw [hsize] at hle
  constructor
  · exact hd.functions
  · exact hd.ending
  · exact ((s.labels.grown_create _).trans ((s.labels.create .loopTop).2.grown_create _)).trans
      hd.grown
  · intro id
    have honce := hd.once id
    rw [hsize] at honce
    have h₁ := Code.between_add s.labels.entries.size (s.labels.entries.size + 1)
      s'.labels.entries.size id (by omega) (by omega)
    have h₂ := Code.between_add (s.labels.entries.size + 1) (s.labels.entries.size + 1 + 1)
      s'.labels.entries.size id (by omega) (by omega)
    have hhead : Code.marks [.mark top, loadX .x0 counter, loadX .x1 stop, .instr (.cmp .x0 .x1),
        .jumpIf .ge done] = Code.marks [.mark top] := rfl
    have hfoot : Code.marks [loadX .x0 counter, .instr (.addImm .x0 .x0 1), storeX .x0 counter,
        .jump top, .mark done] = Code.marks [.mark done] := rfl
    rw [Code.marks_append, Code.marks_append, List.count_append, List.count_append, honce, hhead,
      hfoot, htop, hdone, Code.count_mark, Code.count_mark]
    omega
  · -- The loop's end is ahead of all branches to it, and its top is behind the one to it.
    have hinner : Code.Closed (done :: top :: s.returnTo.toList)
        ([loadX .x1 stop, .instr (.cmp .x0 .x1)] ++ [.jumpIf .ge done] ++ code
          ++ [loadX .x0 counter, .instr (.addImm .x0 .x0 1), storeX .x0 counter] ++ [.jump top]) :=
      ((((Code.closed_of_linear _ _ rfl).append (Code.closed_branch _ done _ rfl)).append
        (hd.closed.mono fun _ h => List.mem_cons_of_mem _ (List.mem_cons_of_mem _ h))).append
        (Code.closed_of_linear _ _ rfl)).append
        ((Code.closed_branch (.jump top) top s.returnTo.toList rfl).mono
          fun _ h => List.mem_cons_of_mem _ h)
    have := (hinner.forward (closed_mark (top :: s.returnTo.toList) done) (by simp)).backward
      (.ldrX .x0 .frameBase counter.offset)
    simpa [loadX] using this
  · simp [hd.tame, loadX, storeX, Line.tame, A64.Instr.displacement?]
  · have hhead : Code.calls [.mark top, loadX .x0 counter, loadX .x1 stop, .instr (.cmp .x0 .x1),
        .jumpIf .ge done] = [] := rfl
    have hfoot : Code.calls [loadX .x0 counter, .instr (.addImm .x0 .x0 1), storeX .x0 counter,
        .jump top, .mark done] = [] := rfl
    rw [Code.calls_append, Code.calls_append, hhead, hfoot, List.nil_append, List.append_nil,
      hd.calls]
    rfl

/-! ## Print statements -/

@[simp] theorem plain_printf (format : String) : (printf format).all Line.plain = true := rfl

@[simp] theorem plain_printText (text : String) : (printText text).all Line.plain = true := rfl

@[simp] theorem plain_storeArgument (kind : Scalar) (k : Nat) :
    (storeArgument kind k).all Line.plain = true := by
  cases kind <;> rfl

@[simp] theorem plain_printLine (kind : Scalar) : (printLine kind).all Line.plain = true := by
  simp [printLine]

@[simp] theorem plain_printPart (kind : Scalar) (before after : String) :
    (printPart kind before after).all Line.plain = true := by
  simp [printPart]

@[simp] theorem plain_initCounter (counter stop : Slot) (count : Nat) :
    (initCounter counter stop count).all Line.plain = true := by
  simp [initCounter]

@[simp] theorem plain_addRowStart (row : Slot) (columns : Nat) :
    (addRowStart row columns).all Line.plain = true := by
  simp [addRowStart, A64.Instr.displacement?]

theorem printSeparator_emits (counter : Slot) (c : Code) (s s' : Scope)
    (h : printSeparator counter s = .ok (c, s')) : Emits s [] c s' := by
  simp only [printSeparator, Lowering.bind_ok, Lowering.newLabel_ok, Lowering.pure_ok] at h
  obtain ⟨skip, _, ⟨hskip, rfl⟩, rfl, rfl⟩ := h
  have := emits_skip .skip [loadX .x0 counter] (printText ", ") (.jumpIfZero .x0 skip) hskip rfl
    (straight_of_plain s _ rfl) (emits_plain _ _ rfl)
  simpa using this

theorem printArray_emits (view : ArrayView) (row : Option Slot) (before after : String) (c : Code)
    (s s' : Scope) (h : printArray view row before after s = .ok (c, s')) : Emits s [] c s' := by
  unfold printArray at h
  split at h
  · rw [Lowering.pure_ok] at h
    obtain ⟨rfl, rfl⟩ := h
    exact emits_plain s _ (plain_printText _)
  · simp only [Lowering.bind_ok, Lowering.take_ok, Lowering.pure_ok] at h
    obtain ⟨slots, _, ⟨frame, -, rfl⟩, loop, _, hloop, rfl, rfl⟩ := h
    have hemits := countedLoop_emits _ _ _ [] loop _ _ ?_ hloop
    · exact ((hemits.plainBefore (by simp)).plainAfter (plain_printText _)).ofFrame
    · intro labels code hcode
      rw [Lowering.bind_ok] at hcode
      obtain ⟨sep, s₁, hsep, hcode⟩ := hcode
      rw [Lowering.pure_ok] at hcode
      obtain ⟨rfl, rfl⟩ := hcode
      rw [List.append_assoc, List.append_assoc]
      refine (printSeparator_emits _ sep _ _ hsep).plainAfter ?_
      cases row <;> simp

theorem printRows_emits (layout : ArrayLayout) (columns : Nat) (c : Code) (s s' : Scope)
    (h : printRows layout columns s = .ok (c, s')) : Emits s [] c s' := by
  unfold printRows at h
  split at h
  · rw [Lowering.pure_ok] at h
    obtain ⟨rfl, rfl⟩ := h
    exact emits_plain s _ (plain_printText _)
  · simp only [Lowering.bind_ok, Lowering.take_ok, Lowering.pure_ok] at h
    obtain ⟨slots, _, ⟨frame, -, rfl⟩, loop, _, hloop, rfl, rfl⟩ := h
    have hemits := countedLoop_emits _ _ _ [] loop _ _ ?_ hloop
    · exact ((hemits.plainBefore (by simp)).plainAfter (plain_printText _)).ofFrame
    · intro labels code hcode
      simp only [Lowering.bind_ok, Lowering.pure_ok] at hcode
      obtain ⟨sep, s₁, hsep, row, s₂, hrow, rfl, rfl⟩ := hcode
      exact (printSeparator_emits _ sep _ _ hsep).append (printArray_emits _ _ _ _ row _ _ hrow)

theorem printRow_emits (layout : ArrayLayout) (columns : Nat) (position : Expr) (c : Code)
    (s s' : Scope) (h : printRow layout columns position s = .ok (c, s')) :
    Emits s position.calls c s' := by
  simp only [printRow, Lowering.bind_ok, Lowering.value_ok] at h
  obtain ⟨v, _, ⟨hv, rfl⟩, h⟩ := h
  cases hcode : indexCode v with
  | error e => simp [hcode, Lowering.fail_ok] at h
  | ok code =>
    simp only [hcode, Lowering.bind_ok, Lowering.take_ok, Lowering.pure_ok] at h
    obtain ⟨slots, _, ⟨frame, -, rfl⟩, row, _, hrow, rfl, rfl⟩ := h
    have hindex := indexCode_straight code (expr_straight s 0 position v hv) hcode
    have harray := ((printArray_emits _ _ _ _ row _ _ hrow).plainBefore
      (c := [storeX .x0 (scratchSlot slots 4)]) rfl).ofFrame
    have := (hindex.emits rfl rfl rfl).append harray
    simpa using this

theorem printTuple_plain (elements : List (Slot × Scalar)) :
    (printTuple elements).all Line.plain = true := by
  unfold printTuple
  split
  · rfl
  · simp [List.all_flatMap]

theorem printEnum_plain (cases : List String) : (printEnum cases).all Line.plain = true := by
  unfold printEnum
  split
  · rfl
  · simp [List.all_flatMap, A64.Instr.displacement?]

theorem printFields_emits (fields : List (Field × Nat)) (c : Code) (s s' : Scope)
    (h : printFields fields s = .ok (c, s')) : Emits s [] c s' := by
  induction fields generalizing c s with
  | nil =>
    rw [printFields, Lowering.pure_ok] at h
    obtain ⟨rfl, rfl⟩ := h
    exact emits_plain s _ (plain_printText _)
  | cons entry rest ih =>
    obtain ⟨f, i⟩ := entry
    cases hshape : f.shape with
    | scalar kind =>
      simp only [printFields, hshape, Lowering.bind_ok, Lowering.pure_ok] at h
      obtain ⟨_, _, ⟨rfl, rfl⟩, restCode, s₂, hrest, rfl, rfl⟩ := h
      exact (ih restCode s hrest).plainBefore (by simp)
    | array count element =>
      simp only [printFields, hshape, Lowering.bind_ok, Lowering.pure_ok] at h
      obtain ⟨code, s₁, hcode, restCode, s₂, hrest, rfl, rfl⟩ := h
      exact (printArray_emits _ _ _ _ code _ _ hcode).append (ih restCode s₁ hrest)

theorem interpolate_plain (s : Scope) (k : Nat) (parts : List Part) (r : String × Code)
    (h : interpolate s k parts = .ok r) : r.2.all Line.plain = true := by
  induction parts generalizing k r with
  | nil =>
    rw [interpolate, Except.ok.injEq] at h
    rw [← h]
    rfl
  | cons part rest ih =>
    cases part with
    | text source =>
      simp only [interpolate, bind_eq_ok, pure, Except.pure, Except.ok.injEq] at h
      obtain ⟨⟨format, code⟩, hrest, rfl⟩ := h
      exact ih k (format, code) hrest
    | var name =>
      simp only [interpolate] at h
      split at h
      · cases h
      · split at h
        · cases h
        · simp only [bind_eq_ok, pure, Except.pure, Except.ok.injEq] at h
          obtain ⟨⟨format, code⟩, hrest, rfl⟩ := h
          have hcode : code.all Line.plain = true := ih (k + 1) (format, code) hrest
          simp [hcode]

theorem printInterpolation_emits (parts : List Part) (c : Code) (s s' : Scope)
    (h : printInterpolation parts s = .ok (c, s')) : Emits s [] c s' := by
  unfold printInterpolation at h
  split at h
  · rw [Lowering.fail_ok] at h
    exact h.elim
  · simp only [Lowering.bind_ok, Lowering.get_ok] at h
    obtain ⟨_, _, ⟨rfl, rfl⟩, h⟩ := h
    cases hcode : interpolate s 0 parts with
    | error e => simp [hcode, Lowering.refuse_ok] at h
    | ok r =>
      obtain ⟨format, code⟩ := r
      simp only [hcode, Lowering.pure_ok] at h
      obtain ⟨rfl, rfl⟩ := h
      have hplain : code.all Line.plain = true := interpolate_plain s 0 parts _ hcode
      exact emits_plain s _ (by simp [hplain])

theorem printValue_emits (e : Expr) (c : Code) (s s' : Scope)
    (h : printValue e s = .ok (c, s')) : Emits s e.calls c s' := by
  simp only [printValue, Lowering.bind_ok, Lowering.value_ok, Lowering.pure_ok] at h
  obtain ⟨v, _, ⟨hv, rfl⟩, rfl, rfl⟩ := h
  exact ((expr_straight s 0 e v hv).emits rfl rfl rfl).plainAfter (plain_printLine v.kind)

theorem printComposite_emits (shape : Shape) (c : Code) (s s' : Scope)
    (h : printComposite shape s = .ok (c, s')) : Emits s [] c s' := by
  cases shape with
  | array layout =>
    cases hinner : layout.inner with
    | none =>
      simp only [printComposite, hinner] at h
      exact printArray_emits _ _ _ _ c s s' h
    | some columns =>
      simp only [printComposite, hinner] at h
      exact printRows_emits _ _ c s s' h
  | tuple elements =>
    obtain ⟨rfl, rfl⟩ := (Lowering.pure_ok _ _ _ _).mp h
    exact emits_plain s _ (printTuple_plain elements)
  | dict fields =>
    rw [printComposite, printDict] at h
    split at h
    · obtain ⟨rfl, rfl⟩ := (Lowering.pure_ok _ _ _ _).mp h
      exact emits_plain s _ (plain_printText _)
    · exact printFields_emits _ c s s' h
  | scalar | enumCase =>
    cases h

theorem printVariable_emits (name : String) (c : Code) (s s' : Scope)
    (h : printVariable name s = .ok (c, s')) : Emits s [] c s' := by
  simp only [printVariable, Lowering.bind_ok, Lowering.get_ok] at h
  obtain ⟨_, _, ⟨rfl, rfl⟩, h⟩ := h
  cases hshape : s.shape? name with
  | none =>
    cases hcases : s.enums.get? name with
    | none => simp [hshape, hcases, Lowering.refuse_ok] at h
    | some cases =>
      simp only [hshape, hcases, Lowering.pure_ok] at h
      obtain ⟨rfl, rfl⟩ := h
      exact emits_plain s _ (printEnum_plain cases)
  | some found =>
    obtain ⟨slot, shape⟩ := found
    cases hscalar : shape.scalar? with
    | none =>
      simp only [hshape, hscalar] at h
      exact printComposite_emits shape c s s' h
    | some kind =>
      simp only [hshape, hscalar, Lowering.pure_ok] at h
      obtain ⟨rfl, rfl⟩ := h
      exact emits_plain s _ (by simp)

theorem printElement_emits (name : String) (position : Expr) (c : Code) (s s' : Scope)
    (h : printElement name position s = .ok (c, s')) : Emits s position.calls c s' := by
  have hvalue (h : printValue (.index (.var name) position) s = .ok (c, s')) :
      Emits s position.calls c s' :=
    printValue_emits (.index (.var name) position) c s s' h
  simp only [printElement, Lowering.bind_ok, Lowering.get_ok] at h
  obtain ⟨_, _, ⟨rfl, rfl⟩, h⟩ := h
  cases hview : arrayView s name position with
  | error e => simp [hview, Lowering.fail_ok] at h
  | ok view? =>
    cases view? with
    | some view =>
      simp only [hview] at h
      rw [calls_of_arrayView s name position view hview]
      exact printArray_emits _ _ _ _ c s s' h
    | none =>
      simp only [hview] at h
      cases hshape : s.shape? name with
      | none =>
        simp only [hshape] at h
        exact hvalue h
      | some found =>
        obtain ⟨slot, shape⟩ := found
        simp only [hshape] at h
        cases shape with
        | array layout =>
          cases hinner : layout.inner with
          | none =>
            simp only [hinner] at h
            exact hvalue h
          | some columns =>
            simp only [hinner] at h
            exact printRow_emits _ _ position c s s' h
        | _ => exact hvalue h

theorem print_emits (e : Expr) (c : Code) (s s' : Scope) (h : print e s = .ok (c, s')) :
    Emits s e.calls c s' := by
  unfold print at h
  split at h
  · exact printInterpolation_emits _ c s s' h
  · exact printVariable_emits _ c s s' h
  · rename_i name position
    exact printElement_emits name position c s s' h
  · exact printValue_emits _ c s s' h

/-! ## Declarations -/

theorem gridElements_calls (name : String) (columns : Nat) (items values : List Expr)
    (hall : items.all Expr.isArray = true) (h : gridElements name columns items = .ok values) :
    Expr.allCalls values = Expr.allCalls items := by
  induction items generalizing values with
  | nil =>
    cases h
    rfl
  | cons item rest ih =>
    rw [List.all_cons, Bool.and_eq_true] at hall
    cases item with
    | array row =>
      simp only [gridElements] at h
      split at h
      · cases h
      · split at h
        · cases h
        · rw [bind_eq_ok] at h
          obtain ⟨others, hothers, h⟩ := h
          cases h
          rw [Expr.allCalls_append, ih others hall.2 hothers]
          simp [Expr.allCalls, Expr.calls]
    | _ => cases hall.1

theorem arrayElements_calls (name : String) (items values : List Expr) (inner : Option Nat)
    (h : arrayElements name items = .ok (values, inner)) :
    Expr.allCalls values = Expr.allCalls items := by
  simp only [arrayElements] at h
  split at h
  · split at h
    · rename_i hall
      simp only [bind_eq_ok] at h
      obtain ⟨grid, hgrid, _, hpure, h⟩ := h
      cases hpure
      split at h <;> cases h
      exact gridElements_calls name _ items _ hall hgrid
    · cases h
  · simp only [bind_eq_ok] at h
    obtain ⟨_, hpure, h⟩ := h
    cases hpure
    split at h <;> cases h
    rfl

theorem dictFields_calls (name : String) (seen : List String) (entries : List (Expr × Expr))
    (fields : List FieldLiteral) (h : dictFields name seen entries = .ok fields) :
    Expr.allCalls (fields.flatMap FieldLiteral.values) = Expr.entryCalls entries := by
  induction entries generalizing seen fields with
  | nil =>
    cases h
    rfl
  | cons entry rest ih =>
    obtain ⟨key, value⟩ := entry
    cases key with
    | str key =>
      simp only [dictFields] at h
      split at h
      · cases h
      · have hfield (field : FieldLiteral) (others : List FieldLiteral)
            (hothers : dictFields name (key :: seen) rest = .ok others)
            (hvalues : Expr.allCalls field.values = value.calls) :
            Expr.allCalls ((field :: others).flatMap FieldLiteral.values) =
              Expr.entryCalls ((.str key, value) :: rest) := by
          rw [List.flatMap_cons, Expr.allCalls_append, hvalues, ih _ others hothers]
          simp [Expr.entryCalls, Expr.calls]
        split at h
        · split at h
          · cases h
          · simp only [bind_eq_ok] at h
            obtain ⟨_, hpure, others, hothers, h⟩ := h
            cases hpure
            cases h
            exact hfield _ others hothers (by simp [FieldLiteral.values, Expr.calls])
        · cases h
        · cases h
        · simp only [bind_eq_ok] at h
          obtain ⟨_, hpure, others, hothers, h⟩ := h
          cases hpure
          cases h
          exact hfield _ others hothers (by simp [FieldLiteral.values, Expr.allCalls])
    | _ => cases h

theorem stage_straight (values : List Expr) (kinds : List Scalar) (c : Code) (s s' : Scope)
    (h : stage values s = .ok ((kinds, c), s')) : s = s' ∧ Straight s (Expr.allCalls values) c := by
  induction values generalizing kinds c with
  | nil =>
    obtain ⟨heq, rfl⟩ := (Lowering.pure_ok _ _ _ _).mp h
    cases heq
    exact ⟨rfl, straight_of_plain s [] rfl⟩
  | cons e rest ih =>
    simp only [stage, Lowering.bind_ok, Lowering.value_ok] at h
    obtain ⟨v, _, ⟨hv, rfl⟩, ⟨kinds', c'⟩, s₁, hrest, h⟩ := h
    obtain ⟨heq, rfl⟩ := (Lowering.pure_ok _ _ _ _).mp h
    cases heq
    obtain ⟨rfl, hc'⟩ := ih kinds' c' hrest
    exact ⟨rfl, (expr_straight s 0 e v hv).append (hc'.cons (plain_push v.kind))⟩

theorem plain_unstage (base : Slot) (kinds : List Scalar) :
    (unstage base kinds).all Line.plain = true := by
  unfold unstage
  rw [List.all_flatten, List.all_map, List.all_eq_true]
  rintro ⟨kind, i⟩ -
  simp

theorem emits_composite (name : String) (kinds : List Scalar) (shape : Slot → Shape)
    (names : List String) (c d : Code) (s s' : Scope) (hc : Straight s names c)
    (h : bindComposite name kinds shape s = .ok (d, s')) : Emits s names (c ++ d) s' := by
  obtain ⟨base, span, frame, -, rfl, rfl⟩ := bindComposite_ok name kinds shape d s s' h
  exact (hc.andThen (plain_unstage base kinds)).emits rfl rfl rfl

theorem declare_emits (name : String) (e : Expr) (c : Code) (s s' : Scope)
    (h : declare name e s = .ok (c, s')) : Emits s e.calls c s' := by
  unfold declare at h
  split at h
  · rename_i items
    obtain ⟨values, inner, kinds, kind, code, d, hvalues, hstage, -, hbind, rfl⟩ :=
      declareArray_ok name items c s s' h
    have hstraight := (stage_straight values kinds code s s hstage).2
    rw [arrayElements_calls name items values inner hvalues] at hstraight
    simpa [Expr.calls] using emits_composite name kinds _ _ code d s s' hstraight hbind
  · rename_i items
    obtain ⟨kinds, code, d, -, hstage, hbind, rfl⟩ := declareTuple_ok name items c s s' h
    have hstraight := (stage_straight items kinds code s s hstage).2
    simpa [Expr.calls] using emits_composite name kinds _ _ code d s s' hstraight hbind
  · rename_i entries
    obtain ⟨fields, shapes, kinds, code, d, hfields, hstage, -, hbind, rfl⟩ :=
      declareDict_ok name entries c s s' h
    have hstraight := (stage_straight _ kinds code s s hstage).2
    rw [dictFields_calls name [] entries fields hfields] at hstraight
    simpa [Expr.calls] using emits_composite name kinds _ _ code d s s' hstraight hbind
  · obtain ⟨v, slot, frame, hv, -, rfl, rfl⟩ := declareScalar_ok name e c s s' h
    exact ((expr_straight s 0 e v hv).andThen (by simp)).emits rfl rfl rfl

/-! ## Statements -/

theorem jumpUnless_straight (target : Label) (e : Expr) (c : Code) (s s' : Scope)
    (h : jumpUnless target e s = .ok (c, s')) :
    ∃ d l, c = d ++ [l] ∧ Straight s e.calls d ∧ l.jumpTarget? = some target := by
  obtain ⟨-, hcase⟩ := jumpUnless_ok target e c s s' h
  rcases hcase with ⟨v, hv, rfl⟩ | ⟨op, lhs, rhs, test, left, right, cond, code, rfl, -, hleft,
    hright, hcode, rfl⟩
  · exact ⟨_, _, rfl, (expr_straight s 0 e v hv).andThen (plain_truth v.kind), rfl⟩
  · refine ⟨code, _, rfl, ?_, rfl⟩
    exact comparison_straight (expr_straight s 0 lhs left hleft)
      (expr_straight s 0 rhs right hright) hcode

theorem ret_emits (e : Expr) (c : Code) (s s' : Scope) (h : ret e s = .ok (c, s')) :
    Emits s e.calls c s' := by
  obtain ⟨label, code, hret, hcode, rfl, rfl⟩ := ret_ok e c s s' h
  have hstraight := expr_straight _ 0 e _ hcode
  have hemits := hstraight.emits rfl rfl rfl
  have hjump : Emits s' [] [.jump label] s' := by
    refine ⟨rfl, rfl, .refl _, ?_, ?_, rfl, rfl⟩
    · intro id
      rw [Code.between_self]
      rfl
    · rw [hret]
      exact Code.closed_branch _ label [] rfl
  have := hemits.append hjump
  rwa [List.append_nil] at this

mutual

theorem stmt_emits (st : Stmt) (c : Code) (s s' : Scope) (h : stmt st s = .ok (c, s')) :
    Emits s st.calls c s' := by
  match st with
  | .print value =>
    rw [stmt] at h
    exact print_emits value c s s' h
  | .decl name value =>
    rw [stmt] at h
    exact declare_emits name value c s s' h
  | .loop var (.counted start stop) body =>
    rw [stmt] at h
    obtain ⟨startCode, counter, frame₁, stopCode, stopSlot, frame₂, code, hstart, -, hstop, -,
      hcode, rfl⟩ := loop_ok var start stop (block body) c s s' h
    have hloop := (countedLoop_emits counter stopSlot (block body) _ code _ s'
      (fun labels d hd => block_emits body d _ s' hd) hcode).ofFrame
    have h₁ : Emits s start.calls (startCode ++ [store .int counter]) s :=
      ((expr_straight s 0 start _ hstart).andThen rfl).emits rfl rfl rfl
    have h₂ : Emits { s with frame := frame₁ } stop.calls (stopCode ++ [store .int stopSlot]) s :=
      ((expr_straight _ 0 stop _ hstop).andThen rfl).emits rfl rfl rfl
    have := (h₁.append h₂.ofFrame).append hloop
    simpa [Stmt.calls, Range.calls] using this
  | .cond test thenBody none =>
    obtain ⟨otherwise, testCode, thenCode, hlabel, htest, hthen, rfl⟩ :=
      cond_none_ok test thenBody c s s' h
    obtain ⟨d, l, rfl, hd, hl⟩ := jumpUnless_straight otherwise test testCode _ _ htest
    exact emits_skip .otherwise d thenCode l hlabel hl ⟨hd.linear, hd.calls⟩
      (block_emits thenBody thenCode _ s' hthen)
  | .cond test thenBody (some elseBody) =>
    obtain ⟨otherwise, done, testCode, thenCode, elseCode, s₁, hlabel, hdone, htest, hthen, helse,
      rfl⟩ := cond_some_ok test thenBody elseBody c s s' h
    obtain ⟨d, l, rfl, hd, hl⟩ := jumpUnless_straight otherwise test testCode _ _ htest
    exact emits_choice .otherwise .endIf d thenCode elseCode l hlabel hdone hl
      ⟨hd.linear, hd.calls⟩ (block_emits thenBody thenCode _ s₁ hthen)
      (block_emits elseBody elseCode _ s' helse)
  | .ret value =>
    rw [stmt] at h
    exact ret_emits value c s s' h
  | .enum name cases =>
    rw [stmt] at h
    cases h
    exact (straight_of_plain s _ (by simp)).emits rfl rfl rfl
  | .expr value =>
    simp only [stmt, Lowering.bind_ok, Lowering.value_ok, Lowering.pure_ok] at h
    obtain ⟨v, _, ⟨hv, rfl⟩, rfl, rfl⟩ := h
    exact (expr_straight s 0 value v hv).emits rfl rfl rfl

theorem block_emits (body : List Stmt) (c : Code) (s s' : Scope) (h : block body s = .ok (c, s')) :
    Emits s (Stmt.allCalls body) c s' := by
  match body with
  | [] =>
    obtain ⟨rfl, rfl⟩ := (Lowering.pure_ok _ _ _ _).mp h
    exact emits_plain s [] rfl
  | st :: rest =>
    obtain ⟨c₁, c₂, s₁, h₁, h₂, rfl⟩ := block_cons_ok st rest c s s' h
    exact (stmt_emits st c₁ s s₁ h₁).append (block_emits rest c₂ s₁ s' h₂)

end

end Armature.Lower
