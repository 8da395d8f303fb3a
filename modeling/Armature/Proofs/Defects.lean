import Armature.Proofs.Blocks
import Armature.Proofs.Bodies

/-!
# Defects of generated code

None of the checks that lowering makes of itself can fail, and the labels of a lowered program are
always in order. So assembling it can only fail because a branch does not reach its label, and only
if the code is longer than 1 MiB.
-/

namespace Armature

open Asm (Code Label LabelTable Line)

/-! ## Lowering -/

namespace Lowering

open Lower

variable {α β : Type}

/-- No check that the step makes of itself fails. -/
def Faultless (x : Lowering α) : Prop := ∀ s, Lower.Faultless (x s)

theorem faultless_run {σ : Type} {x : StateT σ (Except LowerError) α}
    {f : α → StateT σ (Except LowerError) β} {s : σ} (hx : Lower.Faultless (x s))
    (hf : ∀ a s', x s = .ok (a, s') → Lower.Faultless (f a s')) : Lower.Faultless ((x >>= f) s) :=
  Lower.Faultless.bind hx fun r hr => hf r.1 r.2 hr

theorem Faultless.seq {x : Lowering α} {f : α → Lowering β} (hx : x.Faultless)
    (hf : ∀ a, x.Gives a → (f a).Faultless) : (x >>= f).Faultless :=
  fun s => faultless_run (hx s) fun a s' h => hf a ⟨s, s', h⟩ s'

theorem faultless_take (taking : Frame → Frame.Taking α) : (take taking).Faultless := by
  intro s
  unfold take
  split
  · exact faultless_ok _
  · exact faultless_exhausted _

theorem declaring_faultless : Declaring fun _ x => x.Faultless where
  pure _ := fun _ => faultless_ok _
  scope := fun _ => faultless_ok _
  expr e := fun s => (faultless_expr s 0 e).bind fun _ _ => faultless_ok _
  label _ := fun _ => faultless_ok _
  fail he := fun _ defect h => he defect (Except.error.inj h)
  seq := Faultless.seq
  scratch _ := faultless_take _
  assign _ := fun _ => faultless_take _
  place _ := fun _ => faultless_take _
  hidden := faultless_take _
  enum _ _ := fun _ => faultless_ok _

end Lowering

/-! ## Sessions -/

namespace Lower

section

open Lowering

theorem faultless_inFrame {α : Type} {step : Lowering α} (h : step.Faultless) (s : Scope) :
    Faultless (SessionM.inFrame step s.session) :=
  (h s).bind fun _ _ => faultless_ok _

/-- A declared function is lowered in a frame of its own, which is open until its end. -/
theorem faultless_function {s : Session} {name : String} {callee : Callee}
    (hcallee : s.functions.get? name = some callee) (f : Function) :
    Faultless (function name f s) := by
  have hdeclared : SessionM.declared name s = .ok (callee, s) :=
    (SessionM.declared_ok _ _ _ _).mpr ⟨hcallee, rfl⟩
  refine faultless_run (by rw [hdeclared]; exact faultless_ok _) fun callee' s' h => ?_
  obtain ⟨-, rfl⟩ := (SessionM.declared_ok _ _ _ _).mp h
  refine faultless_run (faultless_ok _) fun _ s₀ h => ?_
  obtain rfl := (SessionM.openFrame_ok _ _ _ _).mp h
  have hQ := declaring_faultless
  refine faultless_run (faultless_inFrame (hQ.parameters 0 f.params) _) fun params s₁ h => ?_
  obtain ⟨scope, -, rfl⟩ := (SessionM.inFrame_ok _ _ _ _).mp h
  refine faultless_run (faultless_inFrame (hQ.block f.body) _) fun body s₂ h => ?_
  obtain ⟨scope, -, rfl⟩ := (SessionM.inFrame_ok _ _ _ _).mp h
  exact faultless_ok _

theorem faultless_mainBody (statements : List Stmt) (s : Session) :
    Faultless (mainBody statements s) := by
  refine faultless_run (faultless_ok _) fun _ s₀ h => ?_
  obtain rfl := (SessionM.openFrame_ok _ _ _ _).mp h
  refine faultless_run (faultless_inFrame (declaring_faultless.block _) _) fun body s₁ h => ?_
  obtain ⟨scope, -, rfl⟩ := (SessionM.inFrame_ok _ _ _ _).mp h
  exact faultless_ok _

theorem faultless_functions {fs : List (String × Function)} {s : Session}
    (h : ∀ f ∈ fs, ∃ callee, s.functions.get? f.1 = some callee) : Faultless (functions fs s) := by
  induction fs generalizing s with
  | nil => exact faultless_ok _
  | cons f rest ih =>
    obtain ⟨callee, hcallee⟩ := h f List.mem_cons_self
    refine faultless_run (faultless_function hcallee f.2) fun c s₁ h₁ => ?_
    obtain ⟨_, _, -, -, hbody⟩ := function_body f.1 f.2 c s s₁ h₁
    refine faultless_run (ih fun g hg => ?_) fun _ _ _ => faultless_ok _
    rw [hbody.functions]
    exact h g (List.mem_cons_of_mem _ hg)

theorem Declared.faultless_stmt (d : Declared) (st : Stmt) : Faultless (d.stmt st) := by
  unfold Declared.stmt
  split
  · split
    · exact faultless_exhausted _
    · exact faultless_ok _
  · exact faultless_ok _
  · exact faultless_ok _

theorem Declared.faultless_foldlM (statements : List Stmt) (d : Declared) :
    Faultless (statements.foldlM Declared.stmt d) := by
  induction statements generalizing d with
  | nil => exact faultless_ok _
  | cons st rest ih =>
    rw [List.foldlM_cons]
    exact (d.faultless_stmt st).bind fun d' _ => ih d'

theorem faultless_lower (p : Program) : Faultless p.lower := by
  refine Faultless.bind ?_ fun d hd => ?_
  · exact Declared.faultless_foldlM p.statements .none
  have hdescribes := Declared.ofStatements_describes p d hd
  have hfunctions : Faultless (functions d.bodies d.session) := by
    refine faultless_functions fun f hf => ?_
    obtain ⟨⟨name, entry, f⟩, hmem, rfl⟩ := List.mem_map.mp hf
    obtain ⟨callee, hcallee, -⟩ := Option.map_eq_some_iff.mp (hdescribes.entryOf hmem)
    exact ⟨callee, hcallee⟩
  refine Faultless.bind ?_ fun _ _ => faultless_ok _
  exact faultless_run hfunctions fun _ _ _ => faultless_run (faultless_mainBody _ _) fun _ _ _ =>
    faultless_ok _

end

/-! ## Labels -/

namespace BodyCode

variable {entryOf : String → Option Label} {head : Line} {names : List String} {c : Code}

theorem mark_lt (h : BodyCode entryOf head names c) (k r : Nat) (label : Label)
    (hmem : (r, .mark label) ∈ Code.located k c) : r < k + Code.size c := by
  obtain ⟨mid, rfl⟩ := h.shape
  have hsplit : head :: (prologue ++ mid ++ epilogue) = (head :: (prologue ++ mid)) ++ epilogue := by
    simp
  have hsize : Code.size epilogue = 8 := rfl
  rw [hsplit, Code.located_append, List.mem_append] at hmem
  rw [hsplit, Code.size_append, hsize]
  rcases hmem with hmem | hmem
  · have := Code.mem_located _ _ r _ hmem
    omega
  · have hmark := Code.mem_of_mem_located _ _ r _ hmem
    have hplain := List.all_eq_true.mp plain_epilogue _ hmark
    cases hplain

end BodyCode

namespace Bodies

variable {p : Program} {d : Declared} {codes : List Code} {l : Asm.Listing}

theorem exists_body (h : Bodies p d codes l) (i : Nat) (code : Code) (hi : codes[i]? = some code) :
    ∃ head names, head.target? = none ∧ BodyCode d.session.entryOf head names code := by
  have hlt : i < d.functions.length + 1 := by
    rw [← h.length]
    exact (List.getElem?_eq_some_iff.mp hi).1
  by_cases hmain : i = d.functions.length
  · rw [hmain] at hi
    exact ⟨_, _, rfl, h.main code hi⟩
  · have hi' : i < d.functions.length := by omega
    exact ⟨_, _, rfl, h.function i _ _ _ code (List.getElem?_eq_getElem hi') hi⟩

theorem size_declared (h : Bodies p d codes l) : Code.size d.code = 0 := by
  have hcode := h.declared.code
  generalize d.code = c at hcode
  induction c with
  | nil => rfl
  | cons first rest ih =>
    obtain ⟨bytes, rfl⟩ := hcode first List.mem_cons_self
    rw [Code.size_cons, ih fun l hl => hcode l (List.mem_cons_of_mem _ hl)]
    rfl

theorem instrs_declared (h : Bodies p d codes l) (place : Label → Nat) (k : Nat) :
    d.code.instrs place k = [] := by
  apply List.eq_nil_of_length_eq_zero
  rw [Code.length_instrs, h.size_declared]

theorem mem_located (h : Bodies p d codes l) (q : Nat) (line : Line)
    (hmem : (q, line) ∈ Code.located 0 l.code) :
    (∃ bytes, line = .reserve bytes) ∨
      ∃ i code, codes[i]? = some code ∧ (q, line) ∈ Code.located (Code.start codes i) code := by
  rw [h.code, Code.located_append, List.mem_append, h.size_declared, Code.mem_located_flatten] at hmem
  rcases hmem with hmem | ⟨i, code, hi, hmem⟩
  · exact .inl (h.declared.code line (Code.mem_of_mem_located _ _ q line hmem))
  · exact .inr ⟨i, code, hi, by simpa using hmem⟩

theorem exists_callee (h : Bodies p d codes l) (name : String) (label : Label)
    (hname : d.session.entryOf name = some label) :
    ∃ (i : Nat) (f : Function) (code : Code), d.functions[i]? = some (name, label, f) ∧
      codes[i]? = some code ∧ code.head? = some (.mark label) := by
  rw [Declared.entryOf_session, Option.map_eq_some_iff] at hname
  obtain ⟨⟨label', f⟩, hget, rfl⟩ := hname
  obtain ⟨i, hi⟩ := List.getElem?_of_mem (Bindings.mem_of_get? d.functions name _ hget)
  have hlt : i < codes.length := by
    rw [h.length]
    have := (List.getElem?_eq_some_iff.mp hi).1
    omega
  have hcode := List.getElem?_eq_getElem hlt
  refine ⟨i, f, codes[i], hi, hcode, ?_⟩
  obtain ⟨mid, hshape⟩ := (h.function i name label' f codes[i] hi hcode).shape
  rw [hshape]
  rfl

theorem mem_code (h : Bodies p d codes l) (i : Nat) (code : Code) (hi : codes[i]? = some code)
    (line : Line) (hline : line ∈ code) : line ∈ l.code := by
  rw [h.code, List.mem_append, List.mem_flatten]
  exact .inr ⟨code, List.mem_of_getElem? hi, hline⟩

theorem labelled (h : Bodies p d codes l) : l.Labelled := by
  have hcount (label : Label) : (Code.marks l.code).count label =
      Code.between 0 l.labels.entries.size label.id := h.once label.id
  constructor
  · exact h.grown.fixups
  · rw [List.nodup_iff_count]
    intro label
    rw [hcount, Code.between]
    split <;> omega
  · intro label hlabel
    have hpos := List.count_pos_iff.mpr hlabel
    rw [hcount, Code.between] at hpos
    split at hpos
    · rename_i hlt
      have hentry := Array.getElem?_eq_getElem hlt.2
      exact ⟨_, hentry, h.grown.new _ _ (Nat.zero_le _) hentry⟩
    · omega
  · intro line hline label hlabel
    obtain ⟨q, hq⟩ := Code.exists_mem_located 0 l.code line hline
    rcases h.mem_located q line hq with ⟨bytes, rfl⟩ | ⟨i, code, hi, hq⟩
    · cases hlabel
    · obtain ⟨head, names, -, hbody⟩ := h.exists_body i code hi
      rw [Code.mem_marks]
      cases hjump : line.jumpTarget? with
      | some label' =>
        have heq : label' = label := by simpa [Line.target?, hjump] using hlabel
        subst heq
        rcases hbody.closed _ q line label' hq hjump with ⟨r, hr, -⟩ | hout
        · exact h.mem_code i code hi _ (Code.mem_of_mem_located _ _ r _ hr)
        · cases hout
      | none =>
        have hcall : line.callTarget? = some label := by simpa [Line.target?, hjump] using hlabel
        have hmem : some label ∈ (Code.calls code).map some := by
          rw [List.mem_map]
          refine ⟨label, List.mem_filterMap.mpr ⟨line, ?_, hcall⟩, rfl⟩
          exact Code.mem_of_mem_located _ _ q line hq
        rw [hbody.calls, List.mem_map] at hmem
        obtain ⟨name, -, hname⟩ := hmem
        obtain ⟨j, f, callee, -, hj, hhead⟩ := h.exists_callee name label hname
        exact h.mem_code j callee hj _ (List.mem_of_mem_head? hhead)
  · obtain ⟨code, hcode⟩ : ∃ code, codes[d.functions.length]? = some code := by
      have hlt : d.functions.length < codes.length := by
        rw [h.length]
        omega
      exact ⟨_, List.getElem?_eq_getElem hlt⟩
    obtain ⟨mid, hshape⟩ := (h.main code hcode).shape
    obtain ⟨q, hq⟩ := Code.exists_mem_located 0 l.code .entry
      (h.mem_code _ code hcode _ (by rw [hshape]; exact List.mem_cons_self))
    intro hnil
    rw [Code.entries, List.filterMap_eq_nil_iff] at hnil
    exact absurd (hnil _ hq) (by simp [Line.isEntry])

theorem mark_lt (h : Bodies p d codes l) (q : Nat) (label : Label)
    (hmem : (q, .mark label) ∈ Code.located 0 l.code) : q < Code.size l.code := by
  rcases h.mem_located q _ hmem with ⟨bytes, hline⟩ | ⟨i, code, hi, hq⟩
  · cases hline
  · obtain ⟨head, names, -, hbody⟩ := h.exists_body i code hi
    have hlt := hbody.mark_lt _ q label hq
    have hle := Code.start_add_size_le codes i code hi
    rw [h.code, Code.size_append]
    omega

end Bodies

theorem long_of_not_reaches (form : A64.BranchForm) (place q size : Nat) (hplace : place < size)
    (hq : q < size) (h : ¬ form.Reaches (4 * place - 4 * q : Int)) :
    2 ^ 20 < 4 * size ∧
      (form.reach < (4 * place - 4 * q : Int) ∨ (4 * place - 4 * q : Int) < -form.reach - 4) := by
  simp only [A64.BranchForm.Reaches] at h
  have hreach : 0xFFFFC ≤ form.reach := by cases form <;> decide
  omega

theorem Bodies.assemble_cases {p : Program} {d : Declared} {codes : List Code} {l : Asm.Listing}
    (h : Bodies p d codes l) :
    (∃ image place, l.assemble = .ok image ∧ image.Built place l.code) ∨
    ∃ name site displacement reach,
      l.assemble = .error (.outOfReach name site displacement reach) ∧
      (reach < displacement ∨ displacement < -reach - 4) ∧ 2 ^ 20 < 4 * Code.size l.code := by
  rcases h.labelled.assemble_cases with hok |
    ⟨place, q, line, label, form, name, hplaced, hmem, htarget, -, hnot, herr⟩
  · exact .inl hok
  · have hlabel := (Code.mem_marks _ _).mp
      (h.labelled.targets line (Code.mem_of_mem_located _ _ q line hmem) label htarget)
    obtain ⟨r, hr⟩ := Code.exists_mem_located 0 l.code _ hlabel
    have hlt : place label < Code.size l.code := by
      rw [hplaced r label hr]
      exact h.mark_lt r label hr
    have hq := Code.mem_located 0 l.code q line hmem
    rw [line.size_of_target label htarget] at hq
    obtain ⟨hlong, hfar⟩ := long_of_not_reaches form (place label) q (Code.size l.code) hlt
      (by omega) hnot
    exact .inr ⟨name, 4 * q, _, form.reach, herr, hfar, hlong⟩

theorem image_built (p : Program) (image : Asm.Image) (h : p.image = .ok image) :
    ∃ l d codes place, p.lower = .ok l ∧ Bodies p d codes l ∧ image.Built place l.code := by
  obtain ⟨l, hlower, hassemble⟩ := p.image_ok image h
  obtain ⟨d, codes, hbodies⟩ := lower_bodies p l hlower
  rcases hbodies.assemble_cases with ⟨image', place, hok, hbuilt⟩ | ⟨_, _, _, _, herr, -⟩
  · rw [hassemble] at hok
    cases hok
    exact ⟨l, d, codes, place, hlower, hbodies, hbuilt⟩
  · rw [hassemble] at herr
    cases herr

theorem exists_image (p : Program) (l : Asm.Listing) (h : p.lower = .ok l)
    (hsize : 4 * Code.size l.code ≤ 2 ^ 20) : ∃ image, p.image = .ok image := by
  obtain ⟨d, codes, hbodies⟩ := lower_bodies p l h
  rcases hbodies.assemble_cases with ⟨image, place, hok, -⟩ | ⟨_, _, _, _, -, -, hlong⟩
  · refine ⟨image, ?_⟩
    simp [Program.image, h, hok, Except.mapError, bind, Except.bind]
  · omega

theorem exists_image_of_small (p : Program)
    (h : (p.lower.toOption.any fun l => decide (4 * Code.size l.code ≤ 2 ^ 20)) = true) :
    ∃ image, p.image = .ok image := by
  obtain ⟨l, hlower, hsize⟩ := exists_ok h
  exact exists_image p l hlower hsize

end Lower

open Asm Lower

end Armature
