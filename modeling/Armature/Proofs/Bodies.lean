import Armature.Proofs.Declarations
import Armature.Proofs.Resolved

/-!
# The bodies of a program

The code of a program is a row of bodies, one for each function and one for the statements outside
functions. Each starts with the prologue, ends with the epilogue, and keeps its branches to itself.
-/

namespace Armature

/-- The label of a function. -/
def Session.entryOf (s : Session) (name : String) : Option Asm.Label :=
  (s.functions.get? name).map (·.entry)

theorem Session.entryOf_congr {s s' : Session} (h : s'.functions = s.functions) :
    s'.entryOf = s.entryOf := by
  funext name
  rw [Session.entryOf, h, Session.entryOf]

namespace Lower

open Asm (Code Label Line)

/-! ## Single bodies -/

/-- The code of a body after its first line. -/
structure Emits.Body (s : Session) (names : List String) (c : Code) (s' : Session) : Prop where
  functions : s'.functions = s.functions
  grown : s.labels.Grown s'.labels
  once : ∀ id, (Code.marks c).count ⟨id⟩ =
    Code.between s.labels.entries.size s'.labels.entries.size id
  closed : c.Closed []
  tame : c.all Line.tame = true
  calls : (Code.calls c).map some = names.map s.entryOf

@[simp] theorem plain_prologue : prologue.all Line.plain = true := rfl

@[simp] theorem plain_epilogue : epilogue.all Line.plain = true := rfl

theorem closed_of_emits (inFunction : Bool) (names : List String) (c : Code) (s : Session)
    (s' : Scope) (hc : Emits (s.enter inFunction) names c s') :
    Code.Closed [] (c ++ [.mark (s.enter inFunction).done]) := by
  have hinner : Code.Closed [(s.enter inFunction).done] c := by
    refine hc.closed.mono ?_
    intro label hlabel
    cases inFunction with
    | false => cases hlabel
    | true => exact List.mem_singleton.mpr (Option.some.inj (Option.mem_toList.mp hlabel)).symm
  exact hinner.forward (closed_mark [] _) (by simp)

theorem body_of_emits (inFunction : Bool) (names : List String) (c : Code) (s : Session)
    (s' : Scope) (hc : Emits (s.enter inFunction) names c s') :
    Emits.Body s names (prologue ++ (c ++ [.mark (s.enter inFunction).done]) ++ epilogue)
      s'.leave := by
  have hsize : (s.enter inFunction).labels.entries.size = s.labels.entries.size + 1 :=
    s.labels.size_create .functionReturn
  have hdone : (s.enter inFunction).done = ⟨s.labels.entries.size⟩ := rfl
  have hle := hc.grown.le
  rw [hsize] at hle
  have hprologue : Code.marks prologue = [] := rfl
  have hepilogue : Code.marks epilogue = [] := rfl
  constructor
  · exact hc.functions
  · exact (s.labels.grown_create _).trans hc.grown
  · intro id
    have honce := hc.once id
    have hadd := Code.between_add s.labels.entries.size (s.labels.entries.size + 1)
      s'.labels.entries.size id (by omega) hle
    rw [hsize] at honce
    simp only [Code.marks_append, hprologue, hepilogue, List.nil_append, List.append_nil,
      List.count_append, honce, Scope.leave]
    rw [hdone, Code.count_mark]
    omega
  · exact ((Code.closed_of_linear _ _ rfl).append (closed_of_emits inFunction names c s s' hc)).append
      (Code.closed_of_linear _ _ rfl)
  · simp [hc.tame, Code.tame_of_linear prologue rfl, Code.tame_of_linear epilogue rfl]
  · have h₁ : Code.calls prologue = [] := rfl
    have h₂ : Code.calls epilogue = [] := rfl
    have h₃ (label : Label) : Code.calls [.mark label] = [] := rfl
    simp only [Code.calls_append, h₁, h₂, h₃, List.nil_append, List.append_nil, hc.calls]
    rfl

theorem parameters_ok (i : Nat) (params : List String) (c : Code) (s s' : Scope)
    (h : parameters i params s = .ok (c, s')) :
    c.all Line.plain = true ∧ ∃ frame, s' = { s with frame } := by
  induction params generalizing i c s with
  | nil =>
    obtain ⟨rfl, rfl⟩ := (Lowering.pure_ok _ _ _ _).mp h
    exact ⟨rfl, s.frame, rfl⟩
  | cons param rest ih =>
    simp only [parameters, Lowering.bind_ok, Lowering.take_ok, Lowering.pure_ok] at h
    obtain ⟨slot, _, ⟨frame, -, rfl⟩, c', _, hrest, rfl, rfl⟩ := h
    obtain ⟨hplain, frame', rfl⟩ := ih (i + 1) c' _ hrest
    exact ⟨by simp [hplain], frame', rfl⟩

theorem function_ok (name : String) (f : Function) (c : Code) (s s' : Session)
    (h : function name f s = .ok (c, s')) :
    ∃ callee s₁ s₂ params body, s.functions.get? name = some callee ∧
      parameters 0 f.params (s.enter true) = .ok (params, s₁) ∧
      block f.body s₁ = .ok (body, s₂) ∧ s' = s₂.leave ∧
      c = .mark callee.entry :: (prologue ++ (params ++ body ++ constant .x0 0
        ++ [.mark (s.enter true).done]) ++ epilogue) := by
  simp only [function, Lowering.bind_ok, Lowering.pure_ok, SessionM.declared_ok,
    SessionM.openFrame_ok] at h
  obtain ⟨callee, _, ⟨hcallee, rfl⟩, _, _, rfl, params, _, hfirst, body, _, hsecond, frame, _, hclose,
    rfl, rfl⟩ := h
  obtain ⟨s₁, hparams, rfl⟩ := (SessionM.inFrame_ok _ _ _ _).mp hfirst
  obtain ⟨s₂, hbody, rfl⟩ := (SessionM.inFrame_ok _ _ _ _).mp hsecond
  obtain ⟨rfl, rfl⟩ := (SessionM.closeFrame_ok _ _ _).mp hclose
  obtain ⟨-, frame, rfl⟩ := parameters_ok 0 f.params params _ s₁ hparams
  have hdone : s₂.done = (s.enter true).done :=
    congrArg Prod.snd (block_emits f.body body _ s₂ hbody).ending
  exact ⟨callee, _, s₂, params, body, hcallee, hparams, hbody, rfl, by simp [hdone]⟩

theorem mainBody_ok (statements : List Stmt) (c : Code) (s s' : Session)
    (h : mainBody statements s = .ok (c, s')) :
    ∃ s₁ body, block (statements.filter fun st => !isFunction st) (s.enter false) = .ok (body, s₁) ∧
      s' = s₁.leave ∧
      c = .entry :: (prologue ++ (body ++ (constant .x0 0 ++ [.callImport .exit])
        ++ [.mark (s.enter false).done]) ++ epilogue) := by
  simp only [mainBody, Lowering.bind_ok, Lowering.pure_ok, SessionM.openFrame_ok] at h
  obtain ⟨_, _, rfl, body, _, hfirst, frame, _, hclose, rfl, rfl⟩ := h
  obtain ⟨s₁, hbody, rfl⟩ := (SessionM.inFrame_ok _ _ _ _).mp hfirst
  obtain ⟨rfl, rfl⟩ := (SessionM.closeFrame_ok _ _ _).mp hclose
  have hdone : s₁.done = (s.enter false).done :=
    congrArg Prod.snd (block_emits _ body _ s₁ hbody).ending
  exact ⟨s₁, body, hbody, rfl, by simp [hdone]⟩

theorem function_body (name : String) (f : Function) (c : Code) (s s' : Session)
    (h : function name f s = .ok (c, s')) :
    ∃ callee mid, s.functions.get? name = some callee ∧
      c = .mark callee.entry :: (prologue ++ mid ++ epilogue) ∧
      Emits.Body s (Stmt.allCalls f.body) (prologue ++ mid ++ epilogue) s' := by
  obtain ⟨callee, s₁, s₂, params, body, hcallee, hparams, hbody, rfl, rfl⟩ :=
    function_ok name f c s s' h
  obtain ⟨hplain, frame, rfl⟩ := parameters_ok 0 f.params params _ s₁ hparams
  refine ⟨callee, _, hcallee, rfl, body_of_emits true _ _ s s₂ ?_⟩
  rw [List.append_assoc]
  exact (((block_emits f.body body _ s₂ hbody).plainAfter (plain_constant _ _)).ofFrame).plainBefore
    hplain

theorem main_body (statements : List Stmt) (c : Code) (s s' : Session)
    (h : mainBody statements s = .ok (c, s')) :
    ∃ mid, c = .entry :: (prologue ++ mid ++ epilogue) ∧
      Emits.Body s (Stmt.allCalls (statements.filter fun st => !isFunction st))
        (prologue ++ mid ++ epilogue) s' := by
  obtain ⟨s₁, body, hbody, rfl, rfl⟩ := mainBody_ok statements c s s' h
  refine ⟨_, rfl, body_of_emits false _ _ s s₁ ?_⟩
  exact (block_emits _ body _ s₁ hbody).plainAfter (by simp)

/-! ## All bodies -/

/-- One body of a program. It starts with the line `head` and calls the named functions. -/
structure BodyCode (entryOf : String → Option Label) (head : Line) (names : List String) (c : Code) :
    Prop where
  shape : ∃ mid, c = head :: (prologue ++ mid ++ epilogue)
  closed : c.Closed []
  tame : c.tail.all Line.tame = true
  calls : (Code.calls c).map some = names.map entryOf

theorem Emits.Body.bodyCode {s s' : Session} {names : List String} {mid : Code} (head : Line)
    (hhead : head.target? = none) (h : Emits.Body s names (prologue ++ mid ++ epilogue) s') :
    BodyCode s.entryOf head names (head :: (prologue ++ mid ++ epilogue)) where
  shape := ⟨mid, rfl⟩
  closed := by
    have hclosed : Code.Closed [] [head] := by
      intro k q l label hmem hl
      simp only [Code.located_cons, Code.located_nil, List.mem_singleton, Prod.mk.injEq] at hmem
      rw [hmem.2] at hl
      simp [Line.target?, hl] at hhead
    exact hclosed.append h.closed
  tame := h.tame
  calls := by
    have hcall : head.callTarget? = none := by
      cases hc : head.callTarget? with
      | none => rfl
      | some label => cases head <;> simp_all [Line.target?, Line.jumpTarget?, Line.callTarget?]
    rw [← h.calls, Code.calls, List.filterMap_cons, hcall]
    rfl

theorem functions_bodies (fs : Bindings (Label × Function)) (c : Code) (s s' : Session)
    (hdeclared : ∀ name entry f, (name, entry, f) ∈ fs → s.entryOf name = some entry)
    (h : functions (fs.map fun (name, _, f) => (name, f)) s = .ok (c, s')) :
    ∃ (codes : List Code) (sessions : Nat → Session), codes.length = fs.length ∧
      c = codes.flatten ∧ sessions 0 = s ∧ sessions fs.length = s' ∧ s.labels.Grown s'.labels ∧
      (∀ id, (Code.marks c).count ⟨id⟩ =
        Code.between s.labels.entries.size s'.labels.entries.size id +
          (fs.map (·.2.1)).count ⟨id⟩) ∧
      (∀ i ≤ fs.length, (sessions i).functions = s.functions) ∧
      ∀ (i : Nat) name entry f code, fs[i]? = some (name, entry, f) → codes[i]? = some code →
        BodyCode s.entryOf (.mark entry) (Stmt.allCalls f.body) code ∧
          function name f (sessions i) = .ok (code, sessions (i + 1)) := by
  induction fs generalizing c s with
  | nil =>
    obtain ⟨rfl, rfl⟩ := (Lowering.pure_ok _ _ _ _).mp h
    refine ⟨[], fun _ => s, rfl, rfl, rfl, rfl, .refl _, ?_, fun _ _ => rfl, ?_⟩
    · intro id
      rw [Code.between_self]
      rfl
    · intro i name entry f code hi
      simp at hi
  | cons fn rest ih =>
    obtain ⟨name, entry, f⟩ := fn
    simp only [List.map_cons, functions, Lowering.bind_ok, Lowering.pure_ok] at h
    obtain ⟨c₁, s₁, h₁, c₂, _, h₂, rfl, rfl⟩ := h
    obtain ⟨callee, mid, hcallee, hshape, hbody⟩ := function_body name f c₁ s s₁ h₁
    have hentry := hdeclared name entry f List.mem_cons_self
    rw [Session.entryOf, hcallee] at hentry
    obtain rfl : callee.entry = entry := Option.some.inj hentry
    obtain ⟨codes, sessions, hlen, rfl, hfirst, hlast, hgrown, honce, hfunctions, hbodies⟩ :=
      ih c₂ s₁ (fun name entry f hmem => by
        rw [Session.entryOf_congr hbody.functions]
        exact hdeclared name entry f (List.mem_cons_of_mem _ hmem)) h₂
    refine ⟨c₁ :: codes, fun i => if i = 0 then s else sessions (i - 1), by simp [hlen], rfl, rfl,
      hlast, hbody.grown.trans hgrown, ?_, ?_, ?_⟩
    · intro id
      have hadd := Code.between_add _ _ _ id hbody.grown.le hgrown.le
      have hmarks : Code.marks c₁ = callee.entry :: Code.marks (prologue ++ mid ++ epilogue) := by
        rw [hshape]
        rfl
      rw [Code.marks_append, List.count_append, hmarks, List.count_cons, hbody.once, honce,
        List.map_cons, List.count_cons]
      simp only
      omega
    · intro i hi
      cases i with
      | zero => rfl
      | succ i => exact (hfunctions i (Nat.le_of_succ_le_succ hi)).trans hbody.functions
    · intro i name' entry' f' code hi hcode
      cases i with
      | zero =>
        cases hi
        cases hcode
        refine ⟨?_, by simpa [hfirst] using h₁⟩
        rw [hshape]
        exact hbody.bodyCode (.mark callee.entry) rfl
      | succ i =>
        obtain ⟨hcode', hlowered⟩ := hbodies i name' entry' f' code (by simpa using hi)
          (by simpa using hcode)
        refine ⟨?_, hlowered⟩
        rw [Session.entryOf_congr hbody.functions] at hcode'
        exact hcode'

/-- The sessions in which the bodies of a program are lowered, one after the other. -/
structure Lowered (p : Program) (d : Declared) (codes : List Code) (sessions : Nat → Session) :
    Prop where
  declared : Declared.ofStatements p.statements = .ok d
  start : sessions 0 = d.session
  functions : ∀ i ≤ d.functions.length, (sessions i).functions = d.session.functions
  function : ∀ (i : Nat) name entry f code, d.functions[i]? = some (name, entry, f) →
    codes[i]? = some code → Lower.function name f (sessions i) = .ok (code, sessions (i + 1))
  main : ∀ code, codes[d.functions.length]? = some code →
    ∃ s', mainBody p.statements (sessions d.functions.length) = .ok (code, s')

/-- The parts that the listing of a program consists of. -/
structure Bodies (p : Program) (d : Declared) (codes : List Code) (l : Asm.Listing) : Prop where
  declared : d.Describes p.definitions
  code : l.code = d.code ++ codes.flatten
  length : codes.length = d.functions.length + 1
  grown : Asm.LabelTable.empty.Grown l.labels
  once : ∀ id, (Code.marks l.code).count ⟨id⟩ = Code.between 0 l.labels.entries.size id
  function : ∀ (i : Nat) name entry f code, d.functions[i]? = some (name, entry, f) →
    codes[i]? = some code → BodyCode d.session.entryOf (.mark entry) (Stmt.allCalls f.body) code
  main : ∀ code, codes[d.functions.length]? = some code →
    BodyCode d.session.entryOf .entry (Stmt.allCalls p.mainStatements) code
  lowered : ∃ sessions, Lowered p d codes sessions

theorem count_entries (n id : Nat) :
    ((List.range n).map Label.mk).count ⟨id⟩ = Code.between 0 n id := by
  induction n with
  | zero => rw [Code.between_self]; rfl
  | succ n ih =>
    rw [List.range_succ, List.map_append, List.count_append, ih, ← Code.between_add 0 n (n + 1) id
      (by omega) (by omega), ← Code.count_mark]
    rfl

theorem Declared.entryOf_session (d : Declared) (name : String) :
    d.session.entryOf name = (d.functions.get? name).map (·.1) := by
  have := Bindings.get?_map (fun e : Label × Function => (⟨e.1, e.2.params.length⟩ : Callee))
    d.functions name
  unfold Session.entryOf Declared.session
  rw [this, Option.map_map]
  rfl

theorem Declared.Describes.entryOf {d : Declared} {p : Program} (h : d.Describes p.definitions)
    {name : String} {entry : Label} {f : Function} (hmem : (name, entry, f) ∈ d.functions) :
    d.session.entryOf name = some entry := by
  rw [entryOf_session, Bindings.get?_of_nodup (by rw [h.names]; exact p.functionNames_nodup) hmem]
  rfl

theorem lower_bodies (p : Program) (l : Asm.Listing) (h : p.lower = .ok l) :
    ∃ d codes, Bodies p d codes l := by
  simp only [Program.lower, bind_eq_ok] at h
  obtain ⟨d, hd, ⟨code, s'⟩, hcode, h⟩ := h
  have hdescribes := Declared.ofStatements_describes p d hd
  simp only [Lowering.bind_ok, Lowering.pure_ok] at hcode
  obtain ⟨c₁, s₁, h₁, c₂, s, h₂, rfl, rfl⟩ := hcode
  cases h
  obtain ⟨codes, sessions, hlen, rfl, hfirst, hlast, hgrown, honce, hfunctions, hbodies⟩ :=
    functions_bodies d.functions c₁ d.session s₁ (fun _ _ _ => hdescribes.entryOf) h₁
  obtain ⟨mid, hshape, hbody⟩ := main_body p.statements c₂ s₁ s h₂
  have hdeclared : Code.marks d.code = [] := by
    rw [Code.marks, List.filterMap_eq_nil_iff]
    intro line hline
    obtain ⟨bytes, rfl⟩ := hdescribes.code line hline
    rfl
  have hmain : Code.marks c₂ = Code.marks (prologue ++ mid ++ epilogue) := by
    rw [hshape]
    rfl
  have hcode (i : Nat) name entry f code (hi : d.functions[i]? = some (name, entry, f))
      (hcode : (codes ++ [c₂])[i]? = some code) :=
    hbodies i name entry f code hi (by
      rwa [List.getElem?_append_left (by rw [hlen]; exact (List.getElem?_eq_some_iff.mp hi).1)]
        at hcode)
  have hcode_main (code : Code) (hcode : (codes ++ [c₂])[d.functions.length]? = some code) :
      c₂ = code := by
    simpa [← hlen] using hcode
  refine ⟨d, codes ++ [c₂], hdescribes, by simp, by simp [hlen],
    (hdescribes.grown.trans hgrown).trans hbody.grown, ?_, ?_, ?_, sessions, hd, hfirst, hfunctions,
    ?_, ?_⟩
  · intro id
    have h₁ := Code.between_add d.labels.entries.size s₁.labels.entries.size s.labels.entries.size
      id hgrown.le hbody.grown.le
    have h₂ := Code.between_add 0 d.labels.entries.size s.labels.entries.size id (by omega)
      (Nat.le_trans hgrown.le hbody.grown.le)
    have hfs := honce id
    rw [hdescribes.entries, count_entries, ← hdescribes.size] at hfs
    rw [Code.marks_append, Code.marks_append, hdeclared, hmain, List.nil_append, List.count_append,
      hbody.once, hfs]
    simp only [Declared.session] at *
    omega
  · intro i name entry f code hi hi'
    exact (hcode i name entry f code hi hi').1
  · intro code hi
    obtain rfl := hcode_main code hi
    have := hbody.bodyCode .entry rfl
    rw [← hlast, Session.entryOf_congr (hfunctions _ (Nat.le_refl _))] at this
    rw [hshape]
    exact this
  · intro i name entry f code hi hi'
    exact (hcode i name entry f code hi hi').2
  · intro code hi
    obtain rfl := hcode_main code hi
    exact ⟨s, by rw [hlast]; exact h₂⟩

end Lower

end Armature
