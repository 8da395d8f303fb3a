import Armature.Proofs.Blocks
import Armature.Proofs.Bodies

/-!
# Frames while a program is lowered

Lowering does nothing to frames but the operations of a history, and all of them fit. So at every
point no slot has been given away twice.
-/

namespace Armature

open Asm (Code)
open Armature.Frame (History Op)

/-! ## Points of a lowering -/

/-- The operation that is done when slots are taken. -/
inductive Frame.Op.Takes : Op → {α : Type} → (Frame → Frame.Taking α) → Prop
  | assign (name : String) (shape : Shape) : Takes (.assign name shape) (·.assign name shape)
  | span (name : String) (count : Nat) : Takes (.span name count) (·.spanFor name count)
  | place (name : String) (count : Nat) (shape : Slot → Shape) :
    Takes (.place name count shape) (·.place name count shape)
  | hidden : Takes .hidden (·.hidden)
  | scratch (count : Nat) : Takes (.scratch count) (·.scratchSlots count)

theorem Frame.Op.Takes.frame {op : Op} {α : Type} {taking : Frame → Frame.Taking α}
    (h : op.Takes taking) (history : History) :
    (history.perform op).frame = (taking history.frame).2 := by
  cases h with
  | assign | span | place => rfl
  | hidden | scratch =>
    rw [History.perform]
    split <;> simp_all

namespace Lowering

/-- The step does the operations one after the other. Then it ends with a value and a scope, or it
fails and leaves a scope behind. -/
inductive Ends : {α : Type} → Lowering α → Scope → List Op → Except LowerError α → Scope → Prop
  | still {α : Type} {x : Lowering α} {s s' : Scope} {a : α} :
    x s = .ok (a, s') → s'.frame = s.frame → Ends x s [] (.ok a) s'
  | fail {α : Type} (s : Scope) (e : LowerError) : Ends (fail e : Lowering α) s [] (.error e) s
  | value {s : Scope} {e : Expr} {error : LowerError} :
    Lower.expr s 0 e = .error error → Ends (value e) s [] (.error error) s
  /-- A failure may have taken some slots. -/
  | take {α : Type} {op : Op} {taking : Frame → Frame.Taking α} (s : Scope) : op.Takes taking →
    Ends (take taking) s [op] ((taking s.frame).1.mapError .exhausted)
      { s with frame := (taking s.frame).2 }
  | bind {α β : Type} {x : Lowering α} {f : α → Lowering β} {s s₁ s' : Scope} {ops ops' : List Op}
    {a : α} {r : Except LowerError β} : Ends x s ops (.ok a) s₁ → Ends (f a) s₁ ops' r s' →
      Ends (x >>= f) s (ops ++ ops') r s'
  | stop {α β : Type} {x : Lowering α} {f : α → Lowering β} {s s' : Scope} {ops : List Op}
    {e : LowerError} : Ends x s ops (.error e) s' → Ends (x >>= f) s ops (.error e) s'

/-- The step comes through the scope once it has done the operations. It may fail later. -/
inductive Visits : {α : Type} → Lowering α → Scope → List Op → Scope → Prop
  | start {α : Type} (x : Lowering α) (s : Scope) : Visits x s [] s
  | done {α : Type} {x : Lowering α} {s s' : Scope} {ops : List Op} {r : Except LowerError α} :
    Ends x s ops r s' → Visits x s ops s'
  | first {α β : Type} {x : Lowering α} {f : α → Lowering β} {s s' : Scope} {ops : List Op} :
    Visits x s ops s' → Visits (x >>= f) s ops s'
  | second {α β : Type} {x : Lowering α} {f : α → Lowering β} {s s₁ s' : Scope}
    {ops ops' : List Op} {a : α} : Ends x s ops (.ok a) s₁ → Visits (f a) s₁ ops' s' →
      Visits (x >>= f) s (ops ++ ops') s'

variable {α β : Type} {x : Lowering α} {s s' : Scope} {ops : List Op} {r : Except LowerError α}

theorem Ends.result (hx : Ends x s ops r s') : x s = r.map (·, s') := by
  induction hx with
  | still hx _ => exact hx
  | fail => rfl
  | value hx =>
    unfold Lowering.value
    rw [hx]
    rfl
  | @take _ _ taking s _ =>
    unfold Lowering.take
    rcases taking s.frame with ⟨_ | _, _⟩ <;> rfl
  | @bind _ _ x f s _ _ _ _ _ _ _ _ ih₁ ih₂ =>
    change (x s >>= fun p => f p.1 p.2) = _
    rw [ih₁]
    exact ih₂
  | @stop _ _ x f s _ _ _ _ ih =>
    change (x s >>= fun p => f p.1 p.2) = _
    rw [ih]
    rfl

theorem Ends.frame (hx : Ends x s ops r s') (h : History) (hs : s.frame = h.frame) :
    s'.frame = (ops.foldl History.perform h).frame := by
  induction hx generalizing h with
  | still _ hframe => exact hframe.trans hs
  | fail | value => exact hs
  | take s htakes =>
    rw [List.foldl_cons, List.foldl_nil, htakes.frame, ← hs]
  | bind _ _ ih₁ ih₂ =>
    rw [List.foldl_append]
    exact ih₂ _ (ih₁ h hs)
  | stop _ ih => exact ih h hs

theorem Visits.frame (hx : Visits x s ops s') (h : History) (hs : s.frame = h.frame) :
    s'.frame = (ops.foldl History.perform h).frame := by
  induction hx generalizing h with
  | start => exact hs
  | done hends => exact hends.frame h hs
  | first _ ih => exact ih h hs
  | second hends _ ih =>
    rw [List.foldl_append]
    exact ih _ (hends.frame h hs)

/-- The points that a step comes through are those between its operations. -/
theorem Ends.exists_visits (hx : Ends x s ops r s') {done : List Op} (hdone : done <+: ops) :
    ∃ s₁, Visits x s done s₁ := by
  induction hx generalizing done with
  | still | fail | value =>
    obtain rfl := List.prefix_nil.mp hdone
    exact ⟨_, .start _ _⟩
  | take s htakes =>
    rcases List.prefix_cons_iff.mp hdone with rfl | ⟨rest, rfl, hrest⟩
    · exact ⟨_, .start _ _⟩
    · obtain rfl := List.prefix_nil.mp hrest
      exact ⟨_, .done (.take s htakes)⟩
  | @bind _ _ x f s s₁ s' ops ops' a r hends _ ih₁ ih₂ =>
    rcases List.prefix_or_prefix_of_prefix hdone (List.prefix_append ops ops') with hdone' | hdone'
    · obtain ⟨s₂, hvisits⟩ := ih₁ hdone'
      exact ⟨s₂, .first hvisits⟩
    · obtain ⟨rest, rfl⟩ := hdone'
      obtain ⟨s₂, hvisits⟩ := ih₂ ((List.prefix_append_right_inj ops).mp hdone)
      exact ⟨s₂, .second hends hvisits⟩
  | stop _ ih =>
    obtain ⟨s₂, hvisits⟩ := ih hdone
    exact ⟨s₂, .first hvisits⟩

/-! ## The operations of lowering -/

/-- All that the step does to frames is operations that fit. -/
def Recorded (x : Lowering α) : Prop :=
  ∀ s, ∃ ops r s', (∀ op ∈ ops, op.Fits) ∧ Ends x s ops r s'

theorem Recorded.seq {f : α → Lowering β} (hx : x.Recorded)
    (hf : ∀ a, x.Gives a → (f a).Recorded) : (x >>= f).Recorded := by
  intro s
  obtain ⟨ops, r, s₁, hfits, hends⟩ := hx s
  cases r with
  | error e => exact ⟨ops, .error e, s₁, hfits, .stop hends⟩
  | ok a =>
    obtain ⟨ops', r, s', hfits', hends'⟩ := hf a ⟨s, s₁, hends.result⟩ s₁
    exact ⟨ops ++ ops', r, s', List.forall_mem_append.mpr ⟨hfits, hfits'⟩, .bind hends hends'⟩

theorem recorded_of_frame (hx : ∀ s, ∃ a s', x s = .ok (a, s') ∧ s'.frame = s.frame) :
    x.Recorded := by
  intro s
  obtain ⟨a, s', hx, hframe⟩ := hx s
  exact ⟨[], .ok a, s', List.forall_mem_nil _, .still hx hframe⟩

theorem recorded_value (e : Expr) : (value e).Recorded := by
  intro s
  cases he : Lower.expr s 0 e with
  | error error => exact ⟨[], .error error, s, List.forall_mem_nil _, .value he⟩
  | ok c =>
    have hvalue := (value_ok e c s s).mpr ⟨he, rfl⟩
    exact ⟨[], .ok c, s, List.forall_mem_nil _, .still hvalue rfl⟩

theorem recorded_take {op : Op} {taking : Frame → Frame.Taking α} (htakes : op.Takes taking)
    (hfits : op.Fits) : (take taking).Recorded :=
  fun s => ⟨[op], _, _, List.forall_mem_singleton.mpr hfits, .take s htakes⟩

/-- The operations of lowering fit. -/
theorem declaring_recorded : Declaring fun _ x => x.Recorded where
  pure a := recorded_of_frame fun s => ⟨a, s, rfl, rfl⟩
  scope := recorded_of_frame fun s => ⟨s, s, rfl, rfl⟩
  expr := recorded_value
  label _ := recorded_of_frame fun _ => ⟨_, _, rfl, rfl⟩
  fail {_ e} _ := fun s => ⟨[], .error e, s, List.forall_mem_nil _, .fail s e⟩
  seq := Recorded.seq
  scratch count := recorded_take (.scratch count) trivial
  assign name {shape} h := recorded_take (.assign name shape) h
  place name {count shape} h := recorded_take (.place name count shape) h
  hidden := recorded_take .hidden trivial
  enum _ _ := recorded_of_frame fun _ => ⟨_, _, rfl, rfl⟩

end Lowering

/-! ## Lowered programs -/

namespace Lower

open Lowering

/-- What is lowered in the frame of a function. -/
def functionBody (f : Function) : Lowering Code := do
  return (← parameters 0 f.params) ++ (← block f.body)

/-- While the program is lowered, a frame is opened, and the step is done in it. -/
inductive Opens (p : Program) : Scope → Lowering Code → Prop
  | function {d : Declared} {before after : List (String × Function)} {name : String}
    {f : Function} {c : Code} {s : Session} : Declared.ofStatements p.statements = .ok d →
      d.bodies = before ++ (name, f) :: after → functions before d.session = .ok (c, s) →
        Opens p (s.enter true) (functionBody f)
  | main {d : Declared} {c : Code} {s : Session} : Declared.ofStatements p.statements = .ok d →
    functions d.bodies d.session = .ok (c, s) →
      Opens p (s.enter false) (block (p.statements.filter fun st => !isFunction st))

/-- What is lowered for a program, each in a frame of its own. -/
def bodySteps (p : Program) (d : Declared) : List (Lowering Code) :=
  d.bodies.map (fun f => functionBody f.2) ++ [block (p.statements.filter fun st => !isFunction st)]

variable {p : Program} {s : Scope} {body : Lowering Code}

theorem Opens.frame (h : Opens p s body) : s.frame = .empty := by
  cases h <;> rfl

theorem Opens.recorded (h : Opens p s body) : body.Recorded := by
  have hQ := declaring_recorded
  cases h with
  | @function _ _ _ _ f =>
    exact hQ.bind (hQ.parameters 0 f.params) fun _ => hQ.bind (hQ.block f.body) fun _ => hQ.pure _
  | main => exact hQ.block _

theorem functions_append (fs gs : List (String × Function)) :
    functions (fs ++ gs) = (do return (← functions fs) ++ (← functions gs)) := by
  induction fs with
  | nil => simp [functions]
  | cons f rest ih =>
    simp only [List.cons_append, functions, ih, bind_assoc, pure_bind, List.append_assoc]

theorem exists_opens {l : Asm.Listing} (h : p.lower = .ok l) :
    ∃ d, Declared.ofStatements p.statements = .ok d ∧ ∀ body ∈ bodySteps p d,
      ∃ s c s', Opens p s body ∧ body s = .ok (c, s') := by
  simp only [Program.lower, bind_eq_ok] at h
  obtain ⟨d, hd, ⟨c, _⟩, hbodies, -⟩ := h
  simp only [bind_ok, pure_ok] at hbodies
  obtain ⟨c₁, s₁, hfunctions, c₂, s₂, hmain, -, -⟩ := hbodies
  refine ⟨d, hd, fun body hbody => ?_⟩
  rcases List.mem_append.mp hbody with hbody | hbody
  · obtain ⟨⟨name, f⟩, hmem, rfl⟩ := List.mem_map.mp hbody
    obtain ⟨before, after, hsplit⟩ := List.append_of_mem hmem
    rw [hsplit, functions_append] at hfunctions
    simp only [functions, bind_ok, pure_ok] at hfunctions
    obtain ⟨_, s, hbefore, _, _, ⟨_, _, hfunction, -⟩, -⟩ := hfunctions
    obtain ⟨_, _, s', params, code, -, hparams, hcode, -⟩ := function_ok _ _ _ _ _ hfunction
    refine ⟨_, params ++ code, s', .function hd hsplit hbefore, ?_⟩
    simp only [functionBody, bind_ok, pure_ok]
    exact ⟨params, _, hparams, code, s', hcode, rfl, rfl⟩
  · obtain rfl := List.mem_singleton.mp hbody
    obtain ⟨s', code, hcode, -⟩ := mainBody_ok _ _ _ _ hmain
    exact ⟨_, code, s', .main hd hfunctions, hcode⟩

/-- No sequence of operations gives a slot of a frame away twice, and lowering a program does not
at any point, whether it fails or not. -/
theorem slots_apart :
    (∀ ops : List Op, (∀ op ∈ ops, op.Fits) → (History.after ops).Apart) ∧
    (∀ p s body, Opens p s body →
      (∃ ops r s', (∀ op ∈ ops, op.Fits) ∧ body.Ends s ops r s' ∧ body s = r.map (·, s') ∧
        ∀ done, done <+: ops → ∃ s₁, body.Visits s done s₁ ∧
          s₁.frame = (History.after done).frame ∧ (History.after done).Apart) ∧
      ∀ ops s', body.Visits s ops s' → (∀ op ∈ ops, op.Fits) →
        s'.frame = (History.after ops).frame ∧ (History.after ops).Apart) ∧
    ∀ p l, p.lower = .ok l → ∃ d, Declared.ofStatements p.statements = .ok d ∧
      ∀ body ∈ bodySteps p d, ∃ s c s', Opens p s body ∧ body s = .ok (c, s') := by
  refine ⟨History.apart_after, fun p s body hopens => ?_, fun p l => exists_opens⟩
  have hvisited (ops : List Op) (s' : Scope) (hvisits : body.Visits s ops s')
      (hfits : ∀ op ∈ ops, op.Fits) :
      s'.frame = (History.after ops).frame ∧ (History.after ops).Apart :=
    ⟨hvisits.frame .empty hopens.frame, History.apart_after ops hfits⟩
  obtain ⟨ops, r, s', hfits, hends⟩ := hopens.recorded s
  refine ⟨⟨ops, r, s', hfits, hends, hends.result, fun done hdone => ?_⟩, hvisited⟩
  obtain ⟨s₁, hvisits⟩ := hends.exists_visits hdone
  exact ⟨s₁, hvisits, hvisited done s₁ hvisits fun op hop => hfits op (hdone.subset hop)⟩

/-- A variable that grows, shrinks to nothing and becomes a number, between requests of which some
fail. -/
def regrown : List Op :=
  [.assign "x" (.scalar .int), .scratch 4, .place "x" 3 fun base => .array ⟨base, 3, .int, none⟩,
    .hidden, .place "y" 0 fun base => .array ⟨base, 0, .int, none⟩,
    .place "z" 300 fun base => .array ⟨base, 300, .int, none⟩,
    .place "x" 2 fun base => .tuple [(base.nth 0, .int), (base.nth 1, .bool)],
    .assign "y" (.enumCase "color"), .span "y" 240, .scratch 9]

/-- A program with the same, and with loops. -/
def regrowing : Program where
  statements :=
    [.decl "x" (.array [.int 1, .int 2]), .print (.var "x"), .decl "x" (.array []),
      .decl "x" (.dict [(.str "a", .array []), (.str "b", .bool true)]),
      .loop "i" (.counted (.int 0) (.int 2)) [.decl "x" (.tuple [.int 1, .int 2, .int 3])]]

theorem regrown_apart : (History.after regrown).Apart ∧
    ∃ l, regrowing.lower = .ok l ∧ ∃ d, Declared.ofStatements regrowing.statements = .ok d ∧
      ∀ body ∈ bodySteps regrowing d, ∃ s ops c s', Opens regrowing s body ∧
        body.Ends s ops (.ok c) s' ∧ s'.frame = (History.after ops).frame ∧
          (History.after ops).Apart := by
  obtain ⟨hops, hopened, hlowered⟩ := slots_apart
  refine ⟨hops regrown ?_, ?_⟩
  · have hpair (base : Slot) : [base.nth 0, base.nth 1] = base.run 2 := rfl
    simp [regrown, Op.Fits, Shape.scalar?, Shape.cells, hpair]
  · obtain ⟨l, hlower⟩ : ∃ l, regrowing.lower = .ok l := exists_ok_of_isOk (by decide +kernel)
    obtain ⟨d, hd, hbodies⟩ := hlowered regrowing l hlower
    refine ⟨l, hlower, d, hd, fun body hbody => ?_⟩
    obtain ⟨s, c, s₁, hopens, hok⟩ := hbodies body hbody
    obtain ⟨⟨ops, r, s', hfits, hends, hresult, -⟩, hvisits⟩ := hopened regrowing s body hopens
    cases r with
    | error e =>
      rw [hok] at hresult
      cases hresult
    | ok c' => exact ⟨s, ops, c', s', hopens, hends, hvisits ops s' (.done hends) hfits⟩

end Lower

end Armature
