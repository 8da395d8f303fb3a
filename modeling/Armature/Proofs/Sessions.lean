import Armature.Proofs.Evaluation

/-!
# Sessions

A session runs programs and evaluates expressions one after the other on one state. What a step
did until it failed stays for the next one. However the steps end, each closes the frames that it
opened.
-/

namespace Armature

/-- The variables of all open calls, innermost first. -/
def State.frames (s : State) : List Locals := s.locals :: s.callers

/-- The error that a run ended with. -/
def Outcome.error? {α : Type} : Outcome α → Option RuntimeError
  | failed e _ => some e
  | _ => none

namespace Session

inductive Step where
  | run (p : Program)
  | eval (e : Expr)

/-- The state that a step ends in, be it with an error. There is none if the fuel is used up. -/
def Step.after? (fuel : Fuel) (s : State) : Step → Option State
  | run p => (Run.program fuel p s).state?
  | eval e => (Run.eval fuel e s).state?

def after? (fuel : Fuel) (s : State) (steps : List Step) : Option State :=
  steps.foldlM (Step.after? fuel) s

end Session

/-! ## What is kept -/

namespace State

variable {s s' : State}

theorem SameFrames.frames_eq (h : s.SameFrames s') : s'.frames = s.frames := by
  unfold frames
  rw [h.locals, h.callers]

theorem SameCallers.tail_frames (h : s.SameCallers s') : s'.frames.tail = s.frames.tail := by
  simpa [frames] using h.callers

theorem SameCallers.length_frames (h : s.SameCallers s') :
    s'.frames.length = s.frames.length := by
  simp [frames, h.callers]

end State

namespace Run

open State (SameCallers)

theorem relates_declare (st : Stmt) : Relates SameCallers (declare st) := by
  cases st with
  | func | enum => exact relates_update _ fun _ => ⟨rfl, "", by simp⟩
  | _ => exact relates_pure lasting_sameCallers _

theorem relates_execTop (fuel : Fuel) (st : Stmt) : Relates SameCallers (execTop fuel st) := by
  cases st with
  | func => exact relates_pure lasting_sameCallers _
  | _ => exact (frames_kept fuel.rounds fuel.depth).2 _

theorem relates_program (fuel : Fuel) (p : Program) : Relates SameCallers (program fuel p) := by
  have hR := lasting_sameCallers
  refine (relates_mapAll hR _ p.statements fun st _ => relates_declare st).bind hR fun _ => ?_
  refine (relates_forEach hR _ p.statements fun st _ => relates_execTop fuel st).bind hR
    fun flow => ?_
  cases flow with
  | next => exact relates_pure hR _
  | returned v => exact relates_fail hR _

end Run

namespace Session

open State (SameCallers)

theorem step_sameCallers {fuel : Fuel} {step : Step} {s s' : State}
    (h : step.after? fuel s = some s') : s.SameCallers s' := by
  cases step with
  | run p => exact Run.relates_program fuel p s s' h
  | eval e =>
    apply Run.sameCallers_of_sameFrames
    exact (Run.frames_kept fuel.rounds fuel.depth).1 e s s' h

theorem after_kept {P : State → Prop} {fuel : Fuel}
    (hstep : ∀ (step : Step) s s', P s → step.after? fuel s = some s' → P s') {steps : List Step}
    {s s' : State} (h : after? fuel s steps = some s') (hs : P s) : P s' := by
  induction steps generalizing s with
  | nil =>
    cases h
    exact hs
  | cons step rest ih =>
    unfold after? at h
    rw [List.foldlM_cons, Option.bind_eq_bind, Option.bind_eq_some_iff] at h
    obtain ⟨s₁, hfirst, hrest⟩ := h
    exact ih hrest (hstep step s s₁ hs hfirst)

theorem after_sameCallers {fuel : Fuel} {steps : List Step} {s s' : State}
    (h : after? fuel s steps = some s') : s.SameCallers s' := by
  have hR := Run.lasting_sameCallers
  refine after_kept (P := s.SameCallers) (fun step s₁ s₂ hs₁ hstep => ?_) h (hR.refl s)
  exact hR.trans s s₁ s₂ hs₁ (step_sameCallers hstep)

/-- An expression leaves all frames as they were, whether it has a value or fails, and adds to the
output only. A statement or a block leaves all frames but the innermost, and a session is back in
its only frame after each step. -/
theorem frames_balanced (fuel : Fuel) :
    (∀ e s s', (Run.eval fuel e s).state? = some s' →
      s'.frames = s.frames ∧ ∃ text, s'.output = s.output ++ text) ∧
    (∀ st s s', (Run.exec fuel st s).state? = some s' →
      s'.frames.length = s.frames.length ∧ s'.frames.tail = s.frames.tail) ∧
    (∀ body s s', (Run.forEach (Run.exec fuel) body s).state? = some s' →
      s'.frames.length = s.frames.length ∧ s'.frames.tail = s.frames.tail) ∧
    ∀ steps s, after? fuel .initial steps = some s → s.frames.length = 1 := by
  obtain ⟨heval, hexec⟩ := Run.frames_kept fuel.rounds fuel.depth
  refine ⟨?_, ?_, ?_, ?_⟩
  · intro e s s' h
    have hsame := heval e s s' h
    exact ⟨hsame.frames_eq, hsame.output⟩
  · intro st s s' h
    have hsame := hexec st s s' h
    exact ⟨hsame.length_frames, hsame.tail_frames⟩
  · intro body s s' h
    have hsame := Run.relates_block hexec body s s' h
    exact ⟨hsame.length_frames, hsame.tail_frames⟩
  · intro steps s h
    exact (after_sameCallers h).length_frames

/-- Calls a function that calls itself, and fails in the innermost call. -/
def sinking : Program where
  statements :=
    [.func "sink" ["n"]
        [.print (.var "n"),
          .cond (.binary .eq (.var "n") (.int 0)) [.ret (.var "ground")] none,
          .loop "i" (.counted (.int 0) (.int 2))
            [.expr (.call "sink" [.binary .sub (.var "n") (.int 1)])]],
      .decl "ground" (.int 7),
      .decl "x" (.array [.int 1, .call "sink" [.int 3]])]

def plunge : Expr := .call "sink" [.int 2]

theorem sinking_balanced :
    (∃ s, after? ⟨30, 9⟩ .initial [.run sinking, .eval plunge, .eval (.var "ground")] = some s ∧
      s.frames.length = 1) ∧
    ∃ s s', after? ⟨30, 9⟩ .initial [.run sinking] = some s ∧
      Run.eval ⟨30, 9⟩ plunge s = .failed (.undefinedVariable "ground") s' ∧
        s'.frames = s.frames := by
  obtain ⟨heval, -, -, hsession⟩ := frames_balanced ⟨30, 9⟩
  constructor
  · have hends : (after? ⟨30, 9⟩ .initial
        [.run sinking, .eval plunge, .eval (.var "ground")]).isSome = true := by
      decide +kernel
    obtain ⟨s, hs⟩ := Option.isSome_iff_exists.mp hends
    exact ⟨s, hs, hsession _ s hs⟩
  · have hfails : ((after? ⟨30, 9⟩ .initial [.run sinking]).bind fun s =>
        (Run.eval ⟨30, 9⟩ plunge s).error?) = some (.undefinedVariable "ground") := by
      decide +kernel
    obtain ⟨s, hs, herror⟩ := Option.bind_eq_some_iff.mp hfails
    cases hrun : Run.eval ⟨30, 9⟩ plunge s with
    | failed e s' =>
      obtain rfl : e = .undefinedVariable "ground" := by
        simpa [hrun, Outcome.error?] using herror
      have hstate : (Run.eval ⟨30, 9⟩ plunge s).state? = some s' := by
        rw [hrun]
        rfl
      exact ⟨s, s', hs, hrun, (heval plunge s s' hstate).1⟩
    | done v s' => simp [hrun, Outcome.error?] at herror
    | outOfFuel => simp [hrun, Outcome.error?] at herror

end Session

end Armature
