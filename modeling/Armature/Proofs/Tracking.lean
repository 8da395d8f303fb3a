import Armature.Proofs.Bodies
import Armature.Proofs.Literals
import Armature.Proofs.Steps

/-!
# Shapes along a run

The shapes that are known for variables are those of their values at the end of every block whose
branches and loops keep shapes.
-/

namespace Armature

/-! ## Steps that declare nothing -/

namespace Lowering

variable {α β : Type}

/-- The step leaves all variables and enums as they are. -/
def Tacit (x : Lowering α) : Prop :=
  ∀ s a s', x s = .ok (a, s') → s'.frame.symbols = s.frame.symbols ∧ s'.enums = s.enums

theorem Tacit.seq {x : Lowering α} {f : α → Lowering β} (hx : x.Tacit)
    (hf : ∀ a, x.Gives a → (f a).Tacit) : (x >>= f).Tacit := by
  intro s b s' h
  obtain ⟨a, s₁, h₁, h₂⟩ := (bind_ok _ _ _ _).mp h
  obtain ⟨hsymbols, henums⟩ := hx s a s₁ h₁
  obtain ⟨hsymbols', henums'⟩ := hf a ⟨s, s₁, h₁⟩ s₁ b s' h₂
  exact ⟨hsymbols'.trans hsymbols, henums'.trans henums⟩

theorem Still.tacit {x : Lowering α} (h : x.Still) : x.Tacit := by
  intro s a s' hx
  rw [h s a s' hx]
  exact ⟨rfl, rfl⟩

theorem symbols_growScratch (missing : Nat) (f f' : Frame) (r : Except Resource Unit)
    (h : Frame.growScratch missing f = (r, f')) : f'.symbols = f.symbols := by
  induction missing generalizing f with
  | zero =>
    cases h
    rfl
  | succ missing ih =>
    rw [Frame.growScratch] at h
    cases hhidden : f.hidden with
    | mk slot f₁ =>
      cases slot with
      | ok slot =>
        rw [hhidden] at h
        obtain ⟨-, -, rfl⟩ := Frame.reserve_ok hhidden
        have hsymbols := ih _ h
        exact hsymbols
      | error e =>
        rw [hhidden] at h
        cases h
        unfold Frame.hidden Frame.reserve at hhidden
        split at hhidden <;> cases hhidden
        rfl

theorem tacit_scratchSlots (count : Nat) : (take (·.scratchSlots count)).Tacit := by
  intro s slots s' h
  obtain ⟨frame, hframe, rfl⟩ := (take_ok _ _ _ _).mp h
  unfold Frame.scratchSlots at hframe
  split at hframe
  · rename_i f hgrow
    cases hframe
    exact ⟨symbols_growScratch _ _ _ _ hgrow, rfl⟩
  · cases hframe

theorem scribbling_tacit : Scribbling fun _ x => x.Tacit :=
  .ofStill Still.tacit Tacit.seq tacit_scratchSlots

end Lowering

namespace Lower

open Asm (Code)
open Lowering

theorem tacit_print (e : Expr) : (print e).Tacit := scribbling_tacit.print e

/-! ## Names and shapes of a scope -/

theorem Tacit.named {α : Type} {x : Lowering α} (h : x.Tacit) {isEnum : String → Bool} {a : α}
    {s s' : Scope} (hx : x s = .ok (a, s')) (hs : s.Named isEnum) : s'.Named isEnum := by
  obtain ⟨hsymbols, henums⟩ := h s a s' hx
  refine ⟨by rw [henums]; exact hs.enums, ?_⟩
  intro name symbol hsymbol
  rw [Frame.lookup, hsymbols] at hsymbol
  exact hs.symbols name symbol hsymbol

theorem named_bind {isEnum : String → Bool} {f f' : Frame} {name : String} {symbol : Symbol}
    (hf : f.Named isEnum) (hname : isEnum name = false)
    (hlookup : ∀ other, f'.lookup other = if name = other then some symbol else f.lookup other) :
    f'.Named isEnum := by
  intro other symbol' hs
  rw [hlookup] at hs
  split at hs
  · rename_i heq
    rw [← heq, hname]
  · exact hf other symbol' hs

theorem lookup_hidden {f f' : Frame} {slot : Slot} (h : f.hidden = (.ok slot, f')) :
    f'.lookup = f.lookup := by
  obtain ⟨-, -, rfl⟩ := Frame.reserve_ok h
  rfl

theorem loop_body {var : String} {start stop : Expr} {body : Lowering Code} {c : Code}
    {s s' : Scope} (h : loop var start stop body s = .ok (c, s')) :
    ∃ startCode stopCode code symbol frame, symbol.shape = .scalar .int ∧
      (∀ other, frame.lookup other = if var = other then some symbol else s.frame.lookup other) ∧
      (s.inLoop var).frame.lookup = frame.lookup ∧
      expr s 0 start = .ok ⟨.int, startCode⟩ ∧
      expr { s with frame } 0 stop = .ok ⟨.int, stopCode⟩ ∧
      body (s.inLoop var) = .ok (code, s') := by
  obtain ⟨startCode, counter, frame₁, stopCode, stopSlot, frame₂, loopCode, hstart, hcounter, hstop,
    hslot, hloop, -⟩ := loop_ok var start stop body c s s' h
  obtain ⟨code, top, done, -, -, hcode, -⟩ := countedLoop_ok _ _ _ _ _ _ hloop
  obtain ⟨symbol, -, hshape, hlookup⟩ := Frame.assign_lookup hcounter
  have hscope : s.inLoop var = { s with
      frame := frame₂
      labels := ((s.labels.create .loopTop).2.create .loopEnd).2 } := by
    rw [Scope.inLoop, hcounter, hslot]
  refine ⟨startCode, stopCode, code, symbol, frame₁, hshape, hlookup, ?_, hstart, hstop, ?_⟩
  · rw [hscope]
    exact lookup_hidden hslot
  · rw [hscope]
    exact hcode

mutual

theorem stmt_named {isEnum : String → Bool} (st : Stmt) (c : Code) (s s' : Scope)
    (h : stmt st s = .ok (c, s')) (hs : s.Named isEnum) (hst : st.distinct isEnum = true) :
    s'.Named isEnum := by
  match st with
  | .print e =>
    rw [stmt] at h
    exact Tacit.named (tacit_print e) h hs
  | .decl name e =>
    rw [stmt] at h
    simp only [Stmt.distinct, Bool.and_eq_true, Bool.not_eq_true'] at hst
    obtain ⟨frame, symbol, rfl, -, hlookup⟩ := declare_shaped h
    exact ⟨hs.enums, named_bind hs.symbols hst.1 hlookup⟩
  | .loop var (.counted start stop) body =>
    rw [stmt] at h
    simp only [Stmt.distinct, Bool.and_eq_true, Bool.not_eq_true'] at hst
    obtain ⟨_, _, code, symbol, frame, -, hlookup, hframe, -, -, hcode⟩ := loop_body h
    refine block_named body code _ s' hcode ⟨hs.enums, ?_⟩ hst.2
    intro name symbol' hsymbol
    rw [hframe] at hsymbol
    exact named_bind hs.symbols hst.1 hlookup name symbol' hsymbol
  | .cond test thenBody none =>
    obtain ⟨_, _, thenCode, -, -, hthen, -⟩ := cond_none_ok test thenBody c s s' h
    exact block_named thenBody thenCode _ s' hthen ⟨hs.enums, hs.symbols⟩ hst
  | .cond test thenBody (some elseBody) =>
    simp only [Stmt.distinct, Bool.and_eq_true] at hst
    obtain ⟨_, _, _, thenCode, elseCode, s₁, -, -, -, hthen, helse, -⟩ :=
      cond_some_ok test thenBody elseBody c s s' h
    have hs₁ := block_named thenBody thenCode _ s₁ hthen ⟨hs.enums, hs.symbols⟩ hst.1
    exact block_named elseBody elseCode _ s' helse ⟨hs₁.enums, hs₁.symbols⟩ hst.2
  | .enum name cases =>
    cases h
    refine ⟨?_, hs.symbols⟩
    intro other cases' hcases
    by_cases heq : name = other
    · rw [← heq]
      exact hst
    · rw [Bindings.get?_set_of_ne _ _ heq] at hcases
      exact hs.enums other cases' hcases
  | .ret e =>
    rw [stmt] at h
    obtain ⟨_, _, -, -, rfl, -⟩ := ret_ok e c s s' h
    exact hs
  | .expr e =>
    rw [stmt] at h
    exact Tacit.named (scribbling_tacit.value e fun _ => scribbling_tacit.pure _) h hs
  | .loop _ (.collection _) _ | .loop _ (.condition _) _ | .func .. | .tryCatch .. | .throw _ =>
    rw [stmt] at h
    cases h

theorem block_named {isEnum : String → Bool} (body : List Stmt) (c : Code) (s s' : Scope)
    (h : block body s = .ok (c, s')) (hs : s.Named isEnum)
    (hbody : Stmt.allDistinct isEnum body = true) : s'.Named isEnum := by
  match body with
  | [] =>
    obtain ⟨-, rfl⟩ := (Lowering.pure_ok _ _ _ _).mp h
    exact hs
  | st :: rest =>
    simp only [Stmt.allDistinct, Bool.and_eq_true] at hbody
    obtain ⟨c₁, c₂, s₁, h₁, h₂, -⟩ := block_cons_ok st rest c s s' h
    exact block_named rest c₂ s₁ s' h₂ (stmt_named st c₁ s s₁ h₁ hs hbody.1) hbody.2

end

theorem block_keeps {body : List Stmt} {c : Code} {s s' : Scope}
    (h : block body s = .ok (c, s')) (hbody : Stmt.allSteady true body s = true) :
    s.frame.Keeps s'.frame := by
  induction body generalizing c s with
  | nil =>
    obtain ⟨-, rfl⟩ := (Lowering.pure_ok _ _ _ _).mp h
    exact .refl _
  | cons st rest ih =>
    obtain ⟨c₁, c₂, s₁, h₁, h₂, -⟩ := block_cons_ok st rest c s s' h
    rw [Stmt.allSteady, Bool.and_eq_true, Bool.and_eq_true] at hbody
    obtain ⟨⟨-, hkeeps⟩, hrest⟩ := hbody
    exact (keeps_of_keepsShapes hkeeps h₁).trans (ih h₂ (check_of_leaves hrest h₁))

theorem jumpUnless_expr {target : Asm.Label} {e : Expr} {c : Code} {s s' : Scope}
    (h : jumpUnless target e s = .ok (c, s')) : ∃ v, expr s 0 e = .ok v := by
  obtain ⟨-, ⟨v, hv, -⟩ | ⟨op, lhs, rhs, test, left, right, cond, code, rfl, htest, hleft, hright,
    hcode, -⟩⟩ := jumpUnless_ok target e c s s' h
  · exact ⟨v, hv⟩
  · have hlogical : op.isLogical = false := by
      cases op with
      | and | or => cases htest
      | _ => rfl
    refine ⟨⟨.bool, code ++ [.instr (.cset .x0 cond)]⟩, ?_⟩
    rw [expr, hleft, hright]
    change binary op left right = _
    have hcomparison : op.isComparison = true := by
      rw [← isSome_test?, htest]
      rfl
    rw [binary, hlogical, if_neg Bool.false_ne_true, if_pos hcomparison, hcode]
    rfl

/-- The two branches of a condition, each in its scope. The second may be missing. -/
structure Branches (looped : Bool) (thenBody elseBody : List Stmt) (s s₁ s₂ s' : Scope) : Prop where
  first : ∃ c, block thenBody s = .ok (c, s₁)
  firstSteady : Stmt.allSteady looped thenBody s = true
  firstKeeps : s.frame.Keeps s₁.frame
  between : s₂ = { s₁ with labels := s₂.labels }
  second : ∃ c, block elseBody s₂ = .ok (c, s')
  secondSteady : Stmt.allSteady looped elseBody s₂ = true
  secondKeeps : s₁.frame.Keeps s'.frame

theorem cond_branches {looped : Bool} {test : Expr} {thenBody : List Stmt}
    {elseBody : Option (List Stmt)} {c : Code} {s s' : Scope}
    (h : stmt (.cond test thenBody elseBody) s = .ok (c, s'))
    (hsteady : (Stmt.cond test thenBody elseBody).steady looped s = true) :
    (∃ v, expr (s.labelled .otherwise) 0 test = .ok v) ∧
      ∃ s₁ s₂, Branches looped thenBody (elseBody.getD []) (s.labelled .otherwise) s₁ s₂ s' := by
  cases elseBody with
  | none =>
    rw [Stmt.steady, Bool.and_eq_true] at hsteady
    obtain ⟨_, _, thenCode, -, htest, hthen, -⟩ := cond_none_ok test thenBody c s s' h
    have hthen : block thenBody (s.labelled .otherwise) = .ok (thenCode, s') := hthen
    exact ⟨jumpUnless_expr htest, s', s', ⟨thenCode, hthen⟩, hsteady.1,
      keeps_of_keepsShapes hsteady.2 hthen, rfl, ⟨[], rfl⟩, rfl, .refl _⟩
  | some elseBody =>
    rw [Stmt.steady, Bool.and_eq_true, Bool.and_eq_true] at hsteady
    obtain ⟨⟨hsteady₁, hkeeps₁⟩, hsecond⟩ := hsteady
    obtain ⟨_, _, _, thenCode, elseCode, s₁, -, -, htest, hthen, helse, -⟩ :=
      cond_some_ok test thenBody elseBody c s s' h
    have hthen : block thenBody (s.labelled .otherwise) = .ok (thenCode, s₁) := hthen
    have helse : block elseBody (s₁.labelled .endIf) = .ok (elseCode, s') := helse
    have hsecond := check_of_leaves hsecond hthen
    rw [Bool.and_eq_true] at hsecond
    have hkeeps₂ := keeps_of_keepsShapes hsecond.2 helse
    exact ⟨jumpUnless_expr htest, s₁, s₁.labelled .endIf, ⟨thenCode, hthen⟩, hsteady₁,
      keeps_of_keepsShapes hkeeps₁ hthen, rfl, ⟨elseCode, helse⟩, hsecond.1, hkeeps₂⟩

end Lower

end Armature
