import Armature.Lower.Scope

/-!
# Sessions

What lowering keeps from one body of a program to the next. A frame is opened for each body and
closed at its end. Between two bodies there is none.
-/

namespace Armature

open Asm (LabelTable)

structure Session where
  functions : Bindings Callee
  enums : Bindings (List String)
  labels : LabelTable
  /-- The open frame. -/
  current : Option Activation

/-- What is in scope in the open frame. -/
def Session.scope? (s : Session) : Option Scope :=
  s.current.map fun activation => ⟨activation, s.functions, s.enums, s.labels⟩

/-- What is in scope at the start of a body. -/
def Session.enter (s : Session) (inFunction : Bool) : Scope :=
  let (done, labels) := s.labels.create .functionReturn
  ⟨⟨.empty, inFunction, done⟩, s.functions, s.enums, labels⟩

namespace Scope

/-- The session while the frame is open. -/
def session (s : Scope) : Session := ⟨s.functions, s.enums, s.labels, some s.toActivation⟩

/-- The session once the frame is closed. -/
def leave (s : Scope) : Session := ⟨s.functions, s.enums, s.labels, none⟩

end Scope

abbrev SessionM := StateT Session (Except LowerError)

namespace SessionM

/-- A function that must have been declared. -/
def declared (name : String) : SessionM Callee := fun s =>
  match s.functions.get? name with
  | some callee => .ok (callee, s)
  | none => .error (.internal (.functionUndeclared name))

def openFrame (inFunction : Bool) : SessionM Unit := fun s => .ok ((), (s.enter inFunction).session)

/-- Lowers in the frame that is open. -/
def inFrame {α : Type} (step : Lowering α) : SessionM α := fun s =>
  match s.scope? with
  | none => .error (.internal .noFrame)
  | some scope => do
    let (a, scope) ← step scope
    return (a, scope.session)

def closeFrame : SessionM Activation := fun s =>
  match s.current with
  | none => .error (.internal .noFrame)
  | some activation => .ok (activation, { s with current := none })

end SessionM

end Armature
