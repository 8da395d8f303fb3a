import Armature.Asm.Line
import Armature.Lower.Frame

/-!
# What is in scope

Lowering goes through a program once, from its start to its end. It keeps what has been declared so
far, and stops at the first construct that it must refuse.
-/

namespace Armature

open Asm (Label LabelTable Purpose)

/-- What a call needs to know of a function. -/
structure Callee where
  entry : Label
  arity : Nat

/-- The frame of the body that is being lowered. -/
structure Activation where
  frame : Frame
  /-- Whether the body is that of a function. -/
  inFunction : Bool
  /-- The label of the end of the body. -/
  done : Label

/-- What is in scope in a body. -/
structure Scope extends Activation where
  functions : Bindings Callee
  /-- The cases of each enum. -/
  enums : Bindings (List String)
  labels : LabelTable

/-- Where a return statement goes. It is not allowed outside functions. -/
def Scope.returnTo (s : Scope) : Option Label := if s.inFunction then some s.done else none

/-- The slot and the shape of a variable. -/
def Scope.shape? (s : Scope) (name : String) : Option (Slot × Shape) :=
  (s.frame.lookup name).map fun symbol => (symbol.slot, symbol.shape)

/-- The cases that a name stands for, if it is that of an enum and of no variable. -/
def Scope.enum? (s : Scope) (name : String) : Option (List String) :=
  if (s.shape? name).isSome then none else s.enums.get? name

abbrev Lowering := StateT Scope (Except LowerError)

namespace Lowering

def fail {α : Type} (e : LowerError) : Lowering α := fun _ => .error e

def refuse {α : Type} (c : Construct) : Lowering α := fail (.unsupported c)

def newLabel (purpose : Purpose) : Lowering Label := fun s =>
  let (label, labels) := s.labels.create purpose
  .ok (label, { s with labels })

/-- Takes slots of the current frame. -/
def take {α : Type} (taking : Frame → Frame.Taking α) : Lowering α := fun s =>
  match taking s.frame with
  | (.ok a, frame) => .ok (a, { s with frame })
  | (.error r, _) => .error (.exhausted r)

def bind (name : String) (symbol : Symbol) : Lowering Unit := fun s =>
  .ok ((), { s with frame := s.frame.bind name symbol })

end Lowering

end Armature
