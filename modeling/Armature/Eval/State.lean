import Armature.Eval.Error

/-!
# The state of a run

A run reads and changes the tables of functions and enums, the frames of the open calls, and the
text printed so far. It may fail, and what it did until then stays. `Run` also has an outcome for
a run that was cut short because its fuel was used up.
-/

namespace Armature

abbrev Locals := Bindings Value

structure State where
  functions : Bindings Function
  enums : Bindings (List String)
  /-- The variables of the innermost call. -/
  locals : Locals
  /-- The variables of the calls around it, innermost first. -/
  callers : List Locals
  output : String

namespace State

def initial : State := ⟨[], [], [], [], ""⟩

/-- Opens a frame for a call. -/
def enter (args : Locals) (s : State) : State :=
  { s with locals := args, callers := s.locals :: s.callers }

/-- Closes the innermost frame. -/
def leave (s : State) : State :=
  match s.callers with
  | [] => s
  | caller :: rest => { s with locals := caller, callers := rest }

end State

inductive Outcome (α : Type) where
  | done (value : α) (state : State)
  | failed (error : RuntimeError) (state : State)
  | outOfFuel

def Run (α : Type) : Type := State → Outcome α

namespace Run

variable {α β : Type}

@[inline] protected def pure (a : α) : Run α := fun s => .done a s

@[inline] protected def bind (x : Run α) (f : α → Run β) : Run β := fun s =>
  match x s with
  | .done a s => f a s
  | .failed e s => .failed e s
  | .outOfFuel => .outOfFuel

instance : Monad Run where
  pure := Run.pure
  bind := Run.bind

def fail (e : RuntimeError) : Run α := fun s => .failed e s

def cutShort : Run α := fun _ => .outOfFuel

def lift : Except RuntimeError α → Run α
  | .ok a => pure a
  | .error e => fail e

def read (f : State → α) : Run α := fun s => .done (f s) s

def update (f : State → State) : Run Unit := fun s => .done () (f s)

/-! ## Steps on the state -/

def setVar (name : String) (v : Value) : Run Unit :=
  update fun s => { s with locals := s.locals.set name v }

def setFunction (name : String) (f : Function) : Run Unit :=
  update fun s => { s with functions := s.functions.set name f }

def setEnum (name : String) (cases : List String) : Run Unit :=
  update fun s => { s with enums := s.enums.set name cases }

def printLine (text : String) : Run Unit :=
  update fun s => { s with output := s.output ++ text ++ "\n" }

/-- A variable of the innermost call, or else the enum of that name. -/
def getVar (name : String) : Run Value := fun s =>
  match s.locals.get? name with
  | some v => .done v s
  | none =>
    match s.enums.get? name with
    | some cases => .done (.enum name cases) s
    | none => .failed (.undefinedVariable name) s

def getFunction (name : String) : Run Function := fun s =>
  match s.functions.get? name with
  | some f => .done f s
  | none => .failed (.undefinedFunction name) s

/-- The value of a counting variable, which must be an integer. -/
def getCounter (name : String) : Run Int64 := fun s =>
  match s.locals.get? name with
  | some (.int i) => .done i s
  | _ => .failed (.lostCounter name) s

/-- Runs `body` in a frame of its own, which is closed however the body ends. -/
def inFrame (args : Locals) (body : Run α) : Run α := fun s =>
  match body (s.enter args) with
  | .done a s => .done a s.leave
  | .failed e s => .failed e s.leave
  | .outOfFuel => .outOfFuel

end Run

end Armature
