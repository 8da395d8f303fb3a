import Armature.Eval.Operators
import Armature.Eval.State
import Armature.Text.Escape

/-!
# Running programs

Fuel bounds how deep evaluation nests and how often a loop repeats. Both sides of every operator
are evaluated, `&&` and `||` included. A function sees no variables but its own.
-/

namespace Armature

structure Fuel where
  /-- How deep evaluation may nest. -/
  depth : Nat
  /-- How often a loop may repeat. -/
  rounds : Nat

/-- How a statement ended. -/
inductive Flow where
  | next
  | returned (value : Value)

namespace Run

/-! ## Repetition -/

/-- Runs `step` on one item after the other, until it returns. -/
def forEach {α : Type} (step : α → Run Flow) : List α → Run Flow
  | [] => pure .next
  | a :: rest => do
    match ← step a with
    | .next => forEach step rest
    | .returned v => pure (.returned v)

/-- Repeats `step` until it says how the loop ends. -/
def repeated (step : Run (Option Flow)) : Nat → Run Flow
  | 0 => cutShort
  | fuel + 1 => do
    match ← step with
    | none => repeated step fuel
    | some flow => pure flow

def mapAll {α β : Type} (f : α → Run β) : List α → Run (List β)
  | [] => pure []
  | a :: rest => do
    let b ← f a
    let bs ← mapAll f rest
    pure (b :: bs)

/-! ## Pieces of expressions and statements -/

def asKey : Value → Run String
  | .str key => pure key
  | v => fail (.dictKey v.kind)

/-- A key that is given again takes the new value and keeps its place. -/
def dictFields (eval : Expr → Run Value) (fields : Bindings Value) :
    List (Expr × Expr) → Run (Bindings Value)
  | [] => pure fields
  | (key, value) :: rest => do
    let key ← asKey (← eval key)
    let value ← eval value
    dictFields eval (fields.set key value) rest

def partText : Part → Run String
  | .text source => pure (Escape.text source)
  | .var name => do return (← getVar name).text

def asBound (error : Kind → RuntimeError) : Value → Run Int64
  | .int i => pure i
  | v => fail (error v.kind)

/-- One round of a counted loop. The counter is read anew, since the body may change it. -/
def countedStep (var : String) (stop : Int64) (body : Run Flow) : Run (Option Flow) := do
  let i ← getCounter var
  if stop ≤ i then
    return some .next
  match ← body with
  | .returned v => return some (.returned v)
  | .next =>
    let i ← getCounter var
    setVar var (.int (i + 1))
    return none

def conditionStep (test : Run Value) (body : Run Flow) : Run (Option Flow) := do
  if !(← test).truthy then
    return some .next
  match ← body with
  | .returned v => return some (.returned v)
  | .next => return none

/-- A function that does not return has the value 0. -/
def result : Flow → Value
  | .next => .int 0
  | .returned v => v

def checkArity (name : String) (f : Function) (given : Nat) : Run Unit :=
  if f.params.length = given then pure () else fail (.arity name f.params.length given)

/-! ## Evaluation -/

mutual

def evalWithin (rounds : Nat) : Nat → Expr → Run Value
  | 0, _ => cutShort
  | depth + 1, e =>
    match e with
    | .int i => pure (.int i)
    | .float x => pure (.float x)
    | .str source => pure (.str (Escape.text source))
    | .bool b => pure (.bool b)
    | .nil => pure .nil
    | .var name => getVar name
    | .binary op lhs rhs => do
      let lhs ← evalWithin rounds depth lhs
      let rhs ← evalWithin rounds depth rhs
      lift (Value.binary op lhs rhs)
    | .unary op operand => do lift (Value.unary op (← evalWithin rounds depth operand))
    | .call name args => do
      let f ← getFunction name
      checkArity name f args.length
      let args ← mapAll (evalWithin rounds depth) args
      let locals := Bindings.setAll [] (f.params.zip args)
      let flow ← inFrame locals (forEach (execWithin rounds depth) f.body)
      return result flow
    | .array items => do return .array (← mapAll (evalWithin rounds depth) items)
    | .tuple items => do return .tuple (← mapAll (evalWithin rounds depth) items)
    | .dict entries => do return .dict (← dictFields (evalWithin rounds depth) [] entries)
    | .index target position => do
      let target ← evalWithin rounds depth target
      let position ← evalWithin rounds depth position
      lift (Value.at? target position)
    | .interpolation parts => do return .str (String.join (← mapAll partText parts))
    | .input _ => fail .input

def execWithin (rounds : Nat) : Nat → Stmt → Run Flow
  | 0, _ => cutShort
  | depth + 1, stmt =>
    match stmt with
    | .print value => do
      printLine (← evalWithin rounds depth value).text
      return .next
    | .decl name value => do
      setVar name (← evalWithin rounds depth value)
      return .next
    | .loop var (.counted start stop) body => do
      let start ← asBound .loopStart (← evalWithin rounds depth start)
      setVar var (.int start)
      let stop ← asBound .loopEnd (← evalWithin rounds depth stop)
      repeated (countedStep var stop (forEach (execWithin rounds depth) body)) rounds
    | .loop var (.collection items) body => do
      let items ← lift (Value.elements? (← evalWithin rounds depth items))
      forEach (fun item => do setVar var item; forEach (execWithin rounds depth) body) items
    | .loop _ (.condition test) body =>
      let test := evalWithin rounds depth test
      repeated (conditionStep test (forEach (execWithin rounds depth) body)) rounds
    | .cond test thenBody elseBody => do
      if (← evalWithin rounds depth test).truthy then
        forEach (execWithin rounds depth) thenBody
      else
        forEach (execWithin rounds depth) (elseBody.getD [])
    | .func name params body => do
      setFunction name ⟨params, body⟩
      return .next
    | .ret value => do return .returned (← evalWithin rounds depth value)
    | .enum name cases => do
      setEnum name cases
      return .next
    | .tryCatch _ _ => fail .tryCatch
    | .throw _ => fail .throw
    | .expr value => do
      let _ ← evalWithin rounds depth value
      return .next

end

def eval (fuel : Fuel) : Expr → Run Value := evalWithin fuel.rounds fuel.depth

def exec (fuel : Fuel) : Stmt → Run Flow := execWithin fuel.rounds fuel.depth

/-! ## Programs -/

/-- Functions and enums of the top level are known from the first statement on. -/
def declare : Stmt → Run Unit
  | .func name params body => setFunction name ⟨params, body⟩
  | .enum name cases => setEnum name cases
  | _ => pure ()

def execTop (fuel : Fuel) : Stmt → Run Flow
  | .func .. => pure .next
  | stmt => exec fuel stmt

def program (fuel : Fuel) (p : Program) : Run Unit := do
  let _ ← mapAll declare p.statements
  match ← forEach (execTop fuel) p.statements with
  | .next => pure ()
  | .returned _ => fail .returnOutsideFunction

/-- The fuel that programs are run with. Nobody waits for a run that takes more of it. -/
def ample : Fuel := ⟨1 <<< 62, 1 <<< 62⟩

end Run

end Armature
