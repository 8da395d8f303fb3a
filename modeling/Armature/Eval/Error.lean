import Armature.Syntax
import Armature.Value

/-!
# Failures of a running program
-/

namespace Armature

inductive RuntimeError where
  | undefinedVariable (name : String)
  | undefinedFunction (name : String)
  | arity (name : String) (expected given : Nat)
  | stringOperands (op : BinaryOp)
  | operands (op : BinaryOp) (lhs rhs : Kind)
  | negation (operand : Kind)
  | indexing (target position : Kind)
  | outOfRange (position : Int64) (length : Nat)
  | missingKey (key : String)
  | missingCase (enum case : String)
  | dictKey (key : Kind)
  | iteration (items : Kind)
  | loopStart (bound : Kind)
  | loopEnd (bound : Kind)
  | lostCounter (var : String)
  | returnOutsideFunction
  | tryCatch
  | throw
  | input
deriving DecidableEq

namespace RuntimeError

def message : RuntimeError → String
  | undefinedVariable name => "undefined variable `" ++ name ++ "`"
  | undefinedFunction name => "undefined function `" ++ name ++ "`"
  | arity name expected given =>
    "`" ++ name ++ "` expects " ++ toString expected ++ " arguments, got " ++ toString given
  | stringOperands op => "`" ++ op.symbol ++ "` is not defined for strings"
  | operands op lhs rhs => "`" ++ op.symbol ++ "` between " ++ lhs.name ++ " and " ++ rhs.name
  | negation operand => "cannot negate " ++ operand.name
  | indexing target position => "cannot index " ++ target.name ++ " with " ++ position.name
  | outOfRange position length =>
    "index " ++ toString position.toInt ++ " out of range for length " ++ toString length
  | missingKey key => "key `" ++ key ++ "` not found"
  | missingCase enum case => "`" ++ enum ++ "` has no case `" ++ case ++ "`"
  | dictKey key => "dict keys must be strings, got " ++ key.name
  | iteration items => "cannot iterate over " ++ items.name
  | loopStart bound => "loop start must be an int, got " ++ bound.name
  | loopEnd bound => "loop end must be an int, got " ++ bound.name
  | lostCounter var => "loop counter `" ++ var ++ "` is no longer an integer"
  | returnOutsideFunction => "return outside a function"
  | tryCatch => "try/catch is not supported"
  | throw => "throw is not supported"
  | input => "input is not available"

end RuntimeError

end Armature
