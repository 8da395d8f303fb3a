import Armature.Double

/-!
# Programs

The syntax tree of a program, and the names and symbols of its operators.
-/

namespace Armature

inductive BinaryOp where
  | add | sub | mul | div | mod | eq | ne | lt | gt | le | ge | and | or
deriving DecidableEq

namespace BinaryOp

def all : List BinaryOp := [.add, .sub, .mul, .div, .mod, .eq, .ne, .lt, .gt, .le, .ge, .and, .or]

def name : BinaryOp → String
  | add => "add" | sub => "sub" | mul => "mul" | div => "div" | mod => "mod"
  | eq => "eq" | ne => "ne" | lt => "lt" | gt => "gt" | le => "le" | ge => "ge"
  | and => "and" | or => "or"

def ofName? (name : String) : Option BinaryOp := all.find? (·.name = name)

def symbol : BinaryOp → String
  | add => "+" | sub => "-" | mul => "*" | div => "/" | mod => "%"
  | eq => "==" | ne => "!=" | lt => "<" | gt => ">" | le => "<=" | ge => ">="
  | and => "&&" | or => "||"

def isComparison : BinaryOp → Bool
  | eq | ne | lt | gt | le | ge => true
  | _ => false

def isLogical : BinaryOp → Bool
  | and | or => true
  | _ => false

end BinaryOp

inductive UnaryOp where
  | neg | not
deriving DecidableEq

namespace UnaryOp

def all : List UnaryOp := [.neg, .not]

def name : UnaryOp → String
  | neg => "neg" | not => "not"

def ofName? (name : String) : Option UnaryOp := all.find? (·.name = name)

def symbol : UnaryOp → String
  | neg => "-" | not => "!"

end UnaryOp

/-- A piece of a string literal that refers to variables. -/
inductive Part where
  | text (source : String)
  | var (name : String)
deriving DecidableEq

inductive Expr where
  | int (value : Int64)
  | float (value : Double)
  | str (source : String)
  | bool (value : Bool)
  | nil
  | var (name : String)
  | binary (op : BinaryOp) (lhs rhs : Expr)
  | unary (op : UnaryOp) (operand : Expr)
  | call (name : String) (args : List Expr)
  | array (items : List Expr)
  | tuple (items : List Expr)
  | dict (entries : List (Expr × Expr))
  /-- An element of a composite, or a case of an enum. -/
  | index (target position : Expr)
  | interpolation (parts : List Part)
  | input (prompt : Expr)

namespace Expr

/-- What an expression is called in messages. -/
def kind : Expr → String
  | int _ => "integer literal"
  | float _ => "float literal"
  | str _ => "string literal"
  | bool _ => "boolean literal"
  | nil => "nil"
  | var _ => "variable"
  | binary .. => "binary expression"
  | unary .. => "unary expression"
  | call .. => "call"
  | array _ => "array literal"
  | tuple _ => "tuple literal"
  | dict _ => "dict literal"
  | index .. => "index expression"
  | interpolation _ => "string interpolation"
  | input _ => "input"

def isArray : Expr → Bool
  | array _ => true
  | _ => false

def isTupleOrDict : Expr → Bool
  | tuple _ | dict _ => true
  | _ => false

def isComposite (e : Expr) : Bool := e.isArray || e.isTupleOrDict

end Expr

/-- What a loop runs over. -/
inductive Range where
  /-- From `start` up to, and not including, `stop`. -/
  | counted (start stop : Expr)
  | collection (items : Expr)
  | condition (test : Expr)

inductive Stmt where
  | print (value : Expr)
  | decl (name : String) (value : Expr)
  | loop (var : String) (range : Range) (body : List Stmt)
  | cond (test : Expr) (thenBody : List Stmt) (elseBody : Option (List Stmt))
  | func (name : String) (params : List String) (body : List Stmt)
  | ret (value : Expr)
  | enum (name : String) (cases : List String)
  | tryCatch (body handler : List Stmt)
  | throw (value : Expr)
  | expr (value : Expr)

/-- What a function name stands for. -/
structure Function where
  params : List String
  body : List Stmt

structure Program where
  statements : List Stmt

end Armature
