import Armature.Decimal.Reading
import Armature.Json.Reader
import Armature.Json.Writer
import Armature.Syntax

/-!
# Programs as JSON

A node is an object with one member, named for the kind of node. A group of named fields may also
be an array of the fields in their order. Fields of other names are skipped.

Reading takes a budget: the number of arrays and objects that may still be opened. Skipped values
need none.
-/

namespace Armature

open Json (ofText ofMembers)

/-! ## Writing -/

def Part.toJson : Part → Json
  | text s => ofMembers [("text", ofText s)]
  | var s => ofMembers [("var", ofText s)]

namespace Expr

mutual

def toJson : Expr → Json
  | int i => ofMembers [("int", .number (.ofInt i.toInt))]
  | float x => ofMembers [("float", x.toNumeral?.elim .null .number)]
  | str s => ofMembers [("str", ofText s)]
  | bool b => ofMembers [("bool", .bool b)]
  | nil => ofText "nil"
  | var name => ofMembers [("var", ofText name)]
  | binary op lhs rhs =>
    ofMembers [("binary", ofMembers [("op", ofText op.name), ("lhs", toJson lhs), ("rhs", toJson rhs)])]
  | unary op operand =>
    ofMembers [("unary", ofMembers [("op", ofText op.name), ("operand", toJson operand)])]
  | call name args =>
    ofMembers [("call", ofMembers [("name", ofText name), ("args", .array (listToJson args))])]
  | array items => ofMembers [("array", .array (listToJson items))]
  | tuple items => ofMembers [("tuple", .array (listToJson items))]
  | dict entries => ofMembers [("dict", .array (entriesToJson entries))]
  | index target position =>
    ofMembers [("index", ofMembers [("target", toJson target), ("index", toJson position)])]
  | interpolation parts => ofMembers [("interpolation", .array (parts.map Part.toJson))]
  | input prompt => ofMembers [("input", toJson prompt)]

def listToJson : List Expr → List Json
  | [] => []
  | e :: es => toJson e :: listToJson es

def entriesToJson : List (Expr × Expr) → List Json
  | [] => []
  | (key, value) :: rest =>
    ofMembers [("key", toJson key), ("value", toJson value)] :: entriesToJson rest

end

end Expr

def Range.toJson : Range → Json
  | counted start stop =>
    ofMembers [("counted", ofMembers [("start", start.toJson), ("end", stop.toJson)])]
  | collection items => ofMembers [("collection", items.toJson)]
  | condition test => ofMembers [("condition", test.toJson)]

def textsToJson (texts : List String) : Json := .array (texts.map ofText)

namespace Stmt

mutual

def toJson : Stmt → Json
  | print value => ofMembers [("print", value.toJson)]
  | decl name value =>
    ofMembers [("var_decl", ofMembers [("name", ofText name), ("value", value.toJson)])]
  | loop var range body =>
    ofMembers [("loop", ofMembers
      [("var", ofText var), ("range", range.toJson), ("body", .array (listToJson body))])]
  | cond test thenBody none =>
    ofMembers [("if", ofMembers
      [("condition", test.toJson), ("then_body", .array (listToJson thenBody))])]
  | cond test thenBody (some elseBody) =>
    ofMembers [("if", ofMembers
      [("condition", test.toJson), ("then_body", .array (listToJson thenBody)),
        ("else_body", .array (listToJson elseBody))])]
  | func name params body =>
    ofMembers [("func_def", ofMembers
      [("name", ofText name), ("params", textsToJson params), ("body", .array (listToJson body))])]
  | ret value => ofMembers [("return", value.toJson)]
  | enum name cases =>
    ofMembers [("enum_def", ofMembers [("name", ofText name), ("cases", textsToJson cases)])]
  | tryCatch body handler =>
    ofMembers [("try", ofMembers
      [("body", .array (listToJson body)), ("handler", .array (listToJson handler))])]
  | throw value => ofMembers [("throw", value.toJson)]
  | expr value => ofMembers [("expr", value.toJson)]

def listToJson : List Stmt → List Json
  | [] => []
  | s :: ss => toJson s :: listToJson ss

end

end Stmt

def Program.toJson (p : Program) : Json :=
  ofMembers [("statements", .array (Stmt.listToJson p.statements))]

def Program.text (p : Program) : String := p.toJson.text

/-! ## Reading leaves -/

namespace Json

def asText? : Json → Option String
  | string s => s
  | _ => none

def asBool? : Json → Option Bool
  | bool b => some b
  | _ => none

/-- A whole number in the range of 64-bit integers. A negative zero is not one. -/
def asInt? : Json → Option Int64
  | number n =>
    let i : Int := if n.negative then -(n.coefficient : Int) else n.coefficient
    if !n.isInteger || (n.negative && n.coefficient = 0) || i < Int64.minValue.toInt
        || Int64.maxValue.toInt < i then none
    else some (Int64.ofInt i)
  | _ => none

def asDouble? : Json → Option Double
  | number n => n.toDouble?
  | _ => none

/-- A node without fields: its name, or an object that maps the name to `null`. -/
def asTag? (budget : Nat) : Json → Option String
  | string s => s
  | object [(name, null)] => if budget = 0 then none else name
  | _ => none

/-- The items of an array. -/
def items? : Json → Option (List Json)
  | array items => some items
  | _ => none

def itemsOf? {α : Type} (item : Json → Option α) (json : Json) : Option (List α) :=
  json.items?.bind (·.mapM item)

def listOf? {α : Type} (budget : Nat) (item : Json → Option α) (json : Json) : Option (List α) :=
  if budget = 0 then none else json.itemsOf? item

/-! ## Reading groups of fields -/

/-- Adds a member to the fields read so far. A field may be given once only. -/
def addField (names : List String) (fields : List (String × Json)) :
    JsonText × Json → Option (List (String × Json))
  | (none, _) => none
  | (some name, v) =>
    if name ∈ names then
      if fields.any (·.1 = name) then none else some ((name, v) :: fields)
    else
      some fields

/-- The values of the named fields, in the order of the names. -/
def fields? (names : List String) : Json → Option (List (Option Json))
  | object members => do
    let fields ← members.foldlM (addField names) []
    return names.map fun name => (fields.find? (·.1 = name)).map (·.2)
  | array items =>
    if items.length ≤ names.length then
      some (items.map some ++ List.replicate (names.length - items.length) none)
    else
      none
  | _ => none

def two? (a b : String) (json : Json) : Option (Json × Json) :=
  match json.fields? [a, b] with
  | some [some x, some y] => some (x, y)
  | _ => none

def three? (a b c : String) (json : Json) : Option (Json × Json × Json) :=
  match json.fields? [a, b, c] with
  | some [some x, some y, some z] => some (x, y, z)
  | _ => none

end Json

/-! ## Reading nodes -/

def Part.read? (budget : Nat) : Json → Option Part
  | .object [(some tag, v)] =>
    if budget = 0 then none
    else match tag with
      | "text" => v.asText?.map .text
      | "var" => v.asText?.map .var
      | _ => none
  | _ => none

def BinaryOp.read? (budget : Nat) (json : Json) : Option BinaryOp :=
  (json.asTag? budget).bind ofName?

def UnaryOp.read? (budget : Nat) (json : Json) : Option UnaryOp :=
  (json.asTag? budget).bind ofName?

/-! In the fields of a node, `read` reads the nodes. -/

namespace Expr

def readBinary? (budget : Nat) (read : Json → Option Expr) (fields : Json) : Option Expr := do
  let (op, lhs, rhs) ← fields.three? "op" "lhs" "rhs"
  return .binary (← BinaryOp.read? budget op) (← read lhs) (← read rhs)

def readUnary? (budget : Nat) (read : Json → Option Expr) (fields : Json) : Option Expr := do
  let (op, operand) ← fields.two? "op" "operand"
  return .unary (← UnaryOp.read? budget op) (← read operand)

def readCall? (read : Json → Option Expr) (fields : Json) : Option Expr := do
  let (name, args) ← fields.two? "name" "args"
  return .call (← name.asText?) (← args.itemsOf? read)

def readPair? (read : Json → Option Expr) (fields : Json) : Option (Expr × Expr) := do
  let (key, value) ← fields.two? "key" "value"
  return (← read key, ← read value)

def readIndex? (read : Json → Option Expr) (fields : Json) : Option Expr := do
  let (target, position) ← fields.two? "target" "index"
  return .index (← read target) (← read position)

end Expr

def Expr.read? : Nat → Json → Option Expr
  | _, .string tag => if tag = some "nil" then some .nil else none
  | budget + 1, .object [(some tag, v)] =>
    match tag with
    | "nil" => match v with
      | .null => some .nil
      | _ => none
    | "int" => v.asInt?.map .int
    | "float" => v.asDouble?.map .float
    | "str" => v.asText?.map .str
    | "bool" => v.asBool?.map .bool
    | "var" => v.asText?.map .var
    | "input" => (read? budget v).map .input
    | tag =>
      match budget with
      | 0 => none
      | budget + 1 =>
        match tag with
        | "binary" => readBinary? budget (read? budget) v
        | "unary" => readUnary? budget (read? budget) v
        | "call" =>
          match budget with
          | 0 => none
          | budget + 1 => readCall? (read? budget) v
        | "array" => (v.itemsOf? (read? budget)).map .array
        | "tuple" => (v.itemsOf? (read? budget)).map .tuple
        | "dict" =>
          match budget with
          | 0 => (v.itemsOf? fun _ => none).map .dict
          | budget + 1 => (v.itemsOf? (readPair? (read? budget))).map .dict
        | "index" => readIndex? (read? budget) v
        | "interpolation" => (v.itemsOf? (Part.read? budget)).map .interpolation
        | _ => none
  | _, _ => none

def Range.read? : Nat → Json → Option Range
  | budget + 1, .object [(some tag, v)] =>
    match tag with
    | "counted" =>
      if budget = 0 then none
      else do
        let (start, stop) ← v.two? "start" "end"
        return .counted (← Expr.read? (budget - 1) start) (← Expr.read? (budget - 1) stop)
    | "collection" => (Expr.read? budget v).map .collection
    | "condition" => (Expr.read? budget v).map .condition
    | _ => none
  | _, _ => none

/-- A field that may be left out or `null`. -/
def optional? {α : Type} (read : Json → Option α) : Option Json → Option (Option α)
  | none | some .null => some none
  | some v => (read v).map some

namespace Stmt

def readDecl? (budget : Nat) (fields : Json) : Option Stmt := do
  let (name, value) ← fields.two? "name" "value"
  return .decl (← name.asText?) (← Expr.read? budget value)

def readEnum? (budget : Nat) (fields : Json) : Option Stmt := do
  let (name, cases) ← fields.two? "name" "cases"
  return .enum (← name.asText?) (← cases.listOf? budget Json.asText?)

def readLoop? (budget : Nat) (read : Json → Option Stmt) (fields : Json) : Option Stmt := do
  let (var, range, body) ← fields.three? "var" "range" "body"
  return .loop (← var.asText?) (← Range.read? budget range) (← body.itemsOf? read)

def readCond? (budget : Nat) (read : Json → Option Stmt) (fields : Json) : Option Stmt := do
  match ← fields.fields? ["condition", "then_body", "else_body"] with
  | [some test, some thenBody, elseBody] =>
    return .cond (← Expr.read? budget test) (← thenBody.itemsOf? read)
      (← optional? (·.itemsOf? read) elseBody)
  | _ => none

def readFunc? (budget : Nat) (read : Json → Option Stmt) (fields : Json) : Option Stmt := do
  let (name, params, body) ← fields.three? "name" "params" "body"
  return .func (← name.asText?) (← params.listOf? budget Json.asText?) (← body.itemsOf? read)

def readTry? (read : Json → Option Stmt) (fields : Json) : Option Stmt := do
  let (body, handler) ← fields.two? "body" "handler"
  return .tryCatch (← body.itemsOf? read) (← handler.itemsOf? read)

end Stmt

def Stmt.read? : Nat → Json → Option Stmt
  | budget + 1, .object [(some tag, v)] =>
    match tag with
    | "print" => (Expr.read? budget v).map .print
    | "return" => (Expr.read? budget v).map .ret
    | "throw" => (Expr.read? budget v).map .throw
    | "expr" => (Expr.read? budget v).map .expr
    | tag =>
      match budget with
      | 0 => none
      | budget + 1 =>
        match tag with
        | "var_decl" => readDecl? budget v
        | "enum_def" => readEnum? budget v
        | tag =>
          -- the statements inside are in an array
          match budget with
          | 0 => none
          | inner + 1 =>
            match tag with
            | "loop" => readLoop? (inner + 1) (read? inner) v
            | "if" => readCond? (inner + 1) (read? inner) v
            | "func_def" => readFunc? (inner + 1) (read? inner) v
            | "try" => readTry? (read? inner) v
            | _ => none
  | _, _ => none

/-- How many arrays and objects a program text may open at once. -/
def openLimit : Nat := 127

def Program.ofJson? (json : Json) : Option Program :=
  match json.fields? ["statements"] with
  | some [some body] =>
    (body.listOf? (openLimit - 1) (Stmt.read? (openLimit - 2))).map Program.mk
  | _ => none

def Expr.ofJson? (json : Json) : Option Expr := Expr.read? openLimit json

/-- Why a text is not a program. -/
inductive ReadError where
  | malformed
  | misshapen
deriving DecidableEq

def ReadError.message : ReadError → String
  | malformed => "the text is not well-formed JSON"
  | misshapen => "the value does not have the form of a program"

def Program.read (text : String) : Except ReadError Program :=
  match Json.read? text with
  | none => .error .malformed
  | some json =>
    match Program.ofJson? json with
    | none => .error .misshapen
    | some program => .ok program

end Armature
