import Armature.Json.Basic

/-!
# Writing JSON

Only quotes, backslashes and control characters are escaped. A nested value is indented by two
blanks, and an empty array or object stays on its line.
-/

namespace Armature.Json

def hexDigit (n : Nat) : Char := Nat.digitChar n

def escaped (c : Char) : List Char :=
  match c with
  | '"' => ['\\', '"']
  | '\\' => ['\\', '\\']
  | '\n' => ['\\', 'n']
  | '\r' => ['\\', 'r']
  | '\t' => ['\\', 't']
  | c =>
    if c.toNat = 8 then ['\\', 'b']
    else if c.toNat = 12 then ['\\', 'f']
    else if c < ' ' then ['\\', 'u', '0', '0', hexDigit (c.toNat / 16), hexDigit (c.toNat % 16)]
    else [c]

def quoted (text : String) : List Char := '"' :: text.toList.flatMap escaped ++ ['"']

/-- A string without a text is written as `null`. -/
def quotedText : JsonText → List Char
  | some text => quoted text
  | none => ['n', 'u', 'l', 'l']

def newline (depth : Nat) : List Char := '\n' :: List.replicate (2 * depth) ' '

mutual

def pretty (depth : Nat) : Json → List Char
  | null => ['n', 'u', 'l', 'l']
  | bool true => ['t', 'r', 'u', 'e']
  | bool false => ['f', 'a', 'l', 's', 'e']
  | number n => n.chars 1
  | string s => quotedText s
  | array [] => ['[', ']']
  | array (v :: vs) =>
    '[' :: newline (depth + 1) ++ pretty (depth + 1) v ++ prettyItems (depth + 1) vs
      ++ newline depth ++ [']']
  | object [] => ['{', '}']
  | object ((name, v) :: ms) =>
    '{' :: newline (depth + 1) ++ quotedText name ++ ':' :: ' ' :: pretty (depth + 1) v
      ++ prettyMembers (depth + 1) ms ++ newline depth ++ ['}']

/-- The items after the first one, each on a line of its own. -/
def prettyItems (depth : Nat) : List Json → List Char
  | [] => []
  | v :: vs => ',' :: newline depth ++ pretty depth v ++ prettyItems depth vs

def prettyMembers (depth : Nat) : List (JsonText × Json) → List Char
  | [] => []
  | (name, v) :: ms =>
    ',' :: newline depth ++ quotedText name ++ ':' :: ' ' :: pretty depth v
      ++ prettyMembers depth ms

end

def text (json : Json) : String := String.ofList (pretty 0 json)

end Armature.Json
