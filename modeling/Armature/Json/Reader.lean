import Armature.Json.Basic

/-!
# Reading JSON

A reader takes a list of characters and returns a value with the characters after it. Each nested
value starts further on in the text, so twice the length of the text bounds the recursion.
-/

namespace Armature.Json

def isBlank (c : Char) : Bool := c = ' ' || c = '\t' || c = '\n' || c = '\r'

def skipBlank (cs : List Char) : List Char := cs.dropWhile isBlank

/-! ## Numbers -/

/-- One or more digits. -/
def digits (cs : List Char) : Option (List Char × List Char) :=
  match cs.takeWhile Char.isDigit with
  | [] => none
  | ds => some (ds, cs.dropWhile Char.isDigit)

/-- The digits before the point: a zero alone, or digits that do not start with one. -/
def whole : List Char → Option (List Char × List Char)
  | '0' :: rest => some (['0'], rest)
  | cs => digits cs

def fraction : List Char → Option (List Char × List Char)
  | '.' :: rest => digits rest
  | cs => some ([], cs)

def exponentValue (cs : List Char) : Option (Int × List Char) :=
  match cs with
  | '-' :: rest => (digits rest).map fun (ds, rest) => (-(Numeral.ofDigits ds : Int), rest)
  | '+' :: rest => (digits rest).map fun (ds, rest) => ((Numeral.ofDigits ds : Int), rest)
  | rest => (digits rest).map fun (ds, rest) => ((Numeral.ofDigits ds : Int), rest)

def exponent : List Char → Option (Option Int × List Char)
  | c :: rest =>
    if c = 'e' ∨ c = 'E' then
      (exponentValue rest).map fun (e, rest) => (some e, rest)
    else
      some (none, c :: rest)
  | [] => some (none, [])

def unsigned (negative : Bool) (cs : List Char) : Option (Numeral × List Char) := do
  let (w, cs) ← whole cs
  let (f, cs) ← fraction cs
  let (e, cs) ← exponent cs
  return (⟨negative, w, f, e⟩, cs)

def numeral : List Char → Option (Numeral × List Char)
  | '-' :: rest => unsigned true rest
  | cs => unsigned false cs

/-! ## Strings -/

def hexDigit? (c : Char) : Option Nat :=
  if c.isDigit then some (c.toNat - '0'.toNat)
  else if 'a' ≤ c ∧ c ≤ 'f' then some (c.toNat - 'a'.toNat + 10)
  else if 'A' ≤ c ∧ c ≤ 'F' then some (c.toNat - 'A'.toNat + 10)
  else none

/-- The UTF-16 unit that four hexadecimal digits name. -/
def unit? (a b c d : Char) : Option Nat := do
  let a ← hexDigit? a
  let b ← hexDigit? b
  let c ← hexDigit? c
  let d ← hexDigit? d
  return 4096 * a + 256 * b + 16 * c + d

def isHighSurrogate (u : Nat) : Bool := 0xD800 ≤ u && u < 0xDC00

def isLowSurrogate (u : Nat) : Bool := 0xDC00 ≤ u && u < 0xE000

/-- The character that a high and a low surrogate name together. -/
def surrogatePair (high low : Nat) : Char :=
  Char.ofNat (0x10000 + (high - 0xD800) * 0x400 + (low - 0xDC00))

def simpleEscape? : Char → Option Char
  | '"' => some '"'
  | '\\' => some '\\'
  | '/' => some '/'
  | 'b' => some (Char.ofNat 8)
  | 'f' => some (Char.ofNat 12)
  | 'n' => some '\n'
  | 'r' => some '\r'
  | 't' => some '\t'
  | _ => none

/-- The rest of a string after its opening quote. `read` holds the characters read so far, last
one first, and `sound` tells whether no surrogate was left alone. -/
def stringTail (read : List Char) (sound : Bool) : List Char → Option (JsonText × List Char)
  | '"' :: rest => some (if sound then some (String.ofList read.reverse) else none, rest)
  | '\\' :: 'u' :: a :: b :: c :: d :: '\\' :: 'u' :: e :: f :: g :: h :: rest =>
    match unit? a b c d with
    | none => none
    | some u =>
      if isHighSurrogate u then
        match unit? e f g h with
        | none => none
        | some v =>
          if isLowSurrogate v then stringTail (surrogatePair u v :: read) sound rest
          else stringTail read false ('\\' :: 'u' :: e :: f :: g :: h :: rest)
      else if isLowSurrogate u then
        stringTail read false ('\\' :: 'u' :: e :: f :: g :: h :: rest)
      else
        stringTail (Char.ofNat u :: read) sound ('\\' :: 'u' :: e :: f :: g :: h :: rest)
  | '\\' :: 'u' :: a :: b :: c :: d :: rest =>
    match unit? a b c d with
    | none => none
    | some u =>
      if isHighSurrogate u || isLowSurrogate u then stringTail read false rest
      else stringTail (Char.ofNat u :: read) sound rest
  | '\\' :: c :: rest =>
    match simpleEscape? c with
    | none => none
    | some e => stringTail (e :: read) sound rest
  | c :: rest => if c = '\\' ∨ c < ' ' then none else stringTail (c :: read) sound rest
  | [] => none

/-! ## Values -/

def literal? (name : List Char) (value : Json) (cs : List Char) : Option (Json × List Char) :=
  if name.isPrefixOf cs then some (value, cs.drop name.length) else none

mutual

def value : Nat → List Char → Option (Json × List Char)
  | 0, _ => none
  | fuel + 1, cs =>
    match skipBlank cs with
    | '"' :: rest => (stringTail [] true rest).map fun (s, rest) => (.string s, rest)
    | '[' :: rest =>
      match skipBlank rest with
      | ']' :: rest => some (.array [], rest)
      | rest => (elements fuel rest).map fun (items, rest) => (.array items, rest)
    | '{' :: rest =>
      match skipBlank rest with
      | '}' :: rest => some (.object [], rest)
      | rest => (members fuel rest).map fun (ms, rest) => (.object ms, rest)
    | 'n' :: rest => literal? ['u', 'l', 'l'] .null rest
    | 't' :: rest => literal? ['r', 'u', 'e'] (.bool true) rest
    | 'f' :: rest => literal? ['a', 'l', 's', 'e'] (.bool false) rest
    | rest => (numeral rest).map fun (n, rest) => (.number n, rest)

/-- One or more values up to the closing bracket. -/
def elements : Nat → List Char → Option (List Json × List Char)
  | 0, _ => none
  | fuel + 1, cs => do
    let (v, rest) ← value fuel cs
    match skipBlank rest with
    | ',' :: rest => (elements fuel rest).map fun (vs, rest) => (v :: vs, rest)
    | ']' :: rest => some ([v], rest)
    | _ => none

/-- One or more members up to the closing brace. -/
def members : Nat → List Char → Option (List (JsonText × Json) × List Char)
  | 0, _ => none
  | fuel + 1, cs =>
    match skipBlank cs with
    | '"' :: rest => do
      let (name, rest) ← stringTail [] true rest
      match skipBlank rest with
      | ':' :: rest =>
        let (v, rest) ← value fuel rest
        match skipBlank rest with
        | ',' :: rest => (members fuel rest).map fun (ms, rest) => ((name, v) :: ms, rest)
        | '}' :: rest => some ([(name, v)], rest)
        | _ => none
      | _ => none
    | _ => none

end

/-- The value that a whole text denotes, with nothing but blanks around it. -/
def read? (text : String) : Option Json :=
  let cs := text.toList
  match value (2 * cs.length + 2) cs with
  | some (v, rest) => if (skipBlank rest).isEmpty then some v else none
  | none => none

end Armature.Json
