import Armature.Bytes

/-!
# Escape sequences

A string literal keeps its escapes as they stand in the program text. They are expanded twice: to
characters where a program runs directly, to UTF-8 bytes where it is compiled. An escape that is
not known stays as it is, and so does a lone backslash at the end.
-/

namespace Armature.Escape

/-- What stands for a backslash followed by this character, if the two are an escape. -/
def meaning? : Char → Option Char
  | 'n' => some '\n'
  | 't' => some '\t'
  | 'r' => some '\r'
  | '0' => some (Char.ofNat 0)
  | '\\' => some '\\'
  | '"' => some '"'
  | '\'' => some '\''
  | _ => none

def chars : List Char → List Char
  | [] => []
  | ['\\'] => ['\\']
  | '\\' :: c :: rest =>
    match meaning? c with
    | some m => m :: chars rest
    | none => '\\' :: c :: chars rest
  | c :: rest => c :: chars rest

def text (source : String) : String := String.ofList (chars source.toList)

def utf8 : List Char → Bytes
  | [] => []
  | ['\\'] => [0x5C]
  | '\\' :: c :: rest =>
    match meaning? c with
    | some m => UInt8.ofNat m.toNat :: utf8 rest
    | none => 0x5C :: String.utf8EncodeChar c ++ utf8 rest
  | c :: rest => String.utf8EncodeChar c ++ utf8 rest

def bytes (source : String) : Bytes := utf8 source.toList

end Armature.Escape

namespace Armature

/-- Doubles every percent sign, so that a print format writes the text unchanged. -/
def percentDoubled (text : String) : String :=
  String.ofList (text.toList.flatMap fun c => if c = '%' then ['%', '%'] else [c])

end Armature
