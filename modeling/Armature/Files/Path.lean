/-!
# Paths

A path is a text that slashes divide into segments. An empty segment means nothing, and neither does
a single dot, unless it is the first segment. Two dots lead to the directory above. If the first of
several segments is empty, the path starts at the root.
-/

namespace Armature.Path

abbrev Segment := List Char

def dot : Segment := ['.']

def dotDot : Segment := ['.', '.']

def segments : List Char → List Segment
  | [] => [[]]
  | c :: rest =>
    if c = '/' then
      [] :: segments rest
    else
      match segments rest with
      | [] => [[c]]
      | s :: more => (c :: s) :: more

def join : List Segment → List Char
  | [] => []
  | [s] => s
  | s :: rest => s ++ '/' :: join rest

/-- The segments of a path, the last one first, without those at the end that mean nothing. -/
def trimmed : List Segment → List Segment
  | [] => []
  | [s] => [s]
  | s :: rest => if s = [] ∨ s = dot then trimmed rest else s :: rest

/-- Whether a segment can name a file. -/
def isName (s : Segment) : Bool := s ≠ [] ∧ s ≠ dot ∧ s ≠ dotDot

/-- The last segment that means anything, if it is a name. -/
def fileName? (path : String) : Option String :=
  match trimmed (segments path.toList).reverse with
  | [] => none
  | s :: _ => if isName s then some (String.ofList s) else none

/-- A name in a directory. -/
def append (directory : List Char) (name : String) : String :=
  match directory.getLast? with
  | none => name
  | some '/' => String.ofList directory ++ name
  | some _ => String.ofList directory ++ "/" ++ name

/-- The path of a directory, whose segments have the last one first. -/
def directoryPath (reversed : List Segment) : List Char :=
  match trimmed reversed with
  | [[]] => ['/']
  | segments => join segments.reverse

/-- The path with another file name. If it has none, the name is appended. -/
def withFileName (path name : String) : String :=
  match trimmed (segments path.toList).reverse with
  | [] => name
  | s :: parents =>
    if isName s then append (directoryPath parents) name else append path.toList name

/-- A file name up to its last dot. A dot at its start does not count. -/
def stem (name : String) : String :=
  match name.toList.reverse.dropWhile (· ≠ '.') with
  | [] | [_] => name
  | _ :: before => String.ofList before.reverse

end Armature.Path
