import Armature.Bytes
import Armature.Files.Path

/-!
# Disks

What a command can do with files, and a disk on which it can be done. A step either changes the disk
or fails and leaves it as it was.
-/

namespace Armature

inductive FileError where
  | notFound
  | notADirectory
  | isADirectory
  | busy
  | nameTooLong
  | zeroInPath
  | notText
  | other (text : String)
deriving DecidableEq

def FileError.message : FileError → String
  | notFound => "No such file or directory (os error 2)"
  | notADirectory => "Not a directory (os error 20)"
  | isADirectory => "Is a directory (os error 21)"
  | busy => "Device or resource busy (os error 16)"
  | nameTooLong => "File name too long (os error 36)"
  | zeroInPath => "file name contained an unexpected NUL byte"
  | notText => "stream did not contain valid UTF-8"
  | other text => text

inductive FileStep where
  /-- An empty file, in the place of one that may be there. -/
  | create (path : String)
  | write (path : String) (bytes : Bytes)
  /-- Waits until the contents are stored for good. -/
  | sync (path : String)
  | setMode (path : String) (mode : Nat)
  /-- Moves a file, onto one that may be there. -/
  | rename (source target : String)
  | remove (path : String)

inductive Entry where
  | directory
  | file (bytes : Bytes) (mode : Nat)
deriving DecidableEq

/-- The names that lead to an entry from the working directory, the last one first. Two dots lead
out of it, and a place that starts with a slash is one below the root. -/
abbrev Place := List Path.Segment

namespace Place

def root : Place := [['/']]

/-- The place that a segment leads to. -/
def step (here : Place) (s : Path.Segment) : Place :=
  if s = [] ∨ s = Path.dot then here
  else if s = Path.dotDot then
    match here with
    | [] => [Path.dotDot]
    | top :: rest => if here = root then here else if top = Path.dotDot then s :: here else rest
  else s :: here

/-- The working directory, those above it, and the root. -/
def isFixed (here : Place) : Bool := here.all (· = Path.dotDot) || here = root

end Place

structure Disk where
  entries : List (Place × Entry)

namespace Disk

def empty : Disk := ⟨[]⟩

def entry? (d : Disk) (place : Place) : Option Entry :=
  if place.isFixed then some .directory else d.entries.lookup place

def erase (d : Disk) (place : Place) : Disk := ⟨d.entries.filter (·.1 ≠ place)⟩

def put (d : Disk) (place : Place) (entry : Entry) : Disk :=
  ⟨(place, entry) :: (d.erase place).entries⟩

/-- The most bytes in a name. -/
def nameLimit : Nat := 255

/-- A path has fewer bytes than this. -/
def pathLimit : Nat := 4096

/-- Follows segments. Each must start at a directory. -/
def follow (d : Disk) : Place → List Path.Segment → Except FileError Place
  | here, [] => .ok here
  | here, s :: rest =>
    match d.entry? here with
    | some .directory =>
      if nameLimit < (String.ofList s).utf8ByteSize then .error .nameTooLong
      else follow d (here.step s) rest
    | some (.file ..) => .error .notADirectory
    | none => .error .notFound

/-- The place that the segments of a path lead to. -/
def reach (d : Disk) : List Path.Segment → Except FileError Place
  | [[]] => .error .notFound
  | [] :: rest => d.follow .root rest
  | segments => d.follow [] segments

/-- The segments of a path, unless no path can be so. -/
def segments (path : String) : Except FileError (List Path.Segment) :=
  if path.toList.any (·.toNat = 0) then .error .zeroInPath
  else if pathLimit ≤ path.utf8ByteSize then .error .nameTooLong
  else .ok (Path.segments path.toList)

def place (d : Disk) (path : String) : Except FileError Place := do
  d.reach (← segments path)

/-- The place of a file, with its bytes and its mode. -/
def file (d : Disk) (path : String) : Except FileError (Place × Bytes × Nat) := do
  let place ← d.place path
  match d.entry? place with
  | some (.file bytes mode) => return (place, bytes, mode)
  | some .directory => .error .isADirectory
  | none => .error .notFound

/-- The place where a file is, or where one can be made. -/
def filePlace (d : Disk) (path : String) : Except FileError Place := do
  let place ← d.place path
  if d.entry? place = some .directory then .error .isADirectory else return place

def read (d : Disk) (path : String) : Except FileError Bytes := do return (← d.file path).2.1

/-- The mode of a file that was just made. -/
def newMode : Nat := 0o644

/-- The place that a file can be moved to. A path that ends in dots names a directory that cannot be
replaced, and so does one of slashes only. No other path that ends in a slash names a file. -/
def target (d : Disk) (path : String) : Except FileError Place := do
  let (slashes, names) := (← segments path).reverse.span (· = [])
  match names with
  | [] => .error (if path.isEmpty then .notFound else .busy)
  | last :: above =>
    let place ← d.reach (last :: above).reverse
    if last = Path.dot ∨ last = Path.dotDot then .error .busy
    else if slashes ≠ [] then .error .notADirectory
    else if d.entry? place = some .directory then .error .isADirectory
    else return place

def perform (d : Disk) : FileStep → Except FileError Disk
  | .create path => do
    let place ← d.filePlace path
    match d.entry? place with
    | some (.file _ mode) => return d.put place (.file [] mode)
    | _ => return d.put place (.file [] newMode)
  | .write path bytes => do
    let (place, _, mode) ← d.file path
    return d.put place (.file bytes mode)
  | .sync path => do
    let _ ← d.file path
    return d
  | .setMode path mode => do
    let (place, bytes, _) ← d.file path
    return d.put place (.file bytes mode)
  | .rename source target => do
    let (place, bytes, mode) ← d.file source
    return (d.erase place).put (← d.target target) (.file bytes mode)
  | .remove path => do
    let (place, _, _) ← d.file path
    return d.erase place

/-- Makes the directories on the way to a place, and one there. -/
def withDirectory (d : Disk) : Place → Disk
  | [] => d
  | name :: above =>
    let d := d.withDirectory above
    if (d.entry? (name :: above)).isSome then d else d.put (name :: above) .directory

/-- Makes a file and the directories on the way to it. -/
def withFile (d : Disk) (path : String) (bytes : Bytes) : Disk :=
  match (Path.segments path.toList).foldl Place.step [] with
  | [] => d
  | name :: above => (d.withDirectory above).put (name :: above) (.file bytes newMode)

/-- The files in the working directory. -/
def listed (d : Disk) : List (String × Bytes × Nat) :=
  d.entries.filterMap fun (place, entry) =>
    match place, entry with
    | [name], .file bytes mode => some (String.ofList name, bytes, mode)
    | _, _ => none

end Disk

end Armature
