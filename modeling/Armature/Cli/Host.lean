import Armature.Files.Install

/-!
# Hosts

What the commands need of the system that they run on. `Desk` is such a system with nothing outside
it: a disk, and what was printed.
-/

namespace Armature.Cli

structure Host (m : Type → Type) where
  readText : String → m (Except FileError String)
  perform : Performer m
  /-- Signs a file. The error is the reason why it could not be done. -/
  sign : String → m (Except String Unit)
  print : String → m Unit
  /-- Prints a line for errors. -/
  report : String → m Unit

structure Desk where
  disk : Disk
  output : String
  errors : String

namespace Desk

def ofDisk (disk : Disk) : Desk := ⟨disk, "", ""⟩

def readText (path : String) (disk : Disk) : Except FileError String := do
  match String.fromUTF8? ⟨(← disk.read path).toArray⟩ with
  | some text => return text
  | none => .error .notText

/-- A step that fails changes nothing. -/
def perform (s : FileStep) : StateM Desk (Except FileError Unit) := fun desk =>
  match desk.disk.perform s with
  | .ok disk => (.ok (), { desk with disk })
  | .error e => (.error e, desk)

/-- The host that a desk is. It has no tool to sign with. -/
def host : Host (StateM Desk) where
  readText path := fun desk => (readText path desk.disk, desk)
  perform := perform
  sign _ := pure (.error FileError.notFound.message)
  print text := modify fun desk => { desk with output := desk.output ++ text }
  report line := modify fun desk => { desk with errors := desk.errors ++ line ++ "\n" }

end Desk

end Armature.Cli
