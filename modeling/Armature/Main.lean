import Armature.Cli.Run

/-!
The command line on a real system.
-/

namespace Armature.Cli

/-- The error of the system as one of ours. -/
def fileError (e : IO.Error) : FileError :=
  match e with
  | .noFileOrDirectory .. => .notFound
  | .resourceBusy .. => .busy
  | .inappropriateType _ 20 _ => .notADirectory
  | .inappropriateType _ 21 _ => .isADirectory
  | .invalidArgument _ 36 _ => .nameTooLong
  | e => .other (toString e)

def attemptIO (action : IO Unit) : IO (Except FileError Unit) := do
  try
    action
    return .ok ()
  catch e => return .error (fileError e)

def accessRight (bits : Nat) : IO.AccessRight where
  read := bits.testBit 2
  write := bits.testBit 1
  execution := bits.testBit 0

def fileRight (mode : Nat) : IO.FileRight where
  user := accessRight (mode / 64)
  group := accessRight (mode / 8)
  other := accessRight mode

def performIO : FileStep → IO (Except FileError Unit)
  | .create path => attemptIO (IO.FS.writeBinFile path .empty)
  | .write path bytes => attemptIO (IO.FS.writeBinFile path ⟨bytes.toArray⟩)
  | .sync _ => return .ok ()
  | .setMode path mode => attemptIO (IO.setAccessRights path (fileRight mode))
  | .rename source target => attemptIO (IO.FS.rename source target)
  | .remove path => attemptIO (IO.FS.removeFile path)

def readTextIO (path : String) : IO (Except FileError String) := do
  try
    match String.fromUTF8? (← IO.FS.readBinFile path) with
    | some text => return .ok text
    | none => return .error .notText
  catch e => return .error (fileError e)

/-- There is no tool to sign with. -/
def system : Host IO where
  readText := readTextIO
  perform := performIO
  sign _ := return .error FileError.notFound.message
  print text := do
    let stdout ← IO.getStdout
    stdout.putStr text
    stdout.flush
  report line := IO.eprintln line

end Armature.Cli

def main (args : List String) : IO UInt32 := do
  let number ← IO.monoNanosNow
  return UInt32.ofNat (← Armature.Cli.execute Armature.Cli.system number args)
