import Armature.Compile
import Armature.Files.Disk

/-!
# Installing executables

An executable is written to a temporary file beside the place where it belongs, and moved there when
it is complete. If a step fails, the temporary file is removed.
-/

namespace Armature

variable {m : Type → Type} [Monad m]

/-- How steps are carried out. -/
abbrev Performer (m : Type → Type) := FileStep → m (Except FileError Unit)

/-- Carries out steps up to the first that fails. -/
def attempt (perform : Performer m) : List FileStep → m (Except FileError Unit)
  | [] => return .ok ()
  | s :: rest => do
    match ← perform s with
    | .ok () => attempt perform rest
    | .error e => return .error e

/-- Everyone may read and execute the file, and its owner may write it. -/
def executableMode : Nat := 0o755

def installSteps (temporary output : String) (bytes : Bytes) : List FileStep :=
  [.create temporary, .write temporary bytes, .sync temporary, .setMode temporary executableMode,
    .rename temporary output]

def install (perform : Performer m) (temporary output : String) (bytes : Bytes) :
    m (Except FileError Unit) := do
  match ← attempt perform (installSteps temporary output bytes) with
  | .ok () => return .ok ()
  | .error e =>
    let _ ← perform (.remove temporary)
    return .error e

/-- The file name of an output whose path does not end in one. -/
def defaultName : String := "a.out"

/-- A hidden file beside the output. The number keeps apart those of several runs. -/
def temporaryPath (output : String) (number : Nat) : String :=
  let name := (Path.fileName? output).getD defaultName
  Path.withFileName output ("." ++ name ++ "." ++ toString number ++ ".tmp")

inductive BuildError where
  | compile (e : CompileError)
  | file (e : FileError)
deriving DecidableEq

def BuildError.message : BuildError → String
  | compile e => e.message
  | file e => "I/O error: " ++ e.message

/-- Compiles a program to a file. Nothing is written if it cannot be compiled. -/
def Program.build (perform : Performer m) (number : Nat) (p : Program) (output : String) :
    m (Except BuildError Unit) :=
  match p.compile with
  | .error e => return .error (.compile e)
  | .ok bytes => do
    return (← install perform (temporaryPath output number) output bytes).mapError .file

end Armature
