import Armature.Cli.Help
import Armature.Cli.Host
import Armature.Eval.Run

/-!
# Commands

Each command prints what it did and returns an exit code. That is zero if it succeeded, two if the
arguments were wrong, and one otherwise.
-/

namespace Armature.Cli

variable {m : Type → Type} [Monad m]

def success : Nat := 0
def failure : Nat := 1
def usageFailure : Nat := 2

/-- Why a command failed. -/
inductive Failure where
  | unreadable (file : String) (e : FileError)
  | invalid (e : ReadError)
  | build (e : BuildError)
  | unsigned (output reason : String)
  | runtime (e : RuntimeError)
  | outOfFuel

namespace Failure

def message : Failure → String
  | unreadable file e => "could not read '" ++ file ++ "': " ++ e.message
  | invalid e => "invalid AST: " ++ e.message
  | build e => e.message
  | unsigned output reason => "could not sign '" ++ output ++ "': " ++ reason
  | runtime e => "runtime error: " ++ e.message
  | outOfFuel => "the program ran for too long"

/-- What is said about the error besides. `file` is that of the program. -/
def notes (file : String) : Failure → List String
  | build (.compile (.unsupported _)) =>
    ["  note: '" ++ file ++ "' uses a construct the native backend cannot lower",
      "  help: `jjc run` interprets the full language"]
  | build (.compile (.internal _)) => ["  note: this is a bug in the backend"]
  | _ => []

end Failure

def reportAll (host : Host m) : List String → m Unit
  | [] => return ()
  | line :: rest => do
    host.report line
    reportAll host rest

def fail (host : Host m) (file : String) (f : Failure) : m Nat := do
  reportAll host (("error: " ++ f.message) :: f.notes file)
  return failure

def load (host : Host m) (file : String) : m (Except Failure Program) := do
  match ← host.readText file with
  | .error e => return .error (.unreadable file e)
  | .ok text => return (Program.read text).mapError .invalid

/-- The output beside the input, named by its stem. -/
def defaultOutput (file : String) : String :=
  match Path.fileName? file with
  | some name => Path.withFileName file (Path.stem name)
  | none => defaultName

/-- Signs an output if that is asked for. One that cannot be signed is removed. -/
def signOutput (host : Host m) (output : String) (sign : Bool) : m (Except Failure Unit) := do
  if sign then
    match ← host.sign output with
    | .ok () => return .ok ()
    | .error reason =>
      let _ ← host.perform (.remove output)
      return .error (.unsigned output reason)
  else
    return .ok ()

def build (host : Host m) (number : Nat) (file : String) (output? : Option String) (sign : Bool) :
    m Nat := do
  match ← load host file with
  | .error f => fail host file f
  | .ok program =>
    let output := output?.getD (defaultOutput file)
    match ← program.build host.perform number output with
    | .error e => fail host file (.build e)
    | .ok () =>
      match ← signOutput host output sign with
      | .error f => fail host file f
      | .ok () =>
        host.print ("Compiled " ++ file ++ " -> " ++ output ++ "\n")
        return success

def run (host : Host m) (file : String) : m Nat := do
  match ← load host file with
  | .error f => fail host file f
  | .ok program =>
    match Run.program Run.ample program State.initial with
    | .done _ s =>
      host.print s.output
      return success
    | .failed e s =>
      host.print s.output
      fail host file (.runtime e)
    | .outOfFuel => fail host file .outOfFuel

def check (host : Host m) (file : String) : m Nat := do
  match ← load host file with
  | .error f => fail host file f
  | .ok program =>
    match program.compile with
    | .error e => fail host file (.build (.compile e))
    | .ok bytes =>
      host.print ("Checked " ++ file ++ " (" ++ toString bytes.length ++ " bytes)\n")
      return success

/-- Carries out a command line and gives the exit code. -/
def execute (host : Host m) (number : Nat) (args : List String) : m Nat := do
  match Request.ofArgs args with
  | .error e =>
    reportAll host ["error: " ++ e.message, "", "For more information, try '--help'."]
    return usageFailure
  | .ok .version =>
    host.print versionText
    return success
  | .ok (.help topic) =>
    host.print (helpText topic)
    return success
  | .ok (.build file output sign) => build host number file output sign
  | .ok (.run file) => run host file
  | .ok (.check file) => check host file

end Armature.Cli
