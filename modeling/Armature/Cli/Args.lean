/-!
# Arguments of the command line

An argument that starts with a hyphen is an option, except for a single hyphen. Two hyphens alone end
the options. Short options can share one hyphen. No option may be given twice.
-/

namespace Armature.Cli

inductive Command where
  | build | run | check
deriving DecidableEq

namespace Command

def all : List Command := [.build, .run, .check]

def name : Command → String
  | build => "build"
  | run => "run"
  | check => "check"

def ofName? (name : String) : Option Command := all.find? (·.name = name)

end Command

/-- What there is help on. -/
inductive Topic where
  | program
  | command (c : Command)
  /-- The word `help`, which stands in the place of a command. -/
  | help
deriving DecidableEq

/-- What the command line asks for. -/
inductive Request where
  | build (file : String) (output : Option String) (sign : Bool)
  | run (file : String)
  | check (file : String)
  | version
  | help (topic : Topic)
deriving DecidableEq

inductive UsageError where
  | noCommand
  | unknownCommand (name : String)
  | unexpected (arg : String)
  | repeated (option : String)
  | missingFile
  | missingValue (option : String)
deriving DecidableEq

def UsageError.message : UsageError → String
  | noCommand => "a subcommand is required"
  | unknownCommand name => "unrecognized subcommand '" ++ name ++ "'"
  | unexpected arg => "unexpected argument '" ++ arg ++ "' found"
  | repeated option => "the argument '" ++ option ++ "' cannot be used multiple times"
  | missingFile => "the following required arguments were not provided: <FILE>"
  | missingValue option => "a value is required for '" ++ option ++ "' but none was supplied"

/-! ## Single arguments -/

inductive Arg where
  | word (text : String)
  /-- A long option, with the value after an equals sign. -/
  | long (name : String) (value : Option String)
  /-- Short options behind one hyphen. -/
  | short (letters : List Char)
  /-- Two hyphens alone. -/
  | endOfOptions
deriving DecidableEq

/-- The name and the value of a long option. -/
def splitValue (letters : List Char) : String × Option String :=
  let name := String.ofList (letters.takeWhile (· ≠ '='))
  match letters.dropWhile (· ≠ '=') with
  | [] => (name, none)
  | _ :: value => (name, some (String.ofList value))

def Arg.ofText (text : String) : Arg :=
  match text.toList with
  | ['-', '-'] => .endOfOptions
  | '-' :: '-' :: letters =>
    let (name, value) := splitValue letters
    .long name value
  | '-' :: c :: letters => .short (c :: letters)
  | _ => .word text

/-! ## Arguments of a command -/

/-- What has been given so far. -/
structure Given where
  file : Option String
  output : Option String
  sign : Bool
  verbose : Bool

namespace Given

def nothing : Given := ⟨none, none, false, false⟩

def setFile (g : Given) (value : String) : Except UsageError Given :=
  if value.isEmpty then .error .missingFile
  else if g.file.isSome then .error (.unexpected value)
  else .ok { g with file := some value }

def setOutput (g : Given) (value : String) : Except UsageError Given :=
  if value.isEmpty then .error (.missingValue "--output")
  else if g.output.isSome then .error (.repeated "--output")
  else .ok { g with output := some value }

def setSign (g : Given) : Except UsageError Given :=
  if g.sign then .error (.repeated "--sign") else .ok { g with sign := true }

def setVerbose (g : Given) : Except UsageError Given :=
  if g.verbose then .error (.repeated "--verbose") else .ok { g with verbose := true }

def request (g : Given) (command : Command) : Except UsageError Request :=
  match g.file with
  | none => .error .missingFile
  | some file =>
    match command with
    | .build => .ok (.build file g.output g.sign)
    | .run => .ok (.run file)
    | .check => .ok (.check file)

end Given

/-- What an option leads to. -/
inductive Progress where
  | given (g : Given)
  /-- The next argument is the output. -/
  | wantsOutput (g : Given)
  | wantsHelp

def longOption (command : Command) (g : Given) (name : String) (value : Option String) :
    Except UsageError Progress :=
  match name, value with
  | "help", none => .ok .wantsHelp
  | "verbose", none => do return .given (← g.setVerbose)
  | "sign", none =>
    if command = .build then do return .given (← g.setSign) else .error (.unexpected "--sign")
  | "output", none =>
    if command = .build then .ok (.wantsOutput g) else .error (.unexpected "--output")
  | "output", some value =>
    if command = .build then do return .given (← g.setOutput value)
    else .error (.unexpected "--output")
  | name, _ => .error (.unexpected ("--" ++ name))

/-- Short options one after the other. What follows the letter of the output is its value. -/
def shortOptions (command : Command) (g : Given) : List Char → Except UsageError Progress
  | [] => .ok (.given g)
  | 'h' :: _ => .ok .wantsHelp
  | 'v' :: rest => do shortOptions command (← g.setVerbose) rest
  | c :: rest =>
    if c = 'o' ∧ command = .build then
      match rest with
      | [] => .ok (.wantsOutput g)
      | '=' :: value => do return .given (← g.setOutput (String.ofList value))
      | value => do return .given (← g.setOutput (String.ofList value))
    else
      .error (.unexpected (String.ofList ['-', c]))

/-- Arguments that are all words. -/
def words (g : Given) : List String → Except UsageError Given
  | [] => .ok g
  | arg :: rest => do words (← g.setFile arg) rest

/-- The arguments after a command. With `pending`, the first one must be the output. -/
def commandArgs (command : Command) (pending : Bool) (g : Given) :
    List String → Except UsageError Request
  | [] => if pending then .error (.missingValue "--output") else g.request command
  | arg :: rest =>
    match Arg.ofText arg, pending with
    | .word text, true => do commandArgs command false (← g.setOutput text) rest
    | _, true => .error (.missingValue "--output")
    | .word text, false => do commandArgs command false (← g.setFile text) rest
    | .endOfOptions, false => do (← words g rest).request command
    | .long name value, false => do
      match ← longOption command g name value with
      | .given g => commandArgs command false g rest
      | .wantsOutput g => commandArgs command true g rest
      | .wantsHelp => return .help (.command command)
    | .short letters, false => do
      match ← shortOptions command g letters with
      | .given g => commandArgs command false g rest
      | .wantsOutput g => commandArgs command true g rest
      | .wantsHelp => return .help (.command command)

/-! ## The whole command line -/

/-- What is asked for before any command. -/
inductive Leading where
  | nothing
  | version
  | help

/-- Short options before the command, and whether the log is on after them. -/
def leadingLetters (verbose : Bool) : List Char → Except UsageError (Leading × Bool)
  | [] => .ok (.nothing, verbose)
  | 'V' :: _ => .ok (.version, verbose)
  | 'h' :: _ => .ok (.help, verbose)
  | 'v' :: rest => if verbose then .error (.repeated "--verbose") else leadingLetters true rest
  | c :: _ => .error (.unexpected (String.ofList ['-', c]))

def leadingOption (verbose : Bool) : Arg → Except UsageError (Leading × Bool)
  | .long "version" none => .ok (.version, verbose)
  | .long "help" none => .ok (.help, verbose)
  | .long "verbose" none =>
    if verbose then .error (.repeated "--verbose") else .ok (.nothing, true)
  | .long name _ => .error (.unexpected ("--" ++ name))
  | .short letters => leadingLetters verbose letters
  | .word text => .error (.unknownCommand text)
  | .endOfOptions => .error .noCommand

/-- The arguments after the word `help`. -/
def helpTopic : List String → Except UsageError Request
  | [] => .ok (.help .program)
  | ["help"] => .ok (.help .help)
  | name :: rest =>
    match Command.ofName? name, rest with
    | some command, [] => .ok (.help (.command command))
    | some _, extra :: _ => .error (.unknownCommand extra)
    | none, _ => .error (.unknownCommand name)

def argsFrom (verbose : Bool) : List String → Except UsageError Request
  | [] => .error .noCommand
  | arg :: rest =>
    match Command.ofName? arg with
    | some command => commandArgs command false .nothing rest
    | none =>
      if arg = "help" then
        helpTopic rest
      else do
        match ← leadingOption verbose (Arg.ofText arg) with
        | (.nothing, verbose) => argsFrom verbose rest
        | (.version, _) => return .version
        | (.help, _) => return .help .program

def Request.ofArgs (args : List String) : Except UsageError Request := argsFrom false args

end Armature.Cli
