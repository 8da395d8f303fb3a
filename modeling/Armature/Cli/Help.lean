import Armature.Cli.Args

/-!
# Texts of the command line
-/

namespace Armature.Cli

def versionText : String := "jjc 0.1.0\n"

def lines (ls : List String) : String := String.join (ls.map (· ++ "\n"))

def verboseHelp : String := "Enable debug logging (overridden by JJC_LOG)"

def describe : Command → String
  | .build => "Compile an AST file to a native executable"
  | .run => "Interpret an AST file with the reference interpreter"
  | .check => "Lower an AST file without writing an executable"

def helpDescription : String := "Print this message or the help of the given subcommand(s)"

def mainHelp : String :=
  lines ["JibJab native compiler - AST to AArch64 Mach-O", "",
    "Usage: jjc [OPTIONS] <COMMAND>", "",
    "Commands:",
    "  build  " ++ describe .build,
    "  run    " ++ describe .run,
    "  check  " ++ describe .check,
    "  help   " ++ helpDescription, "",
    "Options:",
    "  -v, --verbose  " ++ verboseHelp,
    "  -h, --help     Print help",
    "  -V, --version  Print version"]

def commandHelp (command : Command) : String :=
  let options :=
    match command with
    | .build =>
      ["  -o, --output <OUTPUT>  Output file path (default: input file stem)",
        "  -v, --verbose          " ++ verboseHelp,
        "      --sign             Ad-hoc sign the executable with `codesign -s -`",
        "  -h, --help             Print help"]
    | .run | .check => ["  -v, --verbose  " ++ verboseHelp, "  -h, --help     Print help"]
  lines (describe command :: "" :: ("Usage: jjc " ++ command.name ++ " [OPTIONS] <FILE>") :: ""
    :: "Arguments:" :: "  <FILE>  Input AST (JSON)" :: "" :: "Options:" :: options)

def helpHelp : String :=
  lines [helpDescription, "", "Usage: jjc help [COMMAND]...", "", "Arguments:",
    "  [COMMAND]...  Print help for the subcommand(s)"]

def helpText : Topic → String
  | .program => mainHelp
  | .command command => commandHelp command
  | .help => helpHelp

end Armature.Cli
