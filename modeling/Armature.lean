import Armature.A64.Instr
import Armature.A64.Patch
import Armature.A64.Register
import Armature.Asm.Defect
import Armature.Asm.Image
import Armature.Asm.Label
import Armature.Asm.Line
import Armature.Asm.Pool
import Armature.Bindings
import Armature.Bytes
import Armature.Cli.Args
import Armature.Cli.Help
import Armature.Cli.Host
import Armature.Cli.Run
import Armature.Compile
import Armature.Decimal
import Armature.Decimal.Reading
import Armature.Double
import Armature.Eval.Error
import Armature.Eval.Operators
import Armature.Eval.Run
import Armature.Eval.State
import Armature.Files.Disk
import Armature.Files.Install
import Armature.Files.Path
import Armature.Json.Basic
import Armature.Json.Reader
import Armature.Json.Writer
import Armature.Lower.Decl
import Armature.Lower.Error
import Armature.Lower.Expr
import Armature.Lower.Frame
import Armature.Lower.Print
import Armature.Lower.Program
import Armature.Lower.Scope
import Armature.Lower.Shape
import Armature.Lower.Stmt
import Armature.MachO.Binding
import Armature.MachO.Command
import Armature.MachO.File
import Armature.MachO.Placement
import Armature.Main
import Armature.Numeral
import Armature.Proofs.Assembled
import Armature.Proofs.Bodies
import Armature.Proofs.Branches
import Armature.Proofs.ControlFlow
import Armature.Proofs.Declarations
import Armature.Proofs.Decode
import Armature.Proofs.Defects
import Armature.Proofs.Emitted
import Armature.Proofs.Inversion
import Armature.Proofs.Layout
import Armature.Proofs.Machine
import Armature.Proofs.Regions
import Armature.Proofs.Resolved
import Armature.Proofs.Straight
import Armature.Proofs.Words
import Armature.Syntax
import Armature.Syntax.Json
import Armature.Text.Escape
import Armature.Text.Hex
import Armature.Value
import Armature.Proofs.Execution
import Armature.Proofs.Evaluation
import Armature.Proofs.Loaded
import Armature.Proofs.Immediates
import Armature.Proofs.Operators
import Armature.Proofs.Computing
import Armature.Proofs.Calls
import Armature.Proofs.Integers
import Armature.Proofs.Simulation
import Armature.Proofs.Printing
import Armature.Proofs.Statements
import Armature.Proofs.Loops
import Armature.Proofs.Functions
import Armature.Proofs.Fuel
import Armature.Proofs.Refinement
import Armature.Proofs.Shapes
import Armature.Proofs.Kinds
import Armature.Proofs.Literals
import Armature.Proofs.Tracking
import Armature.Proofs.Agreement
import Armature.Proofs.Frames
import Armature.Proofs.Reading
import Armature.Proofs.Parsed
import Armature.Proofs.Framing
import Armature.Proofs.Addresses
import Armature.Proofs.References
import Armature.Proofs.Sessions
import Armature.Proofs.Rearranged
import Armature.Proofs.RenamedCode
import Armature.Proofs.JsonText
import Armature.Proofs.ProgramJson
import Armature.Proofs.ProgramText
import Armature.Proofs.Isolation
import Armature.Proofs.Memory
import Armature.Proofs.Expressions
import Armature.Proofs.Storing
import Armature.Proofs.PrintLoops
import Armature.Proofs.Composites
import Armature.Proofs.Soundness
import Armature.Proofs.Enums
import Armature.Proofs.Spellings
import Armature.Proofs.EnumImages
import Armature.Proofs.BranchWords
import Armature.Proofs.LabelTables
import Armature.Proofs.PrintedStrings
import Armature.Proofs.Staging
import Armature.Proofs.Building
import Armature.Proofs.Interning
import Armature.Proofs.Counting
import Armature.Proofs.Reachable
import Armature.Proofs.DictKeys
import Armature.Proofs.Paths
import Armature.Proofs.Disks
import Armature.Proofs.Installing
import Armature.Proofs.Inputs
import Armature.Proofs.Rounding
import Armature.Proofs.Numerals
import Armature.Proofs.PrintedDoubles
import Armature.Proofs.Encodings
import Armature.Proofs.Escapes
