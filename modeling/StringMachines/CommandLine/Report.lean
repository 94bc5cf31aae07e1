import StringMachines.CommandLine.Command
import StringMachines.Erasing.Events
import StringMachines.Text.ControlSequence
import StringMachines.Text.Lines
import StringMachines.Text.Terminal
import StringMachines.Transducer.Run
import StringMachines.Transducer.Sequential

/-!
# What a command prints

A report is what the program writes and the status with which it ends. `erase` prints one line
per input, its verdict, and stops at an input that is refused; `transduce` prints the outputs of
each input, or says that there are none. Inputs are read through an argument of `run`, so that
a command asks for a file or for the standard input only when it gets that far. The search for the
outputs of a transducer need not end; it is given a budget.
-/

namespace StringMachines.CommandLine

/-- The lines that the program writes, and its status. -/
structure Report where
  status : Nat := 0
  output : List String := []
  diagnostics : List String := []
deriving DecidableEq, Repr

namespace Report

/-- The same report after some earlier lines. -/
def after (report : Report) (output diagnostics : List String) : Report :=
  { report with
    output := output ++ report.output
    diagnostics := diagnostics ++ report.diagnostics }

/-- Lines as text, each with its newline. -/
def text (lines : List String) : String :=
  String.join (lines.map (· ++ "\n"))

end Report

/-! ## Faults -/

/-- The status for a usage error: 11 for a fault of a value, 12 for something missing, and 10
for the rest. -/
def UsageError.status : UsageError → Nat
  | invalidValue _ _ _ | missingValue _ => 11
  | missingCommand | missingArgument _ => 12
  | _ => 10

/-- An option or an argument as messages show it, between quotation marks. -/
def quotedLiteral (text : String) : String :=
  "'" ++ Text.Style.strong.apply text ++ "'"

/-- Something wrong as messages show it, between quotation marks. -/
def quotedFault (text : String) : String :=
  "'" ++ Text.Style.caution.apply text ++ "'"

/-- The wording of a usage error. -/
def UsageError.message : UsageError → String
  | noArguments => "a command is required"
  | missingCommand => "a command is required but none was given"
  | unknownArgument argument =>
    "unexpected argument " ++ quotedFault (String.ofList argument) ++ " found"
  | unneededValue option =>
    "unexpected value for " ++ quotedLiteral option ++ " found; no more were expected"
  | repeatedOption option =>
    "the argument " ++ quotedFault option ++ " cannot be used multiple times"
  | conflict option other =>
    "the argument " ++ quotedFault option ++ " cannot be used with " ++ quotedFault other
  | missingArgument option =>
    "the required argument " ++ quotedLiteral option ++ " was not provided"
  | missingValue option =>
    "a value is required for " ++ quotedLiteral option ++ " but none was supplied"
  | invalidValue value option reason =>
    "invalid value " ++ quotedFault (String.ofList value) ++ " for " ++ quotedLiteral option ++
      ": " ++ reason

/-- What is written for a usage error: the message, and where help is to be had. -/
def UsageError.notice (e : UsageError) : String :=
  Text.Style.alarm.apply "error:" ++ " " ++ e.message ++ "\n\nFor more information, try " ++
    quotedLiteral "--help" ++ "."

/-- How the program is used. -/
def usage : List String := [
  "Usage: erasing [-v] erase [-s STRINGS]... -p PATTERN [-l] [--first-position] [INPUT]...",
  "       erasing [-v] transduce -t FROM:INPUT:TO:OUTPUT... -i STATE [-F STATE]... [INPUT]..."]

/-- The report for arguments that give no command. Diagnostics are not for a terminal, so that
the styles of a notice are taken out, together with all control sequences in what it quotes. -/
def Interruption.report : Interruption → Report
  | help => { output := usage }
  | version => { output := ["erasing 0.1.0"] }
  | fault e =>
    { status := e.status, diagnostics := [String.ofList (Text.plain e.notice.toList)] }

/-- The status for an error of a machine. -/
def errorStatus : Error → Nat
  | .initialStateUnknown _ => 30
  | .finalStatesUnknown _ => 31
  | .nondeterministic _ _ => 32
  | .reservedSymbol _ _ | .emptyErasingString => 40
  | .invalidPattern _ => 41
  | .inputTooLong _ _ => 42

/-- The report for an error of a machine, with the error behind it. -/
def errorReport (e : Error) : Report :=
  { status := errorStatus e, diagnostics := ["Error: " ++ ": ".intercalate e.messages] }

/-! ## Inputs -/

/-- A place outside the program that inputs are read from. -/
inductive Source where
  | file (name : Word)
  | standardInput
deriving DecidableEq, Repr

/-- How messages show a source. -/
def Source.display : Source → String
  | file name => String.ofList name
  | standardInput => "stdin"

/-- The report for a source that cannot be read. -/
def Source.unreadable (source : Source) (reason : String) : Report :=
  { status := 20, diagnostics := [s!"Error: Failed to read {source.display}: {reason}"] }

/-- The inputs in the contents of a source: the lines of a text. -/
def Source.inputs (source : Source) (contents : Except String ByteArray) :
    Except Report (List Word) :=
  match contents with
  | .error reason => .error (source.unreadable reason)
  | .ok bytes =>
    match String.fromUTF8? bytes with
    | none => .error (source.unreadable "stream did not contain valid UTF-8")
    | some text => .ok (Text.lines text.toList)

variable {m : Type → Type} [Monad m]

/-- The inputs of a command. -/
def InputSource.read (read : Source → m (Except String ByteArray)) :
    InputSource → m (Except Report (List Word))
  | operands inputs => return .ok inputs
  | file name => return (Source.file name).inputs (← read (.file name))
  | standardInput => return Source.standardInput.inputs (← read .standardInput)

/-! ## Commands -/

/-- The verdicts on the inputs, up to the first input that is refused. -/
def eraseReport (system : ErasingSystem) : List Word → Report
  | [] => {}
  | input :: inputs =>
    match system.run input with
    | .error e => errorReport e
    | .ok verdict =>
      let line := if verdict.accepted then "accepted" else "rejected"
      let messages := if system.settings.verbose then system.runMessages input verdict else []
      (eraseReport system inputs).after [line]
        (messages.map fun msg => " INFO " ++ Text.guarded msg)

/-- The lines for the outputs of one input. -/
def outputLines (outputs : List Word) : List String :=
  if outputs.isEmpty then ["<no output>"] else outputs.map String.ofList

/-- The outputs for each input. -/
def transduceReport (outputs : Word → List Word) (inputs : List Word) : Report :=
  { output := inputs.flatMap fun input => outputLines (outputs input) }

/-- The outputs of a transducer that are found within the budget. -/
def outputsWithin (t : Transducer) (budget : Nat) (input : Word) : List Word :=
  ((Transducer.Run.start t input).outputs t budget budget).map (·.output)

/-- The report of `erase` on some inputs. -/
def EraseCommand.report (command : EraseCommand) (inputs : List Word) : Report :=
  match ErasingSystem.build command.strings command.pattern command.settings with
  | .error e => errorReport e
  | .ok system => eraseReport system inputs

/-- Runs `erase`: the inputs are read only when the system can be built. -/
def EraseCommand.run (read : Source → m (Except String ByteArray)) (command : EraseCommand) :
    m Report := do
  match ErasingSystem.build command.strings command.pattern command.settings with
  | .error e => return errorReport e
  | .ok _ =>
    match ← command.inputs.read read with
    | .error report => return report
    | .ok inputs => return command.report inputs

/-- The report of `transduce` on some inputs; `budget` limits the search for outputs. -/
def TransduceCommand.report (command : TransduceCommand) (budget : Nat) (inputs : List Word) :
    Report :=
  if command.deterministic then
    match SequentialMachine.build command.transitions command.initial command.finals with
    | .error e => errorReport e
    | .ok machine => transduceReport (fun input => (machine.translate input).toList) inputs
  else
    match Transducer.build command.transitions command.initial command.finals with
    | .error e => errorReport e
    | .ok t => transduceReport (outputsWithin (t.withCap command.cap) budget) inputs

/-- Runs `transduce`: the inputs are read before the transducer is built. -/
def TransduceCommand.run (read : Source → m (Except String ByteArray)) (budget : Nat)
    (command : TransduceCommand) : m Report := do
  match ← command.inputs.read read with
  | .error report => return report
  | .ok inputs => return command.report budget inputs

/-- Runs the program with the given arguments. -/
def run (read : Source → m (Except String ByteArray)) (budget : Nat) (arguments : List Word) :
    m Report := do
  match readCommand {} arguments with
  | .error interruption => return interruption.report
  | .ok (.erase command) => command.run read
  | .ok (.transduce command) => command.run read budget

end StringMachines.CommandLine
