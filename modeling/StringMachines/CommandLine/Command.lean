import StringMachines.CommandLine.Arguments
import StringMachines.Erasing.System
import StringMachines.Text.Numeral
import StringMachines.Transducer.TransitionText

/-!
# The two commands

`erase` runs an erasing system and `transduce` a transducer, each on a list of inputs. This module
says which options they have and what command a list of arguments stands for.
-/

namespace StringMachines.CommandLine

/-! ## Commands -/

/-- Where the inputs of a command come from. -/
inductive InputSource where
  /-- The operands of the command. -/
  | operands (inputs : List Word)
  /-- The lines of a file. -/
  | file (name : Word)
  /-- The lines of the standard input. -/
  | standardInput
deriving DecidableEq, Repr

/-- Run an erasing system. -/
structure EraseCommand where
  strings : List Word
  pattern : Word
  settings : Settings
  inputs : InputSource
deriving DecidableEq, Repr

/-- Run a transducer. -/
structure TransduceCommand where
  transitions : List Transition
  initial : Word
  finals : List Word
  cap : Option Nat
  /-- Whether the transducer has to be sequential. -/
  deterministic : Bool
  inputs : InputSource
deriving DecidableEq, Repr

/-- What the program is asked to do. -/
inductive Command where
  | erase (command : EraseCommand)
  | transduce (command : TransduceCommand)
deriving DecidableEq, Repr

/-! ## Options -/

/-- Numbers on the command line stay below this one. -/
def numberBound : Nat := UInt64.size

/-- The option that makes runs visible, which every command has. -/
def verboseOption {α : Type} (setting : α) : OptionSpec α :=
  { long := "verbose", short? := some 'v', kind := .flag setting }

/-- The option that shows how the program is used. -/
def helpOption {α : Type} : OptionSpec α :=
  { long := "help", short? := some 'h', kind := .interrupt .help }

/-- The option that names a file of inputs. -/
def inputFileOption {α : Type} (setting : Word → α) : OptionSpec α :=
  { long := "input-file", short? := some 'f', kind := .value "FILE" fun w => .ok (setting w) }

/-- The options in front of a command. -/
def programOptions : List (OptionSpec Unit) := [
  verboseOption (),
  { long := "version", short? := some 'V', kind := .interrupt .version },
  helpOption]

/-- What an option of `erase` sets. -/
inductive EraseSetting where
  | strings (ws : List Word)
  | pattern (w : Word)
  | lazy
  | firstPosition
  | inputFile (name : Word)
  | verbose
deriving DecidableEq, Repr

/-- The options of `erase`. A value of `--strings` is a list separated by commas. -/
def eraseOptions : List (OptionSpec EraseSetting) := [
  { long := "strings", short? := some 's', repeatable := true,
    kind := .value "STRINGS" fun w => .ok (.strings (w.splitOn ',')) },
  { long := "pattern", short? := some 'p', kind := .value "PATTERN" fun w => .ok (.pattern w) },
  { long := "lazy", short? := some 'l', kind := .flag .lazy },
  { long := "first-position", short? := none, kind := .flag .firstPosition },
  inputFileOption .inputFile,
  verboseOption .verbose,
  helpOption]

/-- What an option of `transduce` sets. -/
inductive TransduceSetting where
  | transition (t : Transition)
  | initial (w : Word)
  | final (w : Word)
  | cap (n : Nat)
  | deterministic
  | inputFile (name : Word)
  | verbose
deriving DecidableEq, Repr

/-- The options of `transduce`. -/
def transduceOptions : List (OptionSpec TransduceSetting) := [
  { long := "transition", short? := some 't', repeatable := true,
    kind := .value "TRANSITION" fun w =>
      ((Transition.ofText w).map .transition).mapError (·.message w) },
  { long := "initial", short? := some 'i', kind := .value "INITIAL" fun w => .ok (.initial w) },
  { long := "final", short? := some 'F', repeatable := true,
    kind := .value "STATE" fun w => .ok (.final w) },
  { long := "max-output-length", short? := some 'm',
    kind := .value "N" fun w =>
      ((Text.Numeral.read numberBound w).map .cap).mapError (·.message) },
  { long := "deterministic", short? := some 'd', kind := .flag .deterministic },
  inputFileOption .inputFile,
  verboseOption .verbose,
  helpOption]

/-! ## From arguments to commands -/

/-- The source of the inputs: a file or operands, not both, and the standard input when neither
is given. -/
def inputSource (file? : Option Word) (operands : List Word) : Except Interruption InputSource :=
  match file?, operands with
  | none, [] => .ok .standardInput
  | none, inputs => .ok (.operands inputs)
  | some name, [] => .ok (.file name)
  | some _, _ => .error (.fault (.conflict "--input-file <FILE>" "[INPUT]..."))

/-- The value of an option that has to be given. -/
def required {α : Type} (option : String) : Option α → Except Interruption α
  | some a => .ok a
  | none => .error (.fault (.missingArgument option))

/-- Reads the arguments of `erase`; `verbose` says whether the option came before the command. -/
def readErase (verbose : Bool) (arguments : List Word) : Except Interruption EraseCommand := do
  let args ← Arguments.read eraseOptions {} arguments
  let settings := args.settings.reverse.map (·.2)
  let file? := settings.findSome? fun | .inputFile name => some name | _ => none
  let inputs ← inputSource file? args.operands.reverse
  let pattern ← required "--pattern <PATTERN>"
    (settings.findSome? fun | .pattern w => some w | _ => none)
  return {
    strings := settings.flatMap fun | .strings ws => ws | _ => []
    pattern
    settings := {
      quantifier := if .lazy ∈ settings then .lazy else .greedy
      positions := if .firstPosition ∈ settings then .first else .all
      verbose := verbose || .verbose ∈ settings }
    inputs }

/-- Reads the arguments of `transduce`. -/
def readTransduce (arguments : List Word) : Except Interruption TransduceCommand := do
  let args ← Arguments.read transduceOptions {} arguments
  let settings := args.settings.reverse.map (·.2)
  let cap := settings.findSome? fun | .cap n => some n | _ => none
  let deterministic := decide (.deterministic ∈ settings)
  if cap.isSome && deterministic then
    throw (.fault (.conflict "--max-output-length <N>" "--deterministic"))
  let file? := settings.findSome? fun | .inputFile name => some name | _ => none
  let inputs ← inputSource file? args.operands.reverse
  let transitions := settings.filterMap fun | .transition t => some t | _ => none
  if transitions.isEmpty then
    throw (.fault (.missingArgument "--transition <TRANSITION>"))
  let initial ← required "--initial <INITIAL>"
    (settings.findSome? fun | .initial w => some w | _ => none)
  return {
    transitions
    initial
    finals := settings.filterMap fun | .final w => some w | _ => none
    cap
    deterministic
    inputs }

/-- The command that is missing, or should have been the first argument. -/
def noCommand (args : Arguments Unit) : Interruption :=
  .fault (if args.settings.isEmpty then .noArguments else .missingCommand)

/-- Reads the arguments of the program: options for every command, then the command with its own
arguments. -/
def readCommand (args : Arguments Unit) : List Word → Except Interruption Command
  | [] => .error (noCommand args)
  | ['-', '-'] :: [] => .error (noCommand args)
  | ['-', '-'] :: text :: _ => .error (.fault (.unknownArgument text))
  | ('-' :: '-' :: text) :: rest => do
    let args ← args.long programOptions text
    readCommand args rest
  | ('-' :: c :: text) :: rest => do
    let args ← args.short programOptions (c :: text)
    readCommand args rest
  | name :: rest =>
    if name = "erase".toList then return .erase (← readErase (!args.settings.isEmpty) rest)
    else if name = "transduce".toList then return .transduce (← readTransduce rest)
    else if name = "help".toList then
      match rest with
      | [] => .error .help
      | [topic] =>
        if topic ∈ ["erase".toList, "transduce".toList, "help".toList] then .error .help
        else .error (.fault (.unknownArgument topic))
      | _ :: text :: _ => .error (.fault (.unknownArgument text))
    else .error (.fault (.unknownArgument name))

end StringMachines.CommandLine
