import StringMachines.Word

/-!
# Arguments of a command

Arguments are options and operands in any order. An option has a long name and may have a letter;
it is a flag or takes a value. `--name=value`, `-xvalue` and `-x=value` carry the value with them;
otherwise the next argument is the value. Letters of flags can be joined behind one dash, and the
last of them may take a value. A single dash is an operand or a value, and after `--` everything
is an operand.

An option that takes its value from the next argument is settled only when the next option or
operand comes, or at the end. Until then it is pending: an argument that is not understood is
reported before a fault of the pending option.
-/

namespace StringMachines.CommandLine

/-- A reason to refuse the arguments. -/
inductive UsageError where
  | noArguments
  | missingCommand
  | unknownArgument (argument : Word)
  /-- A flag was given a value. -/
  | unneededValue (option : String)
  /-- An option was given twice that can be given once. -/
  | repeatedOption (option : String)
  | conflict (option other : String)
  | missingArgument (option : String)
  | missingValue (option : String)
  | invalidValue (value : Word) (option reason : String)
deriving DecidableEq, Repr

/-- Why no command comes out of the arguments. -/
inductive Interruption where
  /-- The user asked how the program is used. -/
  | help
  /-- The user asked which program this is. -/
  | version
  | fault (e : UsageError)
deriving DecidableEq, Repr

/-- What an option does. -/
inductive OptionKind (α : Type) where
  /-- The option stands for this setting. -/
  | flag (setting : α)
  /-- The option takes a value, shown under `valueName`, and reads a setting from it. -/
  | value (valueName : String) (read : Word → Except String α)
  /-- The option ends the reading. -/
  | interrupt (reason : Interruption)

/-- An option that a command understands. -/
structure OptionSpec (α : Type) where
  long : String
  short? : Option Char
  kind : OptionKind α
  /-- Whether the option may be given more than once. -/
  repeatable : Bool := false

namespace OptionSpec

variable {α : Type}

/-- How messages show the option. -/
def display (spec : OptionSpec α) : String :=
  match spec.kind with
  | .value valueName _ => "--" ++ spec.long ++ " <" ++ valueName ++ ">"
  | _ => "--" ++ spec.long

end OptionSpec

/-- The arguments read so far. -/
structure Arguments (α : Type) where
  /-- An option waiting to be settled, with its value if that has come. -/
  pending : Option (OptionSpec α × Option Word) := none
  /-- The settings of the options, each with the option's name, last to first. -/
  settings : List (String × α) := []
  /-- The operands, last to first. -/
  operands : List Word := []

namespace Arguments

variable {α : Type}

/-- Adds the setting of an option, unless the option has been given and cannot be repeated. -/
def add (args : Arguments α) (spec : OptionSpec α) (setting : Except UsageError α) :
    Except Interruption (Arguments α) :=
  if !spec.repeatable && args.settings.any (·.1 == spec.long) then
    .error (.fault (.repeatedOption spec.display))
  else
    match setting with
    | .ok s => .ok { args with settings := (spec.long, s) :: args.settings }
    | .error e => .error (.fault e)

/-- Adds the setting that an option reads from a value. -/
def addValue (args : Arguments α) (spec : OptionSpec α) (value : Word) :
    Except Interruption (Arguments α) :=
  match spec.kind with
  | .value _ read => args.add spec ((read value).mapError (.invalidValue value spec.display))
  | _ => .error (.fault (.unneededValue spec.display))

/-- Settles the pending option. -/
def settle (args : Arguments α) : Except Interruption (Arguments α) :=
  match args.pending with
  | none => .ok args
  | some (spec, none) => .error (.fault (.missingValue spec.display))
  | some (spec, some value) => { args with pending := none }.addValue spec value

/-- An option without an attached value: a flag is set at once, and an option that takes a value
is left pending. -/
def option (args : Arguments α) (spec : OptionSpec α) : Except Interruption (Arguments α) := do
  let args ← args.settle
  match spec.kind with
  | .flag setting => args.add spec (.ok setting)
  | .value _ _ => return { args with pending := some (spec, none) }
  | .interrupt reason => throw reason

/-- An option with an attached value. -/
def optionWithValue (args : Arguments α) (spec : OptionSpec α) (value : Word) :
    Except Interruption (Arguments α) := do
  let args ← args.settle
  args.addValue spec value

/-- An argument `--name` or `--name=value`, given without its dashes. -/
def long (specs : List (OptionSpec α)) (args : Arguments α) (text : Word) :
    Except Interruption (Arguments α) :=
  match specs.find? (·.long.toList == Word.upTo '=' text) with
  | none => .error (.fault (.unknownArgument ('-' :: '-' :: text)))
  | some spec =>
    if '=' ∈ text then
      match spec.kind with
      | .value _ _ => args.optionWithValue spec (Word.beyond '=' text)
      | _ => .error (.fault (.unneededValue spec.display))
    else args.option spec

/-- Letters joined behind one dash. -/
def short (specs : List (OptionSpec α)) (args : Arguments α) :
    Word → Except Interruption (Arguments α)
  | [] => .ok args
  | c :: rest =>
    match specs.find? (·.short? == some c) with
    | none => .error (.fault (.unknownArgument ['-', c]))
    | some spec =>
      match spec.kind, rest with
      | .value _ _, [] => args.option spec
      | .value _ _, '=' :: value => args.optionWithValue spec value
      | .value _ _, value => args.optionWithValue spec value
      | _, rest => do
        let args ← args.option spec
        args.short specs rest

/-- An operand. -/
def operand (args : Arguments α) (text : Word) : Except Interruption (Arguments α) := do
  let args ← args.settle
  return { args with operands := text :: args.operands }

/-- The value of the option that waits for one, or else an operand. -/
def plain (args : Arguments α) (text : Word) : Except Interruption (Arguments α) :=
  match args.pending with
  | some (spec, none) => .ok { args with pending := some (spec, some text) }
  | _ => args.operand text

/-- Reads all arguments. -/
def read (specs : List (OptionSpec α)) (args : Arguments α) :
    List Word → Except Interruption (Arguments α)
  | [] => args.settle
  | ['-', '-'] :: rest => do
    let args ← rest.foldlM operand args
    args.settle
  | ('-' :: '-' :: text) :: rest => do
    let args ← args.long specs text
    args.read specs rest
  | ('-' :: c :: text) :: rest => do
    let args ← args.short specs (c :: text)
    args.read specs rest
  | text :: rest => do
    let args ← args.plain text
    args.read specs rest

end Arguments

end StringMachines.CommandLine
