import StringMachines.Pattern.Error

/-!
# Why a machine is refused

The reasons for which an erasing system or a transducer cannot be built or will not read an
input, and their wording.
-/

namespace StringMachines

/-- A reason to refuse a machine or its input. -/
inductive Error where
  /-- The initial state is not a state of any transition. -/
  | initialStateUnknown (state : Word)
  /-- Final states that are not states of any transition. -/
  | finalStatesUnknown (states : List Word)
  /-- A transition that a deterministic machine cannot have. -/
  | nondeterministic (source input : Word)
  /-- An erasing string with a symbol that is reserved for patterns. -/
  | reservedSymbol (string : Word) (symbol : Char)
  | emptyErasingString
  | invalidPattern (cause : Pattern.Error)
  /-- An input that is longer than the search takes. -/
  | inputTooLong (length maximum : Nat)
deriving DecidableEq, Repr

namespace Error

/-- The error behind an error. -/
def cause? : Error → Option Pattern.Error
  | invalidPattern cause => some cause
  | _ => none

/-- Whether the message could name something else as well. -/
def isAmbiguous (e : Error) : Bool :=
  e.cause?.any (·.isAmbiguous)

/-- The wording of an error. -/
def message : Error → String
  | initialStateUnknown state =>
    s!"Initial state {Text.quote state} is not one of the transducer states"
  | finalStatesUnknown states =>
    s!"Final states {Text.quoteAll states} are not among the transducer states"
  | nondeterministic source input =>
    s!"Invalid deterministic transition from {Text.quote source} reading {Text.quote input}"
  | reservedSymbol string symbol =>
    s!"Erasing string {Text.quote string} contains reserved symbol {Text.quoteChar symbol}"
  | emptyErasingString => "Erasing strings must not be empty"
  | invalidPattern cause => "Invalid regular language pattern: " ++ cause.message
  | inputTooLong length maximum =>
    s!"Input string length {length} exceeds the maximum of {maximum}"

/-- The messages of an error and of the error behind it. -/
def messages (e : Error) : List String :=
  e.message :: (e.cause?.map (·.message)).toList

end Error

end StringMachines
