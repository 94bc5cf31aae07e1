import StringMachines.Transducer.Machine

/-!
# Transitions as text

A transition is written as its four parts with colons between them: source, word read, target,
word written. The two states have to be there; the words may be empty.
-/

namespace StringMachines.Transition

/-- A reason to refuse a text as a transition. -/
inductive TextError where
  /-- The text does not have four parts. -/
  | wrongFieldCount
  | emptyState
deriving DecidableEq, Repr

/-- The wording of a reason, for the text that is refused. -/
def TextError.message (text : Word) : TextError → String
  | wrongFieldCount => s!"expected from:input:to:output, got '{String.ofList text}'"
  | emptyState => s!"states must not be empty in '{String.ofList text}'"

/-- The text of a transition. -/
def text (t : Transition) : Word :=
  List.intercalate [':'] [t.source, t.input, t.target, t.output]

/-- Reads the text of a transition. -/
def ofText (text : Word) : Except TextError Transition :=
  match text.splitOn ':' with
  | [source, input, target, output] =>
    if source = [] ∨ target = [] then .error .emptyState
    else .ok ⟨source, input, target, output⟩
  | _ => .error .wrongFieldCount

end StringMachines.Transition
