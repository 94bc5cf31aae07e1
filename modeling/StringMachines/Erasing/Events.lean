import StringMachines.Erasing.Run
import StringMachines.Event

/-!
# Events of an erasing system

A system reports its construction once, and of each run the strings, the pattern and the input,
then every erasure that the search tried, and the answer.
-/

namespace StringMachines.ErasingSystem

/-- Words separated by commas. -/
def listing (ws : List Word) : String :=
  ", ".intercalate (ws.map String.ofList)

/-- The event of a system that has been built. -/
def builtEvent (system : ErasingSystem) : Event where
  severity := .debug
  message := "built erasing system"
  fields := [("erasing_strings", listing system.strings),
    ("pattern", String.ofList system.pattern.text)]

/-- The message of an erasure: the string, the tape with a mark in front of the occurrence, and
the trace before the erasure. -/
def erasureMessage (s : ErasingState) (x : Erasure) : String :=
  let before := String.ofList (s.tape.take x.position)
  let behind := String.ofList (s.tape.drop x.position)
  let trace := if s.trace = [] then "\"epsilon\"" else String.ofList s.trace
  "Chosen erasing string: " ++ String.ofList x.string ++ "; input tape: " ++ before ++ "#" ++
    behind ++ "; erased strings concatenation: " ++ trace

/-- The messages of a run, in order. -/
def runMessages (system : ErasingSystem) (input : Word) (verdict : Verdict) : List String :=
  ["Start erasing system",
    "Erasing strings: " ++ listing system.strings,
    "Regular language (expression): " ++ String.ofList system.pattern.text,
    "Input string: " ++ String.ofList input] ++
  verdict.steps.map (fun (s, x) => erasureMessage s x) ++
  [if verdict.accepted then "-> Input string accepted by the erasing system"
    else "-> Input string rejected by the erasing system"]

/-- The events of a run under the given settings. -/
def runEvents (system : ErasingSystem) (settings : Settings) (input : Word) (verdict : Verdict) :
    List Event :=
  (system.runMessages input verdict).map fun message =>
    { severity := if settings.verbose then .info else .trace, message }

end StringMachines.ErasingSystem
