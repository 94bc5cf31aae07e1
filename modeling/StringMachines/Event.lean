/-!
# Events

What a machine reports about its construction and its runs, beside the result.
-/

namespace StringMachines

/-- How much detail an event belongs to. -/
inductive Event.Severity where
  | info
  | debug
  | trace
deriving DecidableEq, Repr

/-- A message with named values. -/
structure Event where
  severity : Event.Severity
  message : String
  fields : List (String × String) := []
deriving DecidableEq, Repr

end StringMachines
