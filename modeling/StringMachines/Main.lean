import StringMachines.CommandLine.Report

/-!
# The program

Reads files and the standard input for the commands of `StringMachines.CommandLine`, and writes
their reports.
-/

namespace StringMachines.CommandLine

/-- Why something could not be read. -/
def reasonOf : IO.Error → String
  | .noFileOrDirectory _ _ _ => "No such file or directory (os error 2)"
  | .permissionDenied _ _ _ => "Permission denied (os error 13)"
  | .inappropriateType _ _ _ => "Is a directory (os error 21)"
  | e => toString e

/-- Everything up to the end of a stream. -/
partial def readAll (stream : IO.FS.Stream) (bytes : ByteArray) : IO ByteArray := do
  let chunk ← stream.read 65536
  if chunk.isEmpty then return bytes else readAll stream (bytes ++ chunk)

/-- How many configurations the search for an output of a transducer visits at most: more than a
machine can store. -/
def searchBudget : Nat := 1_000_000_000_000_000_000

/-- Reads a source. -/
def readSource (source : Source) : IO (Except String ByteArray) := do
  try
    match source with
    | .file name => return .ok (← IO.FS.readBinFile (String.ofList name))
    | .standardInput => return .ok (← readAll (← IO.getStdin) ByteArray.empty)
  catch e => return .error (reasonOf e)

end StringMachines.CommandLine

/-- Runs the program. -/
def main (args : List String) : IO UInt32 := do
  let report ← StringMachines.CommandLine.run StringMachines.CommandLine.readSource
    StringMachines.CommandLine.searchBudget (args.map String.toList)
  let output := StringMachines.CommandLine.Report.text report.output
  let diagnostics := StringMachines.CommandLine.Report.text report.diagnostics
  (← IO.getStderr).putStr diagnostics
  (← IO.getStdout).putStr output
  return report.status.toUInt32
