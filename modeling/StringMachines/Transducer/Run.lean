import Std.Data.HashSet
import StringMachines.Transducer.Machine

/-!
# Runs of a transducer

A run enumerates the outputs of a transducer for an input. It is a depth-first search over
configurations: the state reached, what is left of the input, and the output so far. A
configuration is visited once. The output of a configuration belongs to the answer when the whole
input is read and the state is final.

The search need not end, since a cycle of transitions that read nothing can write more and more.
A run is therefore a value that can be asked for its next output. `Run.step` visits one
configuration; `Run.next` goes on to the next output within a given number of visits.
-/

namespace StringMachines

/-- Where a run stands: the state, what is left to read, and what has been written. -/
structure Configuration where
  state : Word
  remaining : Word
  output : Word
deriving DecidableEq, Repr

/-- What is left of one input is told apart by its length. -/
instance : Hashable Configuration where
  hash c := mixHash (hash c.state) (mixHash (hash c.remaining.length) (hash c.output))

namespace Transducer

/-- Whether a transition that reads nothing may be taken after this output. -/
def mayReadNothing (t : Transducer) (output : Word) : Bool :=
  t.cap.all (output.length < ·)

/-- The configurations after one transition, in the order of definition. -/
def successors (t : Transducer) (c : Configuration) : List Configuration :=
  (t.movesFrom c.state).flatMap fun (read, targets) =>
    if read.isPrefixOf c.remaining && (!read.isEmpty || t.mayReadNothing c.output) then
      targets.map fun target =>
        ⟨target.state, c.remaining.drop read.length, c.output ++ target.output⟩
    else []

/-- Whether the output of a configuration belongs to the answer. -/
def isAccepting (t : Transducer) (c : Configuration) : Bool :=
  c.remaining.isEmpty && t.isFinal c.state

/-- The event of an output. -/
def outputEvent (c : Configuration) : Event where
  severity := .trace
  message := "transducer output"
  fields := [("output", String.ofList c.output), ("state", String.ofList c.state)]

/-- A suspended enumeration of outputs: the configurations to visit, the next one first, and
those already visited. -/
structure Run where
  pending : List Configuration
  visited : Std.HashSet Configuration

/-- What asking a run for more leads to. -/
inductive Progress where
  /-- There is no further output. -/
  | exhausted
  /-- The configuration gives the next output. -/
  | output (c : Configuration) (run : Run)
  /-- No output yet. -/
  | suspended (run : Run)

namespace Run

/-- The run of an input, before its first step. -/
def start (t : Transducer) (input : Word) : Run where
  pending := [⟨t.initial, input, []⟩]
  visited := ∅

/-- Visits the next configuration. What it leads to is visited first, and of that the transition
defined last. -/
def step (t : Transducer) (run : Run) : Progress :=
  match run.pending with
  | [] => .exhausted
  | c :: pending =>
    let (known, visited) := run.visited.containsThenInsert c
    if known then .suspended { pending, visited }
    else
      let later : Run := { pending := (t.successors c).reverse ++ pending, visited }
      if t.isAccepting c then .output c later else .suspended later

/-- Goes on to the next output, within `budget` visits. -/
def next (t : Transducer) : Nat → Run → Progress
  | 0, run => .suspended run
  | budget + 1, run =>
    match run.step t with
    | .suspended later => later.next t budget
    | progress => progress

/-- The first `limit` outputs, each within `budget` visits after the one before it. -/
def outputs (t : Transducer) (budget : Nat) : Nat → Run → List Configuration
  | 0, _ => []
  | limit + 1, run =>
    match run.next t budget with
    | .output c later => c :: later.outputs t budget limit
    | _ => []

end Run

end Transducer

end StringMachines
