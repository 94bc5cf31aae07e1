import StringMachines.Error
import StringMachines.Event
import StringMachines.OrderedMap
import StringMachines.SortedSet

/-!
# Finite transducers

A transition leads from one state to another, reads a word, possibly the empty one, and writes
a word. The states of a transducer are those its transitions mention. Its transitions are kept
by source and then by the word they read, each in the order of first definition, since that order
is the order of the search for outputs (`StringMachines.Transducer.Run`).
-/

namespace StringMachines

/-- A move from one state to another that reads one word and writes another. -/
structure Transition where
  source : Word
  input : Word
  target : Word
  output : Word
deriving DecidableEq, Repr

/-- Where a transition leads, and what it writes on the way. -/
structure Target where
  state : Word
  output : Word
deriving DecidableEq, Repr

/-- The targets of one state by the word read. -/
abbrev Moves := OrderedMap Word (List Target)

/-- The moves of each state after one more transition is defined. -/
def Transition.addTo (table : OrderedMap Word Moves) (t : Transition) : OrderedMap Word Moves :=
  table.alter t.source [] fun moves =>
    moves.alter t.input [] fun targets => targets ++ [⟨t.target, t.output⟩]

/-- The moves of the source of one more transition. -/
theorem Transition.lookup_addTo_self (table : OrderedMap Word Moves) (t : Transition) :
    ((t.addTo table).lookup t.source).getD [] =
      OrderedMap.alter t.input [] (· ++ [⟨t.target, t.output⟩])
        ((table.lookup t.source).getD []) := by
  rw [addTo, OrderedMap.lookup_alter_self, Option.getD_some]

/-- One more transition changes no moves but those of its source. -/
theorem Transition.lookup_addTo_of_ne {t : Transition} {state : Word} (h : state ≠ t.source)
    (table : OrderedMap Word Moves) : (t.addTo table).lookup state = table.lookup state :=
  OrderedMap.lookup_alter_of_ne h _ _ table

/-- A nondeterministic machine that turns words into words. -/
structure Transducer where
  /-- The states, in ascending order. -/
  states : List Word
  /-- The characters that are read, in ascending order. -/
  inputAlphabet : Word
  /-- The characters that are written, in ascending order. -/
  outputAlphabet : Word
  table : OrderedMap Word Moves
  initial : Word
  initial_mem : initial ∈ states
  /-- The final states, in ascending order. -/
  finals : List Word
  finals_subset : ∀ q ∈ finals, q ∈ states
  /-- Nothing is read in between once the output has this length; no limit when there is none. -/
  cap : Option Nat

namespace Transducer

/-- Builds the transducer with the given transitions. The initial state has to be a state of the
transitions, and so have the final states. -/
def build (transitions : List Transition) (initial : Word) (finals : List Word) :
    Except Error Transducer :=
  let states := SortedSet.ofList (transitions.flatMap fun t => [t.source, t.target])
  let finals := SortedSet.ofList finals
  if hinitial : initial ∈ states then
    if hfinals : ∀ q ∈ finals, q ∈ states then
      .ok {
        states
        inputAlphabet := SortedSet.ofList (transitions.flatMap (·.input))
        outputAlphabet := SortedSet.ofList (transitions.flatMap (·.output))
        table := transitions.foldl Transition.addTo []
        initial
        initial_mem := hinitial
        finals
        finals_subset := hfinals
        cap := none }
    else .error (.finalStatesUnknown (finals.filter (· ∉ states)))
  else .error (.initialStateUnknown initial)

/-- What a transducer is built from. -/
theorem of_build_eq_ok {transitions : List Transition} {initial : Word} {finals : List Word}
    {t : Transducer} (h : build transitions initial finals = .ok t) :
    t.table = transitions.foldl Transition.addTo [] ∧ t.initial = initial ∧
      ∀ q, q ∈ t.finals ↔ q ∈ finals := by
  simp only [build] at h
  split at h
  · split at h
    · cases h
      exact ⟨rfl, rfl, fun q => SortedSet.mem_ofList⟩
    · cases h
  · cases h

/-- The transducer with another limit on outputs. -/
def withCap (t : Transducer) (cap : Option Nat) : Transducer :=
  { t with cap }

/-- The moves of a state. -/
def movesFrom (t : Transducer) (state : Word) : Moves :=
  (t.table.lookup state).getD []

/-- The targets of the transitions from a state that read a word. -/
def targets (t : Transducer) (state input : Word) : List Target :=
  ((t.movesFrom state).lookup input).getD []

/-- Whether a state is final. -/
def isFinal (t : Transducer) (state : Word) : Bool :=
  state ∈ t.finals

/-- The event of a transducer that has been built. -/
def builtEvent (t : Transducer) : Event where
  severity := .debug
  message := "built transducer"
  fields := [
    ("states", ", ".intercalate (t.states.map String.ofList)),
    ("initial", String.ofList t.initial),
    ("finals", ", ".intercalate (t.finals.map String.ofList))]

end Transducer

end StringMachines
