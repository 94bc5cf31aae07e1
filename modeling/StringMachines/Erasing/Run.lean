import StringMachines.Erasing.System
import StringMachines.Ranking
import StringMachines.Search
import StringMachines.Word.Occurrence

/-!
# Runs of an erasing system

A state of a run is what is left of the input, the tape, together with the trace, the strings
erased so far one after another. In a state the system may remove every erasing string that
occurs on the tape and leaves the trace a possible beginning of a word of the pattern. The
strings are tried as they rank, and each of them at its occurrences from left to right;
occurrences whose removal leaves the same tape are tried once. The input is accepted when some
sequence of erasures empties the tape with a trace in the pattern's language.
-/

namespace StringMachines

/-- What is left of the input, and what has been erased. -/
structure ErasingState where
  tape : Word
  trace : Word
deriving DecidableEq, Hashable, Repr

/-- The removal of a string at a position of the tape. -/
structure Erasure where
  string : Word
  position : Nat
deriving DecidableEq, Repr

namespace ErasingState

/-- The state after an erasure. -/
def erase (s : ErasingState) (x : Erasure) : ErasingState where
  tape := s.tape.removeAt x.position x.string.length
  trace := s.trace ++ x.string

end ErasingState

namespace ErasingSystem

/-- The erasing strings that may be removed in a state, in the order of the system. -/
def candidates (system : ErasingSystem) (quantifier : Quantifier) (s : ErasingState) :
    List (Candidate Word) :=
  (system.strings.filter (·.occursIn s.tape)).filterMap fun e =>
    (system.levels? quantifier (s.trace ++ e)).map (⟨e, ·⟩)

/-- The positions at which a string is removed from a tape. -/
def positions (mode : PositionMode) (string tape : Word) : List Nat :=
  let occurrences := string.occurrences tape
  match mode with
  | .all => (Occurrence.distinct string.length occurrences).map (·.position)
  | .first => (occurrences.take 1).map (·.position)

/-- The erasures of a state, in the order in which they are tried. -/
def erasures (system : ErasingSystem) (settings : Settings) (s : ErasingState) : List Erasure :=
  (Candidate.ranked settings.quantifier (system.candidates settings.quantifier s)).flatMap
    fun c => (positions settings.positions c.value s.tape).map (⟨c.value, ·⟩)

/-! ## An erasure shortens the tape -/

/-- Removing a string that lies within the tape shortens it. -/
theorem length_erase_lt_of_le {system : ErasingSystem} {s : ErasingState} {x : Erasure}
    (hmem : x.string ∈ system.strings) (hle : x.position + x.string.length ≤ s.tape.length) :
    (s.erase x).tape.length < s.tape.length := by
  have := List.length_pos_iff.2 (system.strings_ne_nil _ hmem)
  rw [ErasingState.erase, Word.length_removeAt hle]
  omega

/-- A candidate is one of the system's strings. -/
theorem mem_strings_of_mem_candidates {system : ErasingSystem} {quantifier : Quantifier}
    {s : ErasingState} {c : Candidate Word} (h : c ∈ system.candidates quantifier s) :
    c.value ∈ system.strings := by
  obtain ⟨e, he, hc⟩ := List.mem_filterMap.1 h
  obtain ⟨levels, -, rfl⟩ := Option.map_eq_some_iff.1 hc
  exact (List.mem_filter.1 he).1

/-- A string is removed at one of its occurrences. -/
theorem exists_occurrence_of_mem_positions {mode : PositionMode} {string tape : Word}
    {position : Nat} (h : position ∈ positions mode string tape) :
    ∃ o ∈ string.occurrences tape, o.position = position := by
  cases mode with
  | all =>
    obtain ⟨o, ho, hp⟩ := List.mem_map.1 h
    exact ⟨o, Occurrence.mem_of_mem_distinct ho, hp⟩
  | first =>
    obtain ⟨o, ho, hp⟩ := List.mem_map.1 h
    exact ⟨o, List.mem_of_mem_take ho, hp⟩

/-- A string removed at one of its positions lies within the tape. -/
theorem le_length_of_mem_positions {mode : PositionMode} {string tape : Word} {position : Nat}
    (h : position ∈ positions mode string tape) : position + string.length ≤ tape.length := by
  obtain ⟨o, ho, rfl⟩ := exists_occurrence_of_mem_positions h
  have := Word.position_of_mem_occurrencesFrom ho
  omega

/-- An erasure of a state removes a system's string that lies within the tape. -/
theorem of_mem_erasures {system : ErasingSystem} {settings : Settings} {s : ErasingState}
    {x : Erasure} (h : x ∈ system.erasures settings s) :
    x.string ∈ system.strings ∧ x.position + x.string.length ≤ s.tape.length := by
  obtain ⟨c, hc, hx⟩ := List.mem_flatMap.1 h
  obtain ⟨position, hp, rfl⟩ := List.mem_map.1 hx
  exact ⟨mem_strings_of_mem_candidates (Candidate.mem_of_mem_ranked hc),
    le_length_of_mem_positions hp⟩

/-- Every erasure shortens the tape. -/
theorem length_erase_lt {system : ErasingSystem} {settings : Settings} {s : ErasingState}
    {x : Erasure} (h : x ∈ system.erasures settings s) :
    (s.erase x).tape.length < s.tape.length := by
  obtain ⟨hmem, hle⟩ := of_mem_erasures h
  exact length_erase_lt_of_le hmem hle

/-! ## Runs -/

/-- The states of a run and the erasures between them. A state with an empty tape is decided by
its trace. -/
def space (system : ErasingSystem) (settings : Settings) : SearchSpace ErasingState Erasure where
  verdict? s := if s.tape = [] then some (system.pattern.accepts s.trace) else none
  moves := system.erasures settings
  apply := ErasingState.erase
  size s := s.tape.length
  size_apply_lt := length_erase_lt

/-- Inputs of more characters are refused. -/
def maximumInputLength : Nat := 1000

/-- The answer of the search for an input, with the erasures it tried. -/
abbrev Verdict := Outcome ErasingState Erasure

/-- Decides whether the input is accepted. -/
def runWith (system : ErasingSystem) (settings : Settings) (input : Word) :
    Except Error Verdict :=
  if input.length > maximumInputLength then
    .error (.inputTooLong input.length maximumInputLength)
  else .ok ((system.space settings).explore ⟨input, []⟩)

/-- Decides whether the input is accepted under the system's own settings. -/
def run (system : ErasingSystem) (input : Word) : Except Error Verdict :=
  system.runWith system.settings input

end ErasingSystem

end StringMachines
