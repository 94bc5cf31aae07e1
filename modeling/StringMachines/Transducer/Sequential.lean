import StringMachines.Transducer.Machine

/-!
# Sequential machines

A sequential machine is a transducer that reads one character at a time and has at most one
transition for each state and character. It needs no search: a word has at most one output, found
by following the transitions. The machine carries this as a property of the moves of its states
(`Moves.IsSequential`). The construction looks for a transition that breaks it, and a table that is
filled from transitions without such a culprit has it (`SequentialMachine.isSequential_of_build`).
What a construction can come to is said once, in `SequentialMachine.build_cases`.
-/

namespace StringMachines

/-- Moves of which at most one can be made, given the next character: each reads one character, no
two read the same, and each has one target. -/
structure Moves.IsSequential (moves : Moves) : Prop where
  nodup : (moves.map (·.1)).Nodup
  length_read : ∀ move ∈ moves, move.1.length = 1
  length_targets : ∀ move ∈ moves, move.2.length = 1

namespace Moves.IsSequential

/-- Without moves there is nothing to choose from. -/
theorem nil : IsSequential [] where
  nodup := .nil
  length_read _ h := nomatch h
  length_targets _ h := nomatch h

/-- One more move may read a character that no other reads. -/
theorem alter {moves : Moves} (h : moves.IsSequential) {read : Word} (hread : read.length = 1)
    (hnew : read ∉ moves.map (·.1)) (target : Target) :
    IsSequential (moves.alter read [] (· ++ [target])) := by
  rw [OrderedMap.alter_of_notMem hnew, List.nil_append]
  refine ⟨?_, List.forall_mem_append.2 ⟨h.length_read, ?_⟩,
    List.forall_mem_append.2 ⟨h.length_targets, ?_⟩⟩
  · rw [List.map_append]
    refine List.nodup_append.2 ⟨h.nodup, List.pairwise_singleton _ _, fun r hr r' hr' heq => ?_⟩
    rw [heq, List.mem_singleton.1 hr'] at hr
    exact hnew hr
  · exact List.forall_mem_singleton.2 hread
  · exact List.forall_mem_singleton.2 rfl

end Moves.IsSequential

/-- A transducer whose transitions are determined by the state and the next character. -/
structure SequentialMachine where
  transducer : Transducer
  sequential : ∀ state, (transducer.movesFrom state).IsSequential

namespace SequentialMachine

/-- The first transition that reads from the same state what an earlier transition reads; `seen`
holds what was read before. -/
def repeatedRead? (seen : List (Word × Word)) : List Transition → Option Transition
  | [] => none
  | t :: rest =>
    if (t.source, t.input) ∈ seen then some t
    else repeatedRead? ((t.source, t.input) :: seen) rest

/-- The first transition that keeps the machine from being sequential: one that does not read
exactly one character, or else one that repeats what is read from its state. -/
def culprit? (transitions : List Transition) : Option Transition :=
  (transitions.find? fun t => t.input.length ≠ 1).or (repeatedRead? [] transitions)

/-- Transitions without a culprit among them keep the moves of all states sequential. What the
table reads already has been seen. -/
theorem isSequential_foldl_addTo {transitions : List Transition} {table : OrderedMap Word Moves}
    {seen : List (Word × Word)} (hlength : ∀ t ∈ transitions, t.input.length = 1)
    (hrepeated : repeatedRead? seen transitions = none)
    (htable : ∀ state, Moves.IsSequential ((table.lookup state).getD []))
    (hseen : ∀ state, ∀ read ∈ ((table.lookup state).getD []).map (·.1), (state, read) ∈ seen)
    (state : Word) :
    Moves.IsSequential (((transitions.foldl Transition.addTo table).lookup state).getD []) := by
  induction transitions generalizing table seen with
  | nil => exact htable state
  | cons t transitions ih =>
    obtain ⟨hone, hlength'⟩ := List.forall_mem_cons.1 hlength
    rw [repeatedRead?] at hrepeated
    split at hrepeated
    · cases hrepeated
    · next hunseen =>
      have hnew : t.input ∉ ((table.lookup t.source).getD []).map (·.1) :=
        mt (hseen t.source t.input) hunseen
      refine ih hlength' hrepeated (fun q => ?_) (fun q read hread => ?_)
      · by_cases hq : q = t.source
        · rw [hq, Transition.lookup_addTo_self]
          exact (htable t.source).alter hone hnew _
        · rw [Transition.lookup_addTo_of_ne hq]
          exact htable q
      · by_cases hq : q = t.source
        · rw [hq, Transition.lookup_addTo_self, OrderedMap.alter_of_notMem hnew, List.map_append,
            List.map_singleton, List.mem_append, List.mem_singleton] at hread
          rw [hq]
          rcases hread with hread | rfl
          · exact List.mem_cons_of_mem _ (hseen t.source read hread)
          · exact List.mem_cons_self
        · rw [Transition.lookup_addTo_of_ne hq] at hread
          exact List.mem_cons_of_mem _ (hseen q read hread)

/-- A transducer of transitions without a culprit is sequential. -/
theorem isSequential_of_build {transitions : List Transition} {initial : Word}
    {finals : List Word} {t : Transducer} (hculprit : culprit? transitions = none)
    (hbuild : Transducer.build transitions initial finals = .ok t) (state : Word) :
    (t.movesFrom state).IsSequential := by
  obtain ⟨hfind, hrepeated⟩ := Option.or_eq_none_iff.1 hculprit
  have hlength : ∀ tr ∈ transitions, tr.input.length = 1 := by
    simpa using hfind
  rw [Transducer.movesFrom, (Transducer.of_build_eq_ok hbuild).1]
  refine isSequential_foldl_addTo hlength hrepeated (fun q => ?_) (fun q read hread => ?_) state
  · exact .nil
  · cases hread

/-- Builds the sequential machine with the given transitions. -/
def build (transitions : List Transition) (initial : Word) (finals : List Word) :
    Except Error SequentialMachine :=
  match hculprit : culprit? transitions with
  | some t => .error (.nondeterministic t.source t.input)
  | none =>
    match hbuild : Transducer.build transitions initial finals with
    | .error e => .error e
    | .ok transducer => .ok ⟨transducer, isSequential_of_build hculprit hbuild⟩

/-- What the construction comes to: a culprit is reported, or else what is wrong with the transducer,
or else the transducer is the machine. -/
theorem build_cases (transitions : List Transition) (initial : Word) (finals : List Word) :
    (∃ t, culprit? transitions = some t ∧
        build transitions initial finals = .error (.nondeterministic t.source t.input)) ∨
    culprit? transitions = none ∧
      ((∃ e, Transducer.build transitions initial finals = .error e ∧
          build transitions initial finals = .error e) ∨
        ∃ m : SequentialMachine, Transducer.build transitions initial finals = .ok m.transducer ∧
          build transitions initial finals = .ok m) := by
  rw [build]
  split
  · next t hculprit => exact .inl ⟨t, hculprit, rfl⟩
  · next hculprit =>
    refine .inr ⟨hculprit, ?_⟩
    split
    · next e he => exact .inl ⟨e, he, rfl⟩
    · next transducer ht => exact .inr ⟨_, ht, rfl⟩

/-- What a sequential machine is built from. -/
theorem of_build_eq_ok {transitions : List Transition} {initial : Word} {finals : List Word}
    {m : SequentialMachine} (h : build transitions initial finals = .ok m) :
    culprit? transitions = none ∧
      Transducer.build transitions initial finals = .ok m.transducer := by
  rcases build_cases transitions initial finals with
    ⟨t, -, hm⟩ | ⟨hculprit, ⟨e, -, hm⟩ | ⟨m', ht, hm⟩⟩
  · cases hm.symm.trans h
  · cases hm.symm.trans h
  · obtain rfl := Except.ok.inj (hm.symm.trans h)
    exact ⟨hculprit, ht⟩

/-- The output for a word read from a state, if the machine can read it and ends in a final
state. -/
def translateFrom (m : SequentialMachine) (state : Word) : Word → Option Word
  | [] => if m.transducer.isFinal state then some [] else none
  | c :: w =>
    match m.transducer.targets state [c] with
    | [] => none
    | target :: _ => (m.translateFrom target.state w).map (target.output ++ ·)

/-- The output for a word. -/
def translate (m : SequentialMachine) (input : Word) : Option Word :=
  m.translateFrom m.transducer.initial input

end SequentialMachine

end StringMachines
