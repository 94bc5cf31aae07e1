import Mathlib.Data.List.Sort
import Mathlib.Data.Set.Basic
import StringMachines.Transducer.Sequential

/-!
# The fault for which a sequential machine is refused

The transitions, the initial state and the final states of a sequential machine can be at fault in
several ways at once, and one fault is reported. `SequentialMachine.Fault` says which: the gravest
kind comes first, and of several transitions at fault in the same way the one defined first, while
unknown final states are reported together. A machine is refused for this fault and no other, and it
is built when there is none (`SequentialMachine.build_of_fault`,
`SequentialMachine.exists_build_of_faultless`). Since either there is a fault or there is none
(`SequentialMachine.faultless_or_exists_fault`), this says all about the construction
(`SequentialMachine.build_eq_error_iff_fault`).
-/

namespace StringMachines

/-! ## States and alphabets -/

/-- The states that some transitions lead from or to. -/
def Transition.endpoints (transitions : List Transition) : Set Word :=
  {q | ∃ tr ∈ transitions, q = tr.source ∨ q = tr.target}

/-- The final states that are no states of the transitions, in ascending order. -/
structure Transition.Unknown (transitions : List Transition) (finals unknown : List Word) :
    Prop where
  mem_iff : ∀ q, q ∈ unknown ↔ q ∈ finals ∧ q ∉ endpoints transitions
  ascending : unknown.Pairwise (· < ·)

/-- The states and the characters that a transducer has to list for its transitions, each list in
ascending order. -/
structure Transducer.Lists (transitions : List Transition) (t : Transducer) : Prop where
  mem_states_iff : ∀ q, q ∈ t.states ↔ q ∈ Transition.endpoints transitions
  mem_inputAlphabet_iff : ∀ c, c ∈ t.inputAlphabet ↔ ∃ tr ∈ transitions, c ∈ tr.input
  mem_outputAlphabet_iff : ∀ c, c ∈ t.outputAlphabet ↔ ∃ tr ∈ transitions, c ∈ tr.output
  ascending_states : t.states.Pairwise (· < ·)
  ascending_inputAlphabet : t.inputAlphabet.Pairwise (· < ·)
  ascending_outputAlphabet : t.outputAlphabet.Pairwise (· < ·)

namespace Transducer

variable {transitions : List Transition} {initial : Word} {finals unknown : List Word}
  {t : Transducer}

/-- The states of a transducer are collected from its transitions. -/
theorem mem_ofList_states_iff {q : Word} :
    q ∈ SortedSet.ofList (transitions.flatMap fun tr => [tr.source, tr.target]) ↔
      q ∈ Transition.endpoints transitions := by
  simp [SortedSet.mem_ofList, Transition.endpoints]

/-- A transducer lists the states and the characters of its transitions. -/
theorem lists_of_build (h : build transitions initial finals = .ok t) : t.Lists transitions := by
  simp only [build] at h
  split at h
  · split at h
    · cases h
      exact {
        mem_states_iff := fun q => mem_ofList_states_iff
        mem_inputAlphabet_iff := fun c => by rw [SortedSet.mem_ofList, List.mem_flatMap]
        mem_outputAlphabet_iff := fun c => by rw [SortedSet.mem_ofList, List.mem_flatMap]
        ascending_states := SortedSet.pairwise_ofList _
        ascending_inputAlphabet := SortedSet.pairwise_ofList _
        ascending_outputAlphabet := SortedSet.pairwise_ofList _ }
    · cases h
  · cases h

/-- A transducer is refused for an unknown initial state. -/
theorem build_of_initial_notMem (h : initial ∉ Transition.endpoints transitions) :
    build transitions initial finals = .error (.initialStateUnknown initial) :=
  dif_neg (mt mem_ofList_states_iff.1 h)

/-- The unknown final states, as they are reported. -/
theorem unknown_filter (transitions : List Transition) (finals : List Word) :
    Transition.Unknown transitions finals ((SortedSet.ofList finals).filter
      (· ∉ SortedSet.ofList (transitions.flatMap fun tr => [tr.source, tr.target]))) where
  mem_iff q := by
    rw [List.mem_filter, SortedSet.mem_ofList, decide_eq_true_iff, mem_ofList_states_iff]
  ascending := (SortedSet.pairwise_ofList finals).filter _

/-- A transducer with a known initial state is refused for unknown final states. -/
theorem build_of_unknown (hinitial : initial ∈ Transition.endpoints transitions)
    (h : Transition.Unknown transitions finals unknown) (hne : unknown ≠ []) :
    build transitions initial finals = .error (.finalStatesUnknown unknown) := by
  have hreported := unknown_filter transitions finals
  have hsame : _ = unknown := List.Pairwise.eq_of_mem_iff hreported.ascending h.ascending
    fun q => (hreported.mem_iff q).trans (h.mem_iff q).symm
  have hfinals : ¬ ∀ q ∈ SortedSet.ofList finals,
      q ∈ SortedSet.ofList (transitions.flatMap fun tr => [tr.source, tr.target]) := by
    intro hall
    obtain ⟨q, hq⟩ := List.exists_mem_of_ne_nil unknown hne
    obtain ⟨hqfinals, hqunknown⟩ := (h.mem_iff q).1 hq
    exact hqunknown (mem_ofList_states_iff.1 (hall q (SortedSet.mem_ofList.2 hqfinals)))
  simp only [build]
  rw [dif_pos (mem_ofList_states_iff.2 hinitial), dif_neg hfinals, hsame]

/-- A transducer is built when its initial state and its final states are known. -/
theorem exists_build_of_known (hinitial : initial ∈ Transition.endpoints transitions)
    (hfinals : ∀ q ∈ finals, q ∈ Transition.endpoints transitions) :
    ∃ t, build transitions initial finals = .ok t := by
  refine ⟨_, (dif_pos (mem_ofList_states_iff.2 hinitial)).trans (dif_pos fun q hq => ?_)⟩
  exact mem_ofList_states_iff.2 (hfinals q (SortedSet.mem_ofList.1 hq))

end Transducer

/-! ## The scans of the transitions -/

namespace SequentialMachine

variable {transitions : List Transition} {tr : Transition} {initial : Word} {finals : List Word}
  {e : Error} {m : SequentialMachine}

/-- No transition is a repetition when none reads again what was read before or is read by
another. -/
theorem repeatedRead?_eq_none_iff {seen : List (Word × Word)} :
    repeatedRead? seen transitions = none ↔
      (∀ tr ∈ transitions, (tr.source, tr.input) ∉ seen) ∧
        (transitions.map fun tr => (tr.source, tr.input)).Nodup := by
  induction transitions generalizing seen with
  | nil => simp [repeatedRead?]
  | cons tr transitions ih =>
    rw [repeatedRead?, List.map_cons, List.nodup_cons, List.forall_mem_cons]
    split
    · next hseen => simp [hseen]
    · next hseen =>
      rw [ih]
      simp only [List.mem_cons, not_or, List.mem_map, not_exists, not_and, hseen,
        not_false_eq_true, true_and, forall_and]
      constructor
      · rintro ⟨⟨hfirst, hseen'⟩, hnodup⟩
        exact ⟨hseen', hfirst, hnodup⟩
      · rintro ⟨hseen', hfirst, hnodup⟩
        exact ⟨⟨hfirst, hseen'⟩, hnodup⟩

/-- Nothing keeps a machine from being sequential when every transition reads one character and no
two transitions read the same from the same state. -/
theorem culprit?_eq_none_iff :
    culprit? transitions = none ↔
      (∀ tr ∈ transitions, tr.input.length = 1) ∧
        (transitions.map fun tr => (tr.source, tr.input)).Nodup := by
  rw [culprit?, Option.or_eq_none_iff, List.find?_eq_none, repeatedRead?_eq_none_iff]
  simp

/-- The repetition that is found is the first transition that reads again what was read before, or
what a transition in front of it reads. -/
theorem repeatedRead?_eq_some_iff {seen : List (Word × Word)} :
    repeatedRead? seen transitions = some tr ↔
      ∃ before behind, transitions = before ++ tr :: behind ∧ repeatedRead? seen before = none ∧
        ((tr.source, tr.input) ∈ seen ∨
          ∃ tr' ∈ before, tr'.source = tr.source ∧ tr'.input = tr.input) := by
  induction transitions generalizing seen with
  | nil => simp [repeatedRead?]
  | cons first transitions ih =>
    rw [repeatedRead?]
    split
    · next hseen =>
      constructor
      · rintro ⟨⟩
        exact ⟨[], transitions, rfl, rfl, .inl hseen⟩
      · rintro ⟨_ | ⟨first', before⟩, behind, heq, hbefore, -⟩
        · obtain ⟨rfl, -⟩ := List.cons.inj heq
          rfl
        · obtain ⟨rfl, -⟩ := List.cons.inj heq
          rw [repeatedRead?, if_pos hseen] at hbefore
          cases hbefore
    · next hseen =>
      -- What the first transition reads counts as read before for the others.
      have hread (before : List Transition) :
          ((tr.source, tr.input) ∈ (first.source, first.input) :: seen ∨
              ∃ tr' ∈ before, tr'.source = tr.source ∧ tr'.input = tr.input) ↔
            (tr.source, tr.input) ∈ seen ∨
              ∃ tr' ∈ first :: before, tr'.source = tr.source ∧ tr'.input = tr.input := by
        simp only [List.mem_cons, Prod.mk.injEq, exists_eq_or_imp, eq_comm (a := tr.source),
          eq_comm (a := tr.input), or_left_comm, or_assoc]
      rw [ih]
      constructor
      · rintro ⟨before, behind, rfl, hbefore, h⟩
        refine ⟨first :: before, behind, rfl, ?_, (hread before).1 h⟩
        rw [repeatedRead?, if_neg hseen, hbefore]
      · rintro ⟨_ | ⟨first', before⟩, behind, heq, hbefore, h⟩
        · obtain ⟨rfl, -⟩ := List.cons.inj heq
          exact absurd h (by simp [hseen])
        · obtain ⟨rfl, rfl⟩ := List.cons.inj heq
          rw [repeatedRead?, if_neg hseen] at hbefore
          exact ⟨before, behind, rfl, hbefore, (hread before).2 h⟩

/-- The culprit is the first transition that does not read one character. When all do, it is the
first that reads the same from the same state as one in front of it. -/
theorem culprit?_eq_some_iff :
    culprit? transitions = some tr ↔
      (tr.input.length ≠ 1 ∧ ∃ before behind, transitions = before ++ tr :: behind ∧
        ∀ tr' ∈ before, tr'.input.length = 1) ∨
      (∀ tr' ∈ transitions, tr'.input.length = 1) ∧
        ∃ before behind, transitions = before ++ tr :: behind ∧
          (before.map fun tr' => (tr'.source, tr'.input)).Nodup ∧
          ∃ tr' ∈ before, tr'.source = tr.source ∧ tr'.input = tr.input := by
  rw [culprit?, Option.or_eq_some_iff, List.find?_eq_some_iff_append, List.find?_eq_none,
    repeatedRead?_eq_some_iff]
  simp only [repeatedRead?_eq_none_iff, List.not_mem_nil, not_false_eq_true, implies_true, true_and,
    false_or, decide_eq_true_eq, Bool.not_eq_true', decide_eq_false_iff_not, not_not]

/-! ## One fault of several -/

/-- Transitions, an initial state and final states that make a sequential machine: every transition
reads one character, no two read the same from the same state, and the states are states of the
transitions. -/
structure Faultless (transitions : List Transition) (initial : Word) (finals : List Word) :
    Prop where
  input_length : ∀ tr ∈ transitions, tr.input.length = 1
  nodup : (transitions.map fun tr => (tr.source, tr.input)).Nodup
  initial_mem : initial ∈ Transition.endpoints transitions
  finals_mem : ∀ q ∈ finals, q ∈ Transition.endpoints transitions

/-- The fault that is reported. -/
inductive Fault (transitions : List Transition) (initial : Word) (finals : List Word) :
    Error → Prop
  /-- The first transition that does not read one character. -/
  | input {before behind : List Transition} {tr : Transition} :
      tr.input.length ≠ 1 → transitions = before ++ tr :: behind →
      (∀ tr' ∈ before, tr'.input.length = 1) →
      Fault transitions initial finals (.nondeterministic tr.source tr.input)
  /-- All read one character: the first transition that reads the same from the same state as one in
  front of it. -/
  | repetition {before behind : List Transition} {tr : Transition} :
      (∀ tr' ∈ transitions, tr'.input.length = 1) → transitions = before ++ tr :: behind →
      (before.map fun tr' => (tr'.source, tr'.input)).Nodup →
      (∃ tr' ∈ before, tr'.source = tr.source ∧ tr'.input = tr.input) →
      Fault transitions initial finals (.nondeterministic tr.source tr.input)
  /-- The transitions are in order: an unknown initial state. -/
  | initialState : (∀ tr ∈ transitions, tr.input.length = 1) →
      (transitions.map fun tr => (tr.source, tr.input)).Nodup →
      initial ∉ Transition.endpoints transitions →
      Fault transitions initial finals (.initialStateUnknown initial)
  /-- The initial state is known as well: the unknown final states. -/
  | finalStates {unknown : List Word} : (∀ tr ∈ transitions, tr.input.length = 1) →
      (transitions.map fun tr => (tr.source, tr.input)).Nodup →
      initial ∈ Transition.endpoints transitions →
      Transition.Unknown transitions finals unknown → unknown ≠ [] →
      Fault transitions initial finals (.finalStatesUnknown unknown)

/-- A culprit is reported. -/
theorem build_of_culprit? (h : culprit? transitions = some tr) (initial : Word)
    (finals : List Word) :
    build transitions initial finals = .error (.nondeterministic tr.source tr.input) := by
  rcases build_cases transitions initial finals with ⟨tr', hculprit, hm⟩ | ⟨hculprit, -⟩
  · obtain rfl := Option.some.inj (hculprit.symm.trans h)
    exact hm
  · cases hculprit.symm.trans h

/-- Without a culprit, what is reported is reported of the transducer. -/
theorem build_of_transducer_error (h : culprit? transitions = none)
    (he : Transducer.build transitions initial finals = .error e) :
    build transitions initial finals = .error e := by
  rcases build_cases transitions initial finals with
    ⟨tr, hculprit, -⟩ | ⟨-, ⟨e', he', hm⟩ | ⟨m, ht, -⟩⟩
  · cases hculprit.symm.trans h
  · obtain rfl := Except.error.inj (he'.symm.trans he)
    exact hm
  · cases ht.symm.trans he

/-- Without a culprit, the machine is built when the transducer is. -/
theorem exists_build_of_transducer {t : Transducer} (h : culprit? transitions = none)
    (ht : Transducer.build transitions initial finals = .ok t) :
    ∃ m, build transitions initial finals = .ok m := by
  rcases build_cases transitions initial finals with
    ⟨tr, hculprit, -⟩ | ⟨-, ⟨e, he, -⟩ | ⟨m, -, hm⟩⟩
  · cases hculprit.symm.trans h
  · cases he.symm.trans ht
  · exact ⟨m, hm⟩

/-- A machine is refused for its fault. -/
theorem build_of_fault (h : Fault transitions initial finals e) :
    build transitions initial finals = .error e := by
  cases h with
  | input hlength heq hbefore =>
    exact build_of_culprit? (culprit?_eq_some_iff.2 (.inl ⟨hlength, _, _, heq, hbefore⟩)) _ _
  | repetition hlength heq hbefore hread =>
    exact build_of_culprit?
      (culprit?_eq_some_iff.2 (.inr ⟨hlength, _, _, heq, hbefore, hread⟩)) _ _
  | initialState hlength hnodup hinitial =>
    exact build_of_transducer_error (culprit?_eq_none_iff.2 ⟨hlength, hnodup⟩)
      (Transducer.build_of_initial_notMem hinitial)
  | finalStates hlength hnodup hinitial hunknown hne =>
    exact build_of_transducer_error (culprit?_eq_none_iff.2 ⟨hlength, hnodup⟩)
      (Transducer.build_of_unknown hinitial hunknown hne)

/-- A machine without fault is built. -/
theorem exists_build_of_faultless (h : Faultless transitions initial finals) :
    ∃ m, build transitions initial finals = .ok m := by
  obtain ⟨t, ht⟩ := Transducer.exists_build_of_known h.initial_mem h.finals_mem
  exact exists_build_of_transducer (culprit?_eq_none_iff.2 ⟨h.input_length, h.nodup⟩) ht

/-- There is a fault to report, or there is none. -/
theorem faultless_or_exists_fault (transitions : List Transition) (initial : Word)
    (finals : List Word) :
    Faultless transitions initial finals ∨ ∃ e, Fault transitions initial finals e := by
  cases hculprit : culprit? transitions with
  | some tr =>
    rcases culprit?_eq_some_iff.1 hculprit with
      ⟨hlength, _, _, heq, hbefore⟩ | ⟨hlength, _, _, heq, hbefore, hread⟩
    · exact .inr ⟨_, .input hlength heq hbefore⟩
    · exact .inr ⟨_, .repetition hlength heq hbefore hread⟩
  | none =>
    obtain ⟨hlength, hnodup⟩ := culprit?_eq_none_iff.1 hculprit
    by_cases hinitial : initial ∈ Transition.endpoints transitions
    · have hunknown := Transducer.unknown_filter transitions finals
      by_cases hne : (SortedSet.ofList finals).filter (· ∉ SortedSet.ofList
          (transitions.flatMap fun tr => [tr.source, tr.target])) = []
      · refine .inl ⟨hlength, hnodup, hinitial, fun q hq => ?_⟩
        by_contra hnotMem
        have hmem := (hunknown.mem_iff q).2 ⟨hq, hnotMem⟩
        rw [hne] at hmem
        cases hmem
      · exact .inr ⟨_, .finalStates hlength hnodup hinitial hunknown hne⟩
    · exact .inr ⟨_, .initialState hlength hnodup hinitial⟩

/-- A machine is built just when it has no fault. -/
theorem exists_build_iff_faultless :
    (∃ m, build transitions initial finals = .ok m) ↔ Faultless transitions initial finals := by
  refine ⟨fun ⟨m, hm⟩ => ?_, exists_build_of_faultless⟩
  rcases faultless_or_exists_fault transitions initial finals with hfaultless | ⟨e, he⟩
  · exact hfaultless
  · cases hm.symm.trans (build_of_fault he)

/-- A machine is refused for its fault and for nothing else. -/
theorem build_eq_error_iff_fault :
    build transitions initial finals = .error e ↔ Fault transitions initial finals e := by
  refine ⟨fun h => ?_, build_of_fault⟩
  rcases faultless_or_exists_fault transitions initial finals with hfaultless | ⟨e', he'⟩
  · obtain ⟨m, hm⟩ := exists_build_of_faultless hfaultless
    cases h.symm.trans hm
  · cases h.symm.trans (build_of_fault he')
    exact he'

/-- **A sequential machine is refused for its fault and built when there is none.** It is built when
every transition reads one character, no two transitions read the same from the same state, and the
initial state and the final states are states of the transitions. Otherwise what is reported is the
one fault that `Fault` describes. A machine that is built lists the states, the characters read and
the characters written of its transitions. -/
theorem construction_reports_fault (transitions : List Transition) (initial : Word)
    (finals : List Word) :
    ((∃ m, build transitions initial finals = .ok m) ↔ Faultless transitions initial finals) ∧
      (∀ e, build transitions initial finals = .error e ↔ Fault transitions initial finals e) ∧
      ∀ m, build transitions initial finals = .ok m → m.transducer.Lists transitions := by
  refine ⟨exists_build_iff_faultless, fun e => build_eq_error_iff_fault, fun m hm => ?_⟩
  obtain ⟨-, hbuild⟩ := of_build_eq_ok hm
  exact Transducer.lists_of_build hbuild

/-- Of two repetitions, an unknown initial state and unknown final states, the first repetition is
reported. When only final states are unknown, each is reported once, in ascending order. Without a
fault, the machine lists the states of its transitions. -/
theorem construction_reports_ra :
    build [⟨['s'], ['a'], ['r'], ['c']⟩, ⟨['r'], ['a'], ['s'], []⟩, ⟨['r'], ['a'], ['r'], ['d']⟩,
        ⟨['s'], ['a'], ['s'], []⟩] ['t'] [['u']] = .error (.nondeterministic ['r'] ['a']) ∧
      build [⟨['s'], ['a'], ['r'], ['c']⟩] ['s'] [['v'], ['r'], ['u'], ['v']] =
        .error (.finalStatesUnknown [['u'], ['v']]) ∧
      ∃ m, build [⟨['s'], ['a'], ['r'], ['c']⟩] ['s'] [['r'], ['r']] = .ok m ∧
        ['r'] ∈ m.transducer.states := by
  have hendpoints (q : Word) :
      q ∈ Transition.endpoints [⟨['s'], ['a'], ['r'], ['c']⟩] ↔ q = ['s'] ∨ q = ['r'] := by
    simp [Transition.endpoints]
  refine ⟨?_, ?_, ?_⟩
  · refine ((construction_reports_fault _ _ _).2.1 _).2 ?_
    have hsplit : ([⟨['s'], ['a'], ['r'], ['c']⟩, ⟨['r'], ['a'], ['s'], []⟩,
        ⟨['r'], ['a'], ['r'], ['d']⟩, ⟨['s'], ['a'], ['s'], []⟩] : List Transition) =
          [⟨['s'], ['a'], ['r'], ['c']⟩, ⟨['r'], ['a'], ['s'], []⟩] ++
            ⟨['r'], ['a'], ['r'], ['d']⟩ :: [⟨['s'], ['a'], ['s'], []⟩] := rfl
    exact .repetition (by decide) hsplit (by decide) (by decide)
  · refine ((construction_reports_fault _ _ _).2.1 _).2 ?_
    refine .finalStates (by decide) (by decide) ((hendpoints _).2 (.inl rfl)) ⟨fun q => ?_, ?_⟩
      (by decide)
    · rw [hendpoints]
      simp only [List.mem_cons, List.not_mem_nil, or_false]
      constructor
      · rintro (rfl | rfl)
        · decide
        · decide
      · rintro ⟨rfl | rfl | rfl | rfl, hq⟩
        · exact .inr rfl
        · exact absurd (.inr rfl) hq
        · exact .inl rfl
        · exact .inr rfl
    · decide
  · obtain ⟨hbuilt, -, hlists⟩ :=
      construction_reports_fault [⟨['s'], ['a'], ['r'], ['c']⟩] ['s'] [['r'], ['r']]
    obtain ⟨m, hm⟩ := hbuilt.2 ⟨by decide, by decide, (hendpoints _).2 (.inl rfl), by
      simp [hendpoints]⟩
    exact ⟨m, hm, ((hlists m hm).mem_states_iff _).2 ((hendpoints _).2 (.inr rfl))⟩

end SequentialMachine

end StringMachines
