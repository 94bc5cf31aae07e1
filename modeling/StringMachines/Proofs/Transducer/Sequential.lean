import StringMachines.CommandLine.Report
import StringMachines.Proofs.Transducer.Visits

/-!
# Sequential machines among transducers

A sequential machine follows its transitions; as a transducer it is searched like any other. Both
give the same (`SequentialMachine.translate_eq_enumeration`). This takes no more than the property
of its moves that every machine carries: a configuration leads to the targets of the next character
(`SequentialMachine.successors_cons`), of which there is one at most
(`SequentialMachine.length_targets_le_one`). So nothing else is ever pending, and the run is over
one visit after the input is read (`SequentialMachine.exists_advance_eq_translateFrom`).
-/

namespace StringMachines

/-- When no entry but that of one key gives anything, all entries together give what it gives. -/
theorem OrderedMap.flatMap_eq_lookup {κ β γ : Type} [BEq κ] [LawfulBEq κ] {m : OrderedMap κ β}
    (hnodup : (m.map (·.1)).Nodup) (key : κ) {g : κ × β → List γ}
    (hothers : ∀ entry ∈ m, entry.1 ≠ key → g entry = []) :
    m.flatMap g = (m.lookup key).elim [] fun b => g (key, b) := by
  induction m with
  | nil => rfl
  | cons entry rest ih =>
    obtain ⟨k, b⟩ := entry
    obtain ⟨hnotMem, hnodup'⟩ := List.nodup_cons.1 hnodup
    obtain ⟨hfirst, hrest⟩ := List.forall_mem_cons.1 hothers
    rw [List.flatMap_cons]
    by_cases hk : k = key
    · subst hk
      have hnil : rest.flatMap g = [] := by
        refine List.flatMap_eq_nil_iff.2 fun entry hentry => hrest entry hentry fun heq => ?_
        exact hnotMem (List.mem_map.2 ⟨entry, hentry, heq⟩)
      rw [hnil, List.append_nil, List.lookup_cons_self]
      rfl
    · rw [hfirst hk, List.nil_append, ih hnodup' hrest, List.lookup_cons,
        beq_eq_false_iff_ne.2 (Ne.symm hk)]

namespace SequentialMachine

variable (m : SequentialMachine) (cap : Option Nat)

/-- A sequential machine goes nowhere when the input is read. -/
theorem successors_nil (state output : Word) :
    (m.transducer.withCap cap).successors ⟨state, [], output⟩ = [] := by
  refine List.flatMap_eq_nil_iff.2 fun move hmove => ?_
  obtain ⟨read, targets⟩ := move
  obtain ⟨a, rfl⟩ := List.length_eq_one_iff.1 ((m.sequential state).length_read _ hmove)
  rfl

/-- A sequential machine goes on by the transition that reads the next character. -/
theorem successors_cons (state : Word) (a : Char) (w output : Word) :
    (m.transducer.withCap cap).successors ⟨state, a :: w, output⟩ =
      (m.transducer.targets state [a]).map fun target =>
        ⟨target.state, w, output ++ target.output⟩ := by
  have hmoves := m.sequential state
  refine (OrderedMap.flatMap_eq_lookup hmoves.nodup [a] fun move hmove hne => ?_).trans ?_
  · obtain ⟨read, targets⟩ := move
    obtain ⟨b, rfl⟩ := List.length_eq_one_iff.1 (hmoves.length_read _ hmove)
    have hb : b ≠ a := fun heq => hne (heq ▸ rfl)
    simp [List.isPrefixOf, hb]
  · rw [Transducer.targets]
    cases (m.transducer.movesFrom state).lookup [a] with
    | none => rfl
    | some targets => simp [List.isPrefixOf]

/-- There is at most one such transition. -/
theorem length_targets_le_one (state read : Word) :
    (m.transducer.targets state read).length ≤ 1 := by
  rw [Transducer.targets]
  cases hlookup : (m.transducer.movesFrom state).lookup read with
  | none => exact Nat.zero_le 1
  | some targets =>
    obtain ⟨before, behind, hmoves, -⟩ := List.lookup_eq_some_iff.1 hlookup
    have hmem : (read, targets) ∈ m.transducer.movesFrom state := by
      rw [hmoves]
      exact List.mem_append_right before List.mem_cons_self
    exact ((m.sequential state).length_targets _ hmem).le

/-- From a configuration that is further on than everything visited, the run of a sequential machine
ends after a visit for every character left and one more, and gives the translation of these
characters. -/
theorem exists_advance_eq_translateFrom (state w output : Word)
    {visited : Std.HashSet Configuration}
    (hvisited : ∀ c ∈ visited, w.length < c.remaining.length) :
    ∃ outputs last, Transducer.Run.advance (m.transducer.withCap cap) (w.length + 1)
        ⟨[⟨state, w, output⟩], visited⟩ = (outputs, last) ∧
      last.pending = [] ∧
      outputs.map (·.output) = (m.translateFrom state w).toList.map (output ++ ·) := by
  have hnew : (⟨state, w, output⟩ : Configuration) ∉ visited :=
    fun hmem => Nat.lt_irrefl _ (hvisited _ hmem)
  induction w generalizing state output visited with
  | nil =>
    have haccepting : (m.transducer.withCap cap).isAccepting ⟨state, [], output⟩ =
        m.transducer.isFinal state := rfl
    refine ⟨_, _, Transducer.Run.advance_of_notMem hnew [] 0, ?_, ?_⟩
    · rw [successors_nil]
      rfl
    · rw [haccepting, translateFrom, Transducer.Run.advance]
      cases m.transducer.isFinal state with
      | true => simp
      | false => simp
  | cons a w ih =>
    have hvisit := Transducer.Run.advance_of_notMem (t := m.transducer.withCap cap) hnew []
      (w.length + 1)
    have haccepting : (m.transducer.withCap cap).isAccepting ⟨state, a :: w, output⟩ = false := rfl
    rw [haccepting, if_neg Bool.false_ne_true, List.nil_append, List.append_nil,
      successors_cons] at hvisit
    rw [List.length_cons, hvisit, translateFrom]
    have hone := m.length_targets_le_one state [a]
    cases htargets : m.transducer.targets state [a] with
    | nil => exact ⟨_, _, Prod.mk.eta, rfl, rfl⟩
    | cons target others =>
      rw [htargets] at hone
      obtain rfl : others = [] := List.eq_nil_of_length_eq_zero (by simpa using hone)
      have hvisited' : ∀ c ∈ visited.insert ⟨state, a :: w, output⟩,
          w.length < c.remaining.length := by
        intro c hc
        rcases Std.HashSet.mem_insert.1 hc with heq | hc
        · rw [← eq_of_beq heq]
          exact Nat.lt_succ_self _
        · exact Nat.lt_of_succ_lt (hvisited c hc)
      obtain ⟨outputs, last, hadvance, hpending, houtputs⟩ := ih target.state
        (output ++ target.output) hvisited' fun hmem => Nat.lt_irrefl _ (hvisited' _ hmem)
      refine ⟨outputs, last, hadvance, hpending, ?_⟩
      rw [houtputs]
      show _ = ((m.translateFrom target.state w).map (target.output ++ ·)).toList.map (output ++ ·)
      cases m.translateFrom target.state w with
      | none => rfl
      | some translation => simp

/-- The run of an input ends one visit after the input is read, and gives its translation. -/
theorem exists_advance_eq_translate (input : Word) :
    ∃ outputs last, (Transducer.Run.start (m.transducer.withCap cap) input).advance
        (m.transducer.withCap cap) (input.length + 1) = (outputs, last) ∧
      last.pending = [] ∧ outputs.map (·.output) = (m.translate input).toList := by
  obtain ⟨outputs, last, hadvance, hpending, houtputs⟩ :=
    m.exists_advance_eq_translateFrom cap m.transducer.initial input []
      fun c hc => absurd hc Std.HashSet.not_mem_empty
  refine ⟨outputs, last, hadvance, hpending, ?_⟩
  simpa [translate] using houtputs

/-- With a budget of more visits than the input has characters, all outputs are found. -/
theorem outputsWithin_eq_translate {input : Word} {budget : Nat} (hbudget : input.length < budget) :
    CommandLine.outputsWithin (m.transducer.withCap cap) budget input =
      (m.translate input).toList := by
  obtain ⟨outputs, last, hadvance, hpending, houtputs⟩ :=
    m.exists_advance_eq_translate cap input
  have hrun := Transducer.Run.outputs_eq_advance (by rw [hadvance]; exact hpending) hbudget hbudget
  rw [CommandLine.outputsWithin, hrun, hadvance]
  exact houtputs

variable {transitions : List Transition} {initial : Word} {finals : List Word}
  {m : SequentialMachine}

/-- **A sequential machine gives what it gives as a transducer.** For every machine that can be
built and every input, the run of the machine as a transducer comes to an end, and asked to the end
it gives the translation of the input, or nothing when there is none. So the command prints the same
whether the transducer has to be sequential or not, for the same transitions, states and inputs and
whatever the cap, when the search is given more visits than any input has characters. -/
theorem translate_eq_enumeration (hbuild : build transitions initial finals = .ok m) :
    (∀ input,
      (∃ outputs, (Transducer.Run.start m.transducer input).Enumerates m.transducer outputs) ∧
      ∀ outputs, (Transducer.Run.start m.transducer input).Enumerates m.transducer outputs →
        outputs.map (·.output) = (m.translate input).toList) ∧
    ∀ cap source budget inputs, (∀ input ∈ inputs, input.length < budget) →
      CommandLine.TransduceCommand.report ⟨transitions, initial, finals, cap, false, source⟩
          budget inputs =
        CommandLine.TransduceCommand.report ⟨transitions, initial, finals, none, true, source⟩
          budget inputs := by
  refine ⟨fun input => ?_, fun cap source budget inputs hbudget => ?_⟩
  · obtain ⟨outputs, last, hadvance, hpending, houtputs⟩ :=
      m.exists_advance_eq_translate m.transducer.cap input
    have hself : m.transducer.withCap m.transducer.cap = m.transducer := rfl
    rw [hself] at hadvance
    have henumerates :
        (Transducer.Run.start m.transducer input).Enumerates m.transducer outputs := by
      refine Transducer.Run.enumerates_iff.2 ⟨input.length + 1, ?_⟩
      rw [hadvance]
      exact ⟨rfl, hpending⟩
    refine ⟨⟨outputs, henumerates⟩, fun outputs' henumerates' => ?_⟩
    rw [henumerates'.unique henumerates]
    exact houtputs
  · obtain ⟨-, hbuild'⟩ := of_build_eq_ok hbuild
    have hlines : (inputs.flatMap fun input => CommandLine.outputLines
          (CommandLine.outputsWithin (m.transducer.withCap cap) budget input)) =
        inputs.flatMap fun input => CommandLine.outputLines (m.translate input).toList := by
      refine List.flatMap_congr fun input hinput => ?_
      rw [m.outputsWithin_eq_translate cap (hbudget input hinput)]
    simp only [CommandLine.TransduceCommand.report, hbuild, hbuild', if_true,
      CommandLine.transduceReport, hlines]
    rfl

/-- A machine with two states: one input is read to the end, and another one ends in the wrong
state. -/
theorem translate_eq_enumeration_ab : ∃ m,
    build [⟨['s'], ['a'], ['r'], ['c', 'd']⟩, ⟨['r'], ['b'], ['s'], ['e']⟩] ['s'] [['s']] = .ok m ∧
    (∃ outputs,
      (Transducer.Run.start m.transducer ['a', 'b']).Enumerates m.transducer outputs ∧
        outputs.map (·.output) = [['c', 'd', 'e']]) ∧
    CommandLine.TransduceCommand.report
        ⟨[⟨['s'], ['a'], ['r'], ['c', 'd']⟩, ⟨['r'], ['b'], ['s'], ['e']⟩], ['s'], [['s']], none,
          false, .standardInput⟩ 4 [['a', 'b'], ['a', 'b', 'a']] =
      { output := ["cde", "<no output>"] } := by
  obtain ⟨m, hbuild, htranslate, hreport⟩ : ∃ m,
      build [⟨['s'], ['a'], ['r'], ['c', 'd']⟩, ⟨['r'], ['b'], ['s'], ['e']⟩] ['s'] [['s']] =
        .ok m ∧
      m.translate ['a', 'b'] = some ['c', 'd', 'e'] ∧
      CommandLine.TransduceCommand.report
          ⟨[⟨['s'], ['a'], ['r'], ['c', 'd']⟩, ⟨['r'], ['b'], ['s'], ['e']⟩], ['s'], [['s']], none,
            true, .standardInput⟩ 4 [['a', 'b'], ['a', 'b', 'a']] =
        { output := ["cde", "<no output>"] } :=
    ⟨_, rfl, by decide, by decide⟩
  obtain ⟨henumerates, hreports⟩ := translate_eq_enumeration hbuild
  obtain ⟨⟨outputs, houtputs⟩, hall⟩ := henumerates ['a', 'b']
  refine ⟨m, hbuild, ⟨outputs, houtputs, ?_⟩, ?_⟩
  · rw [hall outputs houtputs, htranslate]
    rfl
  · rw [hreports none .standardInput 4 _ (by decide), hreport]

end SequentialMachine

end StringMachines
