import StringMachines.Proofs.Erasing.Acceptance
import StringMachines.Proofs.Search.Turns

/-!
# The turns of a run

The search of an erasing system has a stack of states that erasures have led to, one from the other
(`ErasingSystem.StackFrom`), so that the stack is never higher than the input is long
(`ErasingSystem.turns_end_with_stackFrom`). It remembers only states that cannot be derived, and
opens none of its states twice (`ErasingSystem.rejected_not_derivable_and_opened_once`). All of this
holds after every turn, for every input and under all settings.

What a search keeps in any space is in `StringMachines.Proofs.Search.Turns`. Here it is said in
terms of erasures (`ErasingSystem.stackFrom_of_nested`) and of derivations
(`ErasingSystem.solvable_iff_derivable`).
-/

namespace StringMachines.ErasingSystem

variable {system : ErasingSystem} {settings : Settings} {input : Word}
  {stack : List (Frame ErasingState Erasure)}

/-- A stack of open states in the search from an input. -/
structure StackFrom (system : ErasingSystem) (input : Word)
    (stack : List (Frame ErasingState Erasure)) : Prop where
  /-- The lowest state has the whole input on its tape, and nothing has been erased. -/
  lowest : ∀ frame ∈ stack.getLast?, frame.state = ⟨input, []⟩
  /-- No open state has an empty tape. -/
  tape_ne_nil : ∀ frame ∈ stack, frame.state.tape ≠ []
  /-- Each state comes from the one below it by removing one occurrence of an erasing string, which
  is appended to the trace. -/
  chain : stack.IsChain fun above below => Erases system.strings .all below.state above.state
  /-- Tape and trace together hold the characters of the input. -/
  perm : ∀ frame ∈ stack, (frame.state.tape ++ frame.state.trace).Perm input
  /-- There are at most as many open states as the input has characters. -/
  length_le : stack.length ≤ input.length

/-- A nested stack has the properties of a stack in the search from an input. -/
theorem stackFrom_of_nested (h : Search.Nested (system.space settings) ⟨input, []⟩ stack) :
    system.StackFrom input stack := by
  have htape : ∀ frame ∈ stack, frame.state.tape ≠ [] := by
    intro frame hframe hnil
    have hverdict := h.undecided frame hframe
    simp [space, hnil] at hverdict
  have hchain : stack.IsChain fun above below =>
      Erases system.strings .all below.state above.state := by
    refine h.chain.imp fun above below hmove => ?_
    obtain ⟨x, hx, habove⟩ := hmove
    exact (exists_mem_erasures_iff.1 ⟨x, hx, habove.symm⟩).1.all
  refine ⟨h.lowest, htape, hchain, ?_, ?_⟩
  · -- From the lowest state up, every erasure keeps the characters.
    refine hchain.backwards_induction
      (fun frame => (frame.state.tape ++ frame.state.trace).Perm input) stack ?_ ?_
    · intro above below herases hbelow
      exact herases.perm.trans hbelow
    · intro hne
      rw [h.lowest _ (List.getLast?_eq_some_getLast hne), List.append_nil]
  · cases stack with
    | nil => exact Nat.zero_le _
    | cons top stack =>
      have hsize : stack.length + top.state.tape.length ≤ input.length := h.length_add_size_le
      have hpos := List.length_pos_iff.2 (htape top List.mem_cons_self)
      rw [List.length_cons]
      omega

/-- A search on `ab` in which `a` is the only string: after one turn what is left is open on top of
the input, and neither has a move left. -/
theorem exists_turns_ab : ∃ system : ErasingSystem,
    build [['a']] "ab".toList {} = .ok system ∧
      (system.space {}).turns ⟨['a', 'b'], []⟩ 1 =
        .ongoing ⟨[⟨⟨['b'], ['a']⟩, []⟩, ⟨⟨['a', 'b'], []⟩, []⟩], ∅,
          [(⟨['a', 'b'], []⟩, ⟨['a'], 0⟩)]⟩ := by
  have hread : Token.read "ab".toList = [.atom (.literal 'a'), .atom (.literal 'b')] := by
    simp [Token.read]
  obtain ⟨system, hbuild, hdistinct, htokens⟩ := exists_build_of_read [['a']] {}
    hread (by decide) ⟨'a', by simp, by decide⟩ (by decide) (by decide) (by decide)
  refine ⟨system, hbuild, ?_⟩
  have hstrings : system.strings = [['a']] := hdistinct.trans (by decide)
  have hlevels : system.levels? .greedy ['a'] = some ⟨1, []⟩ := by
    rw [levels?, htokens]
    decide
  have hlower : system.erasures {} ⟨['a', 'b'], []⟩ = [⟨['a'], 0⟩] := by
    have hcandidates : system.candidates .greedy ⟨['a', 'b'], []⟩ = [⟨['a'], ⟨1, []⟩⟩] := by
      simp [candidates, hstrings, Word.occursIn, hlevels]
    rw [erasures, hcandidates, List.perm_singleton.1 (Candidate.ranked_perm _ _)]
    rfl
  have hupper : system.erasures {} ⟨['b'], ['a']⟩ = [] := by
    have hcandidates : system.candidates .greedy ⟨['b'], ['a']⟩ = [] := by
      simp [candidates, hstrings, Word.occursIn]
    rw [erasures, hcandidates, List.perm_nil.1 (Candidate.ranked_perm _ _)]
    rfl
  simp [SearchSpace.turns, SearchSpace.arrive, space, Search.next, ErasingState.erase,
    Word.removeAt, hlower, hupper]

/-- **The search from an input ends, and its stack stays in order.** After some number of turns the
search has the outcome of the whole search. After every turn before that, the lowest state is the
input with nothing erased, each other state comes from the one below it by an erasure, no tape is
empty, tape and trace hold the characters of the input, and the stack is not higher than the input
is long. -/
theorem turns_end_with_stackFrom (system : ErasingSystem) (settings : Settings) (input : Word) :
    (∃ n, (system.space settings).turns ⟨input, []⟩ n =
        .done ((system.space settings).explore ⟨input, []⟩)) ∧
      ∀ n search, (system.space settings).turns ⟨input, []⟩ n = .ongoing search →
        system.StackFrom input search.stack := by
  refine ⟨SearchSpace.exists_turns_eq_done _ _, fun n search hturns => ?_⟩
  exact stackFrom_of_nested (SearchSpace.nested_of_turns hturns)

/-- A stack of two states. -/
theorem stackFrom_ab : ∃ (system : ErasingSystem) (search : Search ErasingState Erasure),
    build [['a']] "ab".toList {} = .ok system ∧
      (system.space {}).turns ⟨['a', 'b'], []⟩ 1 = .ongoing search ∧
      search.stack.map (·.state) = [⟨['b'], ['a']⟩, ⟨['a', 'b'], []⟩] ∧
      system.StackFrom ['a', 'b'] search.stack := by
  obtain ⟨system, hbuild, hturns⟩ := exists_turns_ab
  refine ⟨system, _, hbuild, hturns, rfl, ?_⟩
  exact (turns_end_with_stackFrom system {} ['a', 'b']).2 1 _ hturns

/-- **The memory of failures is right, and no state is opened twice.** After every turn of the
search from an input, no state that is remembered as a failure can be derived with erasures at the
positions of the settings, and the states that are open or remembered are those that have been
opened. A state that is opened in one turn is opened in no other. -/
theorem rejected_not_derivable_and_opened_once (system : ErasingSystem) (settings : Settings)
    (input : Word) :
    (∀ n search, (system.space settings).turns ⟨input, []⟩ n = .ongoing search →
        (∀ s ∈ search.rejected, ¬ system.Derivable settings.positions s) ∧
          ∀ s, search.Knows s ↔ ∃ m ≤ n, (system.space settings).opening? ⟨input, []⟩ m = some s) ∧
      ∀ m n s, (system.space settings).opening? ⟨input, []⟩ m = some s →
        (system.space settings).opening? ⟨input, []⟩ n = some s → m = n := by
  refine ⟨fun n search hturns => ⟨fun s hs => ?_, fun s => ?_⟩, fun m n s hm hn => ?_⟩
  · have hnot := (SearchSpace.sound_of_turns hturns).rejected s hs
    rwa [solvable_iff_derivable] at hnot
  · exact SearchSpace.knows_iff_exists_opening? hturns
  · exact SearchSpace.opening?_injective hm hn

/-- What is left of `ab` has failed after the second turn. -/
theorem rejected_ab : ∃ (system : ErasingSystem) (search : Search ErasingState Erasure),
    build [['a']] "ab".toList {} = .ok system ∧
      (system.space {}).turns ⟨['a', 'b'], []⟩ 2 = .ongoing search ∧
      ⟨['b'], ['a']⟩ ∈ search.rejected ∧ ¬ system.Derivable .all ⟨['b'], ['a']⟩ := by
  obtain ⟨system, hbuild, hturns⟩ := exists_turns_ab
  have hlater := SearchSpace.turns_succ hturns
  refine ⟨system, _, hbuild, hlater, Std.HashSet.mem_insert_self, ?_⟩
  refine ((rejected_not_derivable_and_opened_once system {} ['a', 'b']).1 2 _ hlater).1 _ ?_
  exact Std.HashSet.mem_insert_self

end StringMachines.ErasingSystem
