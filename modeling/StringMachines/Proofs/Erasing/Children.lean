import Mathlib.Data.List.Nodup
import StringMachines.Proofs.Erasing.Acceptance
import StringMachines.Proofs.Erasing.Recursion

/-!
# The children of a state

When a state is opened, the search goes from it to its children, one after another: the states that
its erasures lead to, as the strings rank and then from left to right. Over all positions these are
all the states that the removal of an applicable string leads to, each of them once
(`ErasingSystem.children_enumerate_removals`).

Two erasures of different strings leave different traces. Two erasures of one string can leave the
same tape. A tape is then left out when it is the one just before it
(`ErasingSystem.map_erase_positions`), and no tape comes back later on
(`Occurrence.nodup_map_removeAt_distinct`).
-/

namespace StringMachines

/-- The states that the pending moves of a frame lead to, in the order in which they are tried. -/
def SearchSpace.children {σ ε : Type} (space : SearchSpace σ ε) (frame : Frame σ ε) : List σ :=
  frame.pending.map (space.apply frame.state)

namespace ErasingSystem

variable {system : ErasingSystem} {quantifier : Quantifier} {s : ErasingState}

/-! ## One string -/

/-- States with one trace are told apart by their tapes. -/
theorem injective_mk (trace : Word) : Function.Injective (ErasingState.mk · trace) :=
  fun _ _ h => (ErasingState.mk.inj h).1

/-- Erasing a string at its positions leaves the tapes of its distinct removals. -/
theorem map_erase_positions_eq (s : ErasingState) (e : Word) :
    ((positions .all e s.tape).map fun position => s.erase ⟨e, position⟩) =
      ((Occurrence.distinct e.length (e.occurrences s.tape)).map
        (s.tape.removeAt ·.position e.length)).map (⟨·, s.trace ++ e⟩) := by
  rw [positions, List.map_map, List.map_map]
  rfl

/-- Erasing a string at its positions leads to different states. -/
theorem nodup_map_erase_positions (s : ErasingState) (e : Word) :
    ((positions .all e s.tape).map fun position => s.erase ⟨e, position⟩).Nodup := by
  rw [map_erase_positions_eq]
  refine List.Nodup.map (injective_mk _) ?_
  exact Occurrence.nodup_map_removeAt_distinct (fun o => Word.isPlaceIn_of_mem_occurrences)
    (Word.occurrences_pairwise e s.tape)

/-- Erasing a string at its positions leads to the states that erasing it at all its places leads
to, each left out that is the one just before it. -/
theorem map_erase_positions (s : ErasingState) (e : Word) :
    ((positions .all e s.tape).map fun position => s.erase ⟨e, position⟩) =
      ((e.placesIn s.tape).map fun position => s.erase ⟨e, position⟩).destutter (· ≠ ·) := by
  have hstates (places : List Nat) : (places.map fun position => s.erase ⟨e, position⟩) =
      (places.map (s.tape.removeAt · e.length)).map (⟨·, s.trace ++ e⟩) := by
    rw [List.map_map]
    rfl
  rw [positions_eq_freshPlaces, PositionMode.select, hstates, hstates,
    Word.map_removeAt_freshPlaces, List.map_destutter_ne _ (injective_mk _)]

/-- Erasing different strings leads to different states, since it leaves different traces. -/
theorem disjoint_map_erase_positions {e e' : Word} (hne : e ≠ e') :
    List.Disjoint ((positions .all e s.tape).map fun position => s.erase ⟨e, position⟩)
      ((positions .all e' s.tape).map fun position => s.erase ⟨e', position⟩) := by
  intro t ht ht'
  obtain ⟨position, -, rfl⟩ := List.mem_map.1 ht
  obtain ⟨position', -, hstate⟩ := List.mem_map.1 ht'
  have htrace : s.trace ++ e' = s.trace ++ e := congrArg ErasingState.trace hstate
  exact hne (List.append_cancel_left htrace).symm

/-! ## All strings -/

/-- No string is a candidate twice. -/
theorem pairwise_ranked_candidates (system : ErasingSystem) (quantifier : Quantifier)
    (s : ErasingState) :
    (Candidate.ranked quantifier (system.candidates quantifier s)).Pairwise
      (·.value ≠ ·.value) := by
  refine ((Candidate.ranked_perm quantifier _).pairwise_iff Ne.symm).2 ?_
  refine List.pairwise_filterMap.2 ((system.strings_nodup.filter _).imp ?_)
  intro e e' hne c hc c' hc'
  obtain ⟨levels, -, rfl⟩ := Option.map_eq_some_iff.1 hc
  obtain ⟨levels', -, rfl⟩ := Option.map_eq_some_iff.1 hc'
  exact hne

/-- The erasures of a state lead to the states of its strings one after another, as they rank. -/
theorem map_erase_erasures (system : ErasingSystem) (settings : Settings) (s : ErasingState) :
    (system.erasures settings s).map s.erase =
      (Candidate.ranked settings.quantifier (system.candidates settings.quantifier s)).flatMap
        fun c => (positions settings.positions c.value s.tape).map
          fun position => s.erase ⟨c.value, position⟩ := by
  rw [erasures, List.map_flatMap]
  refine List.flatMap_congr fun c _ => ?_
  exact List.map_map

/-- No two erasures of a state lead to the same state. -/
theorem nodup_map_erase_erasures (system : ErasingSystem) (quantifier : Quantifier)
    (verbose : Bool) (s : ErasingState) :
    ((system.erasures ⟨quantifier, .all, verbose⟩ s).map s.erase).Nodup := by
  rw [map_erase_erasures, List.nodup_flatMap]
  refine ⟨fun c _ => nodup_map_erase_positions s c.value, ?_⟩
  exact (pairwise_ranked_candidates system quantifier s).imp disjoint_map_erase_positions

/-- The erasures of a state lead to the states that the removal of an applicable string leads to. -/
theorem mem_map_erase_erasures_iff {verbose : Bool} {s' : ErasingState} :
    s' ∈ (system.erasures ⟨quantifier, .all, verbose⟩ s).map s.erase ↔
      ∃ e ∈ system.strings, (system.levels? quantifier (s.trace ++ e)).isSome = true ∧
        ∃ u v, s.tape = u ++ e ++ v ∧ s' = ⟨u ++ v, s.trace ++ e⟩ := by
  rw [List.mem_map, exists_mem_erasures_iff]
  constructor
  · rintro ⟨herases, hlevels⟩
    cases herases with
    | @anywhere e u v trace he => exact ⟨e, he, hlevels, u, v, rfl, rfl⟩
  · rintro ⟨e, he, hlevels, u, v, htape, rfl⟩
    obtain ⟨tape, trace⟩ := s
    obtain rfl : tape = u ++ e ++ v := htape
    exact ⟨.anywhere he, hlevels⟩

/-- **The children of a state are its removals, each of them once.** A state with a tape that is not
empty, and that is not known to fail, is opened. Its children are tried as the strings rank, each
string from left to right, and a child is left out that is the same as the one just before it. So
no child is tried twice, and the children are what is left of the tape without one occurrence of an
erasing string, for every string that keeps the trace a possible beginning and every occurrence. -/
theorem children_enumerate_removals (system : ErasingSystem) (quantifier : Quantifier)
    (verbose : Bool) {s : ErasingState} {rejected : Std.HashSet ErasingState}
    (htape : s.tape ≠ []) (hrejected : s ∉ rejected) :
    ∃ frame, (system.space ⟨quantifier, .all, verbose⟩).arrive rejected s = .opened frame ∧
      (system.space ⟨quantifier, .all, verbose⟩).children frame =
        (Candidate.ranked quantifier (system.candidates quantifier s)).flatMap (fun c =>
          ((c.value.placesIn s.tape).map fun position => s.erase ⟨c.value, position⟩).destutter
            (· ≠ ·)) ∧
      ((system.space ⟨quantifier, .all, verbose⟩).children frame).Nodup ∧
      ∀ s', s' ∈ (system.space ⟨quantifier, .all, verbose⟩).children frame ↔
        ∃ e ∈ system.strings, (system.levels? quantifier (s.trace ++ e)).isSome = true ∧
          ∃ u v, s.tape = u ++ e ++ v ∧ s' = ⟨u ++ v, s.trace ++ e⟩ := by
  refine ⟨⟨s, system.erasures ⟨quantifier, .all, verbose⟩ s⟩, ?_, ?_, ?_, fun s' => ?_⟩
  · simp [SearchSpace.arrive, space, htape, hrejected]
  · refine (map_erase_erasures system ⟨quantifier, .all, verbose⟩ s).trans ?_
    exact List.flatMap_congr fun c _ => map_erase_positions s c.value
  · exact nodup_map_erase_erasures system quantifier verbose s
  · exact mem_map_erase_erasures_iff

/-- Either `a` of `aab` can be erased, and the tape that both leave is tried once. -/
theorem children_of_aab : ∃ system : ErasingSystem,
    build [['a']] "[a]*b".toList {} = .ok system ∧ ['a', 'a', 'b'] ≠ [] ∧
      ∃ frame, (system.space {}).arrive ∅ ⟨['a', 'a', 'b'], []⟩ = .opened frame ∧
        ((system.space {}).children frame).count ⟨['a', 'b'], ['a']⟩ = 1 := by
  have hread : Token.read "[a]*b".toList =
      [.atom (.charClass [.single 'a']), .operator .star, .atom (.literal 'b')] := by
    simp [Token.read, Word.upTo, Word.beyond, CharClass.ofBody]
  obtain ⟨system, hbuild, hstrings, htokens⟩ := exists_build_of_read [['a']] {}
    hread (by decide) ⟨'[', by simp, by decide⟩ (by decide) (by decide) (by decide)
  obtain ⟨frame, hopened, -, hnodup, hmem⟩ := children_enumerate_removals system .greedy false
    (s := ⟨['a', 'a', 'b'], []⟩) (List.cons_ne_nil _ _) Std.HashSet.not_mem_empty
  refine ⟨system, hbuild, List.cons_ne_nil _ _, frame, hopened, ?_⟩
  refine List.count_eq_one_of_mem hnodup ((hmem _).2 ⟨['a'], ?_, ?_, [], ['a', 'b'], rfl, rfl⟩)
  · rw [hstrings]
    decide
  · rw [levels?, htokens]
    decide

end ErasingSystem

end StringMachines
