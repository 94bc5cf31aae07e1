import StringMachines.Proofs.Erasing.Places
import StringMachines.Proofs.Search.Recursion

/-!
# The recursive search of an erasing system

The search of an erasing system can be said without a stack. From a state it tries the erasing
strings one after another, and each of them at its places on the tape one after another; every
erasure calls the search again, and the set of states that are known to fail is handed from call to
call (`ErasingSystem.search`).

The search on a stack does the same: it gives the same answer and tries the same erasures in the
same order (`ErasingSystem.explore_eq_search`). The frames of the stack hold the erasures of a state
as one list, so that the loops of the recursion have to be shown to go through that list:
`ErasingSystem.searchPositions_tries` for the places of one string, where a place is passed over
when the last erasure left the same tape, and `ErasingSystem.searchStrings_tries` for the strings,
which are chosen anew each time.
-/

namespace StringMachines

namespace ErasingSystem

/-- Removing a string at a place where it stands shortens the tape. -/
theorem length_erase_lt_of_mem_select {system : ErasingSystem} {mode : PositionMode}
    {s : ErasingState} {e : Word} (he : e ∈ system.strings) {position : Nat}
    (h : position ∈ mode.select (e.placesIn s.tape)) :
    (s.erase ⟨e, position⟩).tape.length < s.tape.length := by
  have hle := Word.le_length_of_mem_placesIn ((mode.select_sublist _).subset h)
  exact length_erase_lt_of_le he hle

-- Only an erasure shortens the tape. The calls within one state go down a level, which comes second
-- in the measure, or along a list.
mutual

/-- Searches from a state, when the states `rejected` are known to fail. An empty tape is decided by
the trace. -/
def search (system : ErasingSystem) (settings : Settings) (rejected : Std.HashSet ErasingState)
    (s : ErasingState) : Findings ErasingState Erasure :=
  if s.tape = [] then ⟨system.pattern.accepts s.trace, rejected, []⟩
  else if s ∈ rejected then ⟨false, rejected, []⟩
  else
    (system.searchStrings settings s rejected (system.candidates settings.quantifier s)
      fun _ => mem_strings_of_mem_candidates).closing s
termination_by (s.tape.length, 2, 0)

/-- Tries the best of the candidates at its places, and then the others. -/
def searchStrings (system : ErasingSystem) (settings : Settings) (s : ErasingState)
    (rejected : Std.HashSet ErasingState) (candidates : List (Candidate Word))
    (hstrings : ∀ c ∈ candidates, c.value ∈ system.strings) : Findings ErasingState Erasure :=
  match Candidate.choose? settings.quantifier candidates with
  | none => ⟨false, rejected, []⟩
  | some i =>
    if hi : i < candidates.length then
      (system.searchPositions settings s candidates[i].value none rejected
        (settings.positions.select (candidates[i].value.placesIn s.tape))
        fun _ => length_erase_lt_of_mem_select (hstrings _ (List.getElem_mem hi))).orElse
          fun rejected => system.searchStrings settings s rejected (candidates.eraseIdx i)
            fun c hc => hstrings c (List.mem_of_mem_eraseIdx hc)
    else ⟨false, rejected, []⟩
termination_by (s.tape.length, 1, candidates.length)
decreasing_by
  · exact Prod.Lex.right _ (Prod.Lex.left _ _ Nat.zero_lt_one)
  · refine Prod.Lex.right _ (Prod.Lex.right _ ?_)
    rw [List.length_eraseIdx, if_pos hi]
    omega

/-- Erases a string at the places, unless this leaves the tape that the last erasure has left, and
goes on from there. -/
def searchPositions (system : ErasingSystem) (settings : Settings) (s : ErasingState) (e : Word)
    (last : Option Word) (rejected : Std.HashSet ErasingState) (positions : List Nat)
    (hshorter : ∀ position ∈ positions, (s.erase ⟨e, position⟩).tape.length < s.tape.length) :
    Findings ErasingState Erasure :=
  match positions, hshorter with
  | [], _ => ⟨false, rejected, []⟩
  | position :: positions, hshorter =>
    if last = some (s.erase ⟨e, position⟩).tape then
      system.searchPositions settings s e last rejected positions
        (List.forall_mem_cons.1 hshorter).2
    else
      ((system.search settings rejected (s.erase ⟨e, position⟩)).after [(s, ⟨e, position⟩)]).orElse
        fun rejected => system.searchPositions settings s e (some (s.erase ⟨e, position⟩).tape)
          rejected positions (List.forall_mem_cons.1 hshorter).2
termination_by (s.tape.length, 0, positions.length)
decreasing_by
  · exact Prod.Lex.right _ (Prod.Lex.right _ (Nat.lt_succ_self _))
  · exact Prod.Lex.left _ _ (hshorter position List.mem_cons_self)
  · exact Prod.Lex.right _ (Prod.Lex.right _ (Nat.lt_succ_self _))

end

variable {system : ErasingSystem} {settings : Settings} {s : ErasingState}

/-! ## The loops of the recursion -/

/-- The recursion finds out what arriving at the state finds out, whatever is known to fail. -/
def Agrees (system : ErasingSystem) (settings : Settings) (s : ErasingState) : Prop :=
  ∀ rejected, Search.Arrives (system.space settings) rejected s (system.search settings rejected s)

/-- The loop over the places of a string tries the fresh ones. -/
theorem searchPositions_tries {e : Word} {places : List Nat}
    (hagrees : ∀ place ∈ places, system.Agrees settings (s.erase ⟨e, place⟩)) (last : Option Word)
    (hshorter : ∀ place ∈ places, (s.erase ⟨e, place⟩).tape.length < s.tape.length)
    (rejected : Std.HashSet ErasingState) :
    Search.Tries (system.space settings) rejected s
      ((s.tape.freshPlaces e.length last places).map (⟨e, ·⟩))
      (system.searchPositions settings s e last rejected places hshorter) := by
  induction places generalizing last rejected with
  | nil =>
    simp only [Word.freshPlaces, List.map_nil, searchPositions]
    exact Search.tries_nil
  | cons place places ih =>
    obtain ⟨hagree, hagrees'⟩ := List.forall_mem_cons.1 hagrees
    have hlater := ih hagrees'
    have htape : (s.erase ⟨e, place⟩).tape = s.tape.removeAt place e.length := rfl
    simp only [searchPositions]
    rw [Word.freshPlaces, htape]
    by_cases hlast : last = some (s.tape.removeAt place e.length)
    · -- The place is passed over, and what is remembered stays.
      rw [if_pos hlast, if_pos hlast]
      exact hlater last _ rejected
    · rw [if_neg hlast, if_neg hlast]
      exact (hagree rejected).tries.orElse (hlater _ _)

/-- The loop over the strings tries them as they rank. -/
theorem searchStrings_tries {candidates : List (Candidate Word)}
    (hagrees : ∀ x : Erasure, (s.erase x).tape.length < s.tape.length →
      system.Agrees settings (s.erase x))
    (hstrings : ∀ c ∈ candidates, c.value ∈ system.strings)
    (rejected : Std.HashSet ErasingState) :
    Search.Tries (system.space settings) rejected s
      ((Candidate.ranked settings.quantifier candidates).flatMap fun c =>
        (positions settings.positions c.value s.tape).map (⟨c.value, ·⟩))
      (system.searchStrings settings s rejected candidates hstrings) := by
  fun_induction Candidate.ranked settings.quantifier candidates generalizing rejected with
  | case1 candidates hchoose =>
    rw [searchStrings, hchoose]
    exact Search.tries_nil
  | case2 candidates i hchoose hi ih =>
    rw [searchStrings, hchoose, List.flatMap_cons]
    simp only [dif_pos hi]
    rw [positions_eq_freshPlaces]
    refine (searchPositions_tries (fun place hplace => ?_) none _ rejected).orElse (ih _)
    have hstring := hstrings _ (List.getElem_mem hi)
    exact hagrees ⟨_, place⟩ (length_erase_lt_of_mem_select hstring hplace)
  | case3 candidates i hchoose hi =>
    rw [searchStrings, hchoose]
    simp only [dif_neg hi]
    exact Search.tries_nil

/-! ## The whole search -/

/-- The recursion finds out from every state what arriving there finds out. -/
theorem agrees (system : ErasingSystem) (settings : Settings) (s : ErasingState) :
    system.Agrees settings s := by
  induction hlength : s.tape.length using Nat.strongRecOn generalizing s with
  | ind n ih =>
    intro rejected
    have hagrees : ∀ x : Erasure, (s.erase x).tape.length < s.tape.length →
        system.Agrees settings (s.erase x) := by
      intro x hshorter
      exact ih _ (hlength ▸ hshorter) (s.erase x) rfl
    rw [search]
    by_cases htape : s.tape = []
    · rw [if_pos htape]
      exact Search.arrives_of_decided (if_pos htape)
    · have hverdict : (system.space settings).verdict? s = none := if_neg htape
      rw [if_neg htape]
      by_cases hmem : s ∈ rejected
      · rw [if_pos hmem]
        exact Search.arrives_of_mem hverdict hmem
      · rw [if_neg hmem]
        exact (searchStrings_tries hagrees _ rejected).arrives hverdict hmem

/-- **The search on a stack is the recursive search.** From every input, whatever its length, the
search gives the answer of the recursion, and has tried the same erasures in the same order, each
with the tape and the trace of the state it was tried in. -/
theorem explore_eq_search (system : ErasingSystem) (settings : Settings) (input : Word) :
    (system.space settings).explore ⟨input, []⟩ =
      ⟨(system.search settings ∅ ⟨input, []⟩).accepted,
        (system.search settings ∅ ⟨input, []⟩).steps⟩ :=
  (system.agrees settings ⟨input, []⟩ ∅).explore_eq

end ErasingSystem

end StringMachines
