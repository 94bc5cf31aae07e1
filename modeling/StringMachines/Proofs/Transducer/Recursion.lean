import Mathlib.Data.Finset.Insert
import StringMachines.Proofs.Transducer.Grouping
import StringMachines.Proofs.Transducer.Termination

/-!
# The recursive search for outputs

The order in which a run gives its outputs is that of a search that calls itself
(`Transition.search`). The recursion is said of the list of transitions: from a place it goes to the
places after one transition, the groups of transitions and the transitions of a group both taken
from the last to the first, and the set of places that have been seen is handed from call to call.
Like a run, it need not end; it is allowed a depth of nested calls.

A run keeps what it has to visit on one stack and finds out only at the visit whether it has been
there before, so that it may visit a place on behalf of one branch that another branch has left
pending. It comes to the same: when the run comes back to what was pending below some places, it has
done what the recursion does with these places (`Transducer.Retraces`). If nothing is left pending
in the end, this is so for every call (`Transducer.exists_retraces`). Therefore a run that comes to
its end gives the outputs in the order of the recursion, which then ends too
(`Transducer.enumeration_eq_search`).
-/

namespace StringMachines

/-- Where a recursive search stands: the state, how many characters of the input are read, and what
has been written. -/
structure Place where
  state : Word
  offset : Nat
  output : Word
deriving DecidableEq, Repr

namespace Transition

/-- The places after one transition, in the order of the groups. -/
def placesAfter (transitions : List Transition) (cap : Option Nat) (input : Word) (p : Place) :
    List Place :=
  ((outgoing transitions p.state).filter (applies cap (input.drop p.offset) p.output)).map
    fun tr => ⟨tr.target, p.offset + tr.input.length, p.output ++ tr.output⟩

/-- Searches from some places one after another by `visit`, which is told the places that are seen.
Gives the outputs in the order in which they are found, and the places that are seen afterwards. -/
def searchAll (visit : Finset Place → Place → Option (List Word × Finset Place))
    (seen : Finset Place) : List Place → Option (List Word × Finset Place)
  | [] => some ([], seen)
  | p :: ps => do
    let (first, seen) ← visit seen p
    let (others, seen) ← searchAll visit seen ps
    return (first ++ others, seen)

/-- Searches from a place, when the places `seen` have been searched or are being searched. The
recursion need not end, so there is no result when the calls are nested more than `depth` deep. -/
def search (transitions : List Transition) (finals : List Word) (cap : Option Nat)
    (input : Word) : Nat → Finset Place → Place → Option (List Word × Finset Place)
  | 0, _, _ => none
  | depth + 1, seen, p =>
    if p ∈ seen then some ([], seen)
    else do
      let own := if p.offset = input.length ∧ finals.contains p.state then [p.output] else []
      let (others, seen) ← searchAll (search transitions finals cap input depth) (insert p seen)
        (placesAfter transitions cap input p).reverse
      return (own ++ others, seen)

section

variable {visit : Finset Place → Place → Option (List Word × Finset Place)}
  {transitions : List Transition} {finals : List Word} {cap : Option Nat} {input : Word}
  {depth : Nat} {seen seen' seen'' : Finset Place} {p : Place} {ps : List Place}
  {first others : List Word}

/-- One place is searched, and then the others. -/
theorem searchAll_cons (hfirst : visit seen p = some (first, seen'))
    (hothers : searchAll visit seen' ps = some (others, seen'')) :
    searchAll visit seen (p :: ps) = some (first ++ others, seen'') := by
  simp [searchAll, hfirst, hothers]

/-- A single place is searched as such. -/
theorem searchAll_singleton : searchAll visit seen [p] = visit seen p := by
  cases hfound : visit seen p with
  | none => simp [searchAll, hfound]
  | some found => simp [searchAll, hfound]

/-- Nothing is found at a place that is seen. -/
theorem search_of_mem (h : p ∈ seen) :
    search transitions finals cap input (depth + 1) seen p = some ([], seen) :=
  if_pos h

/-- At a new place its own output is found, and then the outputs of what it leads to. -/
theorem search_of_notMem (h : p ∉ seen)
    (hothers : searchAll (search transitions finals cap input depth) (insert p seen)
      (placesAfter transitions cap input p).reverse = some (others, seen')) :
    search transitions finals cap input (depth + 1) seen p =
      some ((if p.offset = input.length ∧ finals.contains p.state then [p.output] else []) ++
        others, seen') := by
  rw [search, if_neg h, hothers]
  rfl

end

end Transition

/-! ## Places and configurations -/

namespace Place

variable {input : Word} {p q : Place}

/-- The configuration of a run at a place. -/
def configuration (input : Word) (p : Place) : Configuration :=
  ⟨p.state, input.drop p.offset, p.output⟩

/-- Places within the input are told apart by their configurations. -/
theorem configuration_inj (hp : p.offset ≤ input.length) (hq : q.offset ≤ input.length) :
    p.configuration input = q.configuration input ↔ p = q := by
  obtain ⟨state, offset, output⟩ := p
  obtain ⟨state', offset', output'⟩ := q
  constructor
  · intro h
    obtain ⟨rfl, hdrop, rfl⟩ := Configuration.mk.inj h
    have hlength := congrArg List.length hdrop
    simp only [List.length_drop] at hlength hp hq
    obtain rfl : offset = offset' := by omega
    rfl
  · intro h
    rw [h]

/-- The places that are seen are those whose configurations have been visited. -/
def Agree (input : Word) (seen : Finset Place) (visited : Std.HashSet Configuration) : Prop :=
  ∀ p : Place, p.offset ≤ input.length → (p ∈ seen ↔ p.configuration input ∈ visited)

variable {seen : Finset Place} {visited : Std.HashSet Configuration}

/-- A place and its configuration can be added. -/
theorem Agree.insert (h : Agree input seen visited) (hp : p.offset ≤ input.length) :
    Agree input (insert p seen) (visited.insert (p.configuration input)) := by
  intro q hq
  rw [Finset.mem_insert, Std.HashSet.mem_insert, beq_iff_eq, configuration_inj hp hq, h q hq,
    eq_comm]

/-- Visiting a configuration again adds nothing. -/
theorem Agree.insert_of_mem (h : Agree input seen visited) (hp : p.offset ≤ input.length)
    (hmem : p ∈ seen) : Agree input seen (visited.insert (p.configuration input)) := by
  have hinsert := h.insert hp
  rwa [Finset.insert_eq_of_mem hmem] at hinsert

end Place

namespace Transition

variable {transitions : List Transition} {cap : Option Nat} {input : Word} {p : Place}

/-- A transition does not read beyond the input. -/
theorem offset_le_of_mem_placesAfter (hp : p.offset ≤ input.length) {q : Place}
    (h : q ∈ placesAfter transitions cap input p) : q.offset ≤ input.length := by
  obtain ⟨tr, htr, rfl⟩ := List.mem_map.1 h
  have happlies := (List.mem_filter.1 htr).2
  rw [applies, Bool.and_eq_true, List.isPrefixOf_iff_prefix] at happlies
  have hlength := happlies.1.length_le
  rw [List.length_drop] at hlength
  show p.offset + tr.input.length ≤ input.length
  omega

end Transition

namespace Transducer

variable {transitions : List Transition} {initial : Word} {finals : List Word} {t : Transducer}
  {input : Word} {p : Place}

/-- A run goes on to the configurations of the places after one transition. -/
theorem successors_configuration (hbuild : build transitions initial finals = .ok t)
    (cap : Option Nat) (input : Word) (p : Place) :
    (t.withCap cap).successors (p.configuration input) =
      (Transition.placesAfter transitions cap input p).map (·.configuration input) := by
  rw [successors_of_build hbuild, Transition.placesAfter, List.map_map]
  refine List.map_congr_left fun tr _ => ?_
  simp only [Place.configuration, Function.comp_apply, List.drop_drop]

/-- What a place gives is its output, when the input is read and the state is final. -/
theorem map_output_accepting (hbuild : build transitions initial finals = .ok t)
    (cap : Option Nat) (hp : p.offset ≤ input.length) :
    (if (t.withCap cap).isAccepting (p.configuration input) then [p.configuration input]
      else []).map (·.output) =
      if p.offset = input.length ∧ finals.contains p.state then [p.output] else [] := by
  have hfinals : p.state ∈ t.finals ↔ p.state ∈ finals := (of_build_eq_ok hbuild).2.2 p.state
  have hread : input.drop p.offset = [] ↔ p.offset = input.length := by
    rw [List.drop_eq_nil_iff]
    omega
  have haccepting : (t.withCap cap).isAccepting (p.configuration input) = true ↔
      p.offset = input.length ∧ finals.contains p.state := by
    rw [isAccepting_iff, ← hread, List.contains_iff_mem, ← hfinals]
    rfl
  by_cases h : p.offset = input.length ∧ finals.contains p.state
  · rw [if_pos h, if_pos (haccepting.2 h)]
    rfl
  · rw [if_neg h, if_neg (mt haccepting.1 h)]
    rfl

/-! ## The run and the recursion -/

/-- From the places `ps`, the recursion finds what `n` visits give, and is not nested deeper than
that. After them the run has come back to what was pending below the places, whatever that is, and
the places that are seen are those that have been visited. -/
structure Retraces (transitions : List Transition) (finals : List Word) (t : Transducer)
    (cap : Option Nat) (input : Word) (seen : Finset Place) (visited : Std.HashSet Configuration)
    (ps : List Place) (n : Nat) (given : List Configuration) (seen' : Finset Place)
    (visited' : Std.HashSet Configuration) : Prop where
  search : ∀ depth ≥ n, Transition.searchAll
    (Transition.search transitions finals cap input depth) seen ps =
      some (given.map (·.output), seen')
  visits : ∀ rest, Run.advance (t.withCap cap) n
    ⟨ps.map (·.configuration input) ++ rest, visited⟩ = (given, ⟨rest, visited'⟩)
  agree : Place.Agree input seen' visited'

namespace Retraces

variable {cap : Option Nat} {ps : List Place} {m n : Nat} {given given' : List Configuration}
  {seen seen' seen'' : Finset Place} {visited visited' visited'' : Std.HashSet Configuration}

/-- No places, no visits. -/
theorem nil (hagree : Place.Agree input seen visited) :
    Retraces transitions finals t cap input seen visited [] 0 [] seen visited where
  search _ _ := rfl
  visits _ := rfl
  agree := hagree

/-- A visit finds a place seen when the recursion does. -/
theorem cons_of_mem (hagree : Place.Agree input seen visited) (hp : p.offset ≤ input.length)
    (hmem : p ∈ seen)
    (h : Retraces transitions finals t cap input seen (visited.insert (p.configuration input)) ps n
      given seen' visited') :
    Retraces transitions finals t cap input seen visited (p :: ps) (n + 1) given seen'
      visited' where
  search
  | depth + 1, hdepth => by
    have hothers := h.search (depth + 1) (by omega)
    exact Transition.searchAll_cons (Transition.search_of_mem hmem) hothers
  visits rest := by
    rw [List.map_cons, List.cons_append, Run.advance_of_mem ((hagree p hp).1 hmem), h.visits]
  agree := h.agree

/-- What a new place leads to is visited first, and then the places behind it. -/
theorem cons_of_notMem (hbuild : build transitions initial finals = .ok t)
    (hagree : Place.Agree input seen visited) (hp : p.offset ≤ input.length) (hmem : p ∉ seen)
    (hafter : Retraces transitions finals t cap input (insert p seen)
      (visited.insert (p.configuration input))
      (Transition.placesAfter transitions cap input p).reverse m given seen' visited')
    (h : Retraces transitions finals t cap input seen' visited' ps n given' seen'' visited'') :
    Retraces transitions finals t cap input seen visited (p :: ps) (m + n + 1)
      ((if (t.withCap cap).isAccepting (p.configuration input) then [p.configuration input]
        else []) ++ (given ++ given')) seen'' visited'' where
  search
  | depth + 1, hdepth => by
    have hfirst := Transition.search_of_notMem hmem (hafter.search depth (by omega))
    have hothers := h.search (depth + 1) (by omega)
    rw [List.map_append, List.map_append, map_output_accepting hbuild cap hp, ← List.append_assoc]
    exact Transition.searchAll_cons hfirst hothers
  visits rest := by
    rw [List.map_cons, List.cons_append, Run.advance_of_notMem (mt (hagree p hp).2 hmem),
      successors_configuration hbuild, ← List.map_reverse, Run.advance_add, hafter.visits, h.visits]
  agree := h.agree

end Retraces

/-- When visits leave nothing pending, the recursion from the places on top ends, and these places
take no more visits than that. -/
theorem exists_retraces (hbuild : build transitions initial finals = .ok t)
    (cap : Option Nat) (input : Word) (n : Nat) {ps : List Place} {rest : List Configuration}
    {seen : Finset Place} {visited : Std.HashSet Configuration}
    (hps : ∀ p ∈ ps, p.offset ≤ input.length) (hagree : Place.Agree input seen visited)
    (hend : (Run.advance (t.withCap cap) n
      ⟨ps.map (·.configuration input) ++ rest, visited⟩).2.pending = []) :
    ∃ m ≤ n, ∃ given seen' visited',
      Retraces transitions finals t cap input seen visited ps m given seen' visited' := by
  -- Nothing becomes smaller from call to call but the number of visits that are left.
  induction n using Nat.strongRecOn generalizing ps rest seen visited with
  | ind n ih =>
    cases ps with
    | nil => exact ⟨0, Nat.zero_le n, [], seen, visited, .nil hagree⟩
    | cons p ps =>
      obtain ⟨hp, hps'⟩ := List.forall_mem_cons.1 hps
      cases n with
      | zero => cases hend
      | succ n =>
        rw [List.map_cons, List.cons_append] at hend
        by_cases hmem : p ∈ seen
        · rw [Run.advance_of_mem ((hagree p hp).1 hmem)] at hend
          obtain ⟨m, hm, given, seen', visited', h⟩ :=
            ih n (Nat.lt_succ_self n) hps' (hagree.insert_of_mem hp hmem) hend
          exact ⟨m + 1, Nat.succ_le_succ hm, given, seen', visited', .cons_of_mem hagree hp hmem h⟩
        · rw [Run.advance_of_notMem (mt (hagree p hp).2 hmem), successors_configuration hbuild,
            ← List.map_reverse] at hend
          have hwithin : ∀ q ∈ (Transition.placesAfter transitions cap input p).reverse,
              q.offset ≤ input.length := by
            intro q hq
            exact Transition.offset_le_of_mem_placesAfter hp (List.mem_reverse.1 hq)
          obtain ⟨m, hm, given, seen', visited', hafter⟩ :=
            ih n (Nat.lt_succ_self n) hwithin (hagree.insert hp) hend
          -- The visits that are left are made from where these have come back to.
          have hsplit : n = m + (n - m) := by omega
          rw [hsplit, Run.advance_add, hafter.visits] at hend
          obtain ⟨m', hm', given', seen'', visited'', h⟩ :=
            ih (n - m) (by omega) hps' hafter.agree hend
          exact ⟨m + m' + 1, by omega, _, seen'', visited'',
            .cons_of_notMem hbuild hagree hp hmem hafter h⟩

/-- **A run gives its outputs in the order of the recursive search.** When a run is asked to the
end, the recursive search from the beginning of the input ends too, and finds the same outputs in
the same order. -/
theorem enumeration_eq_search (hbuild : build transitions initial finals = .ok t)
    (cap : Option Nat) (input : Word) {outputs : List Configuration}
    (h : (Run.start (t.withCap cap) input).Enumerates (t.withCap cap) outputs) :
    ∃ deepest, ∀ depth ≥ deepest, ∃ seen,
      Transition.search transitions finals cap input depth ∅ ⟨initial, 0, []⟩ =
        some (outputs.map (·.output), seen) := by
  have hstart : Run.start (t.withCap cap) input =
      ⟨[(⟨initial, 0, []⟩ : Place)].map (·.configuration input) ++ [], ∅⟩ := by
    rw [← (of_build_eq_ok hbuild).2.1]
    rfl
  have hagree : Place.Agree input ∅ ∅ := fun _ _ => by simp
  obtain ⟨n, -, hend⟩ := Run.enumerates_iff.1 h
  rw [hstart] at h hend
  obtain ⟨m, -, given, seen, visited, hretraces⟩ :=
    exists_retraces hbuild cap input n (by simp) hagree hend
  -- The visits for the one place at which the run starts leave nothing pending.
  have hadvance := hretraces.visits []
  have hgiven := Run.enumerates_of_advance (t := t.withCap cap) (n := m) (by rw [hadvance])
  rw [hadvance] at hgiven
  rw [h.unique hgiven]
  refine ⟨m, fun depth hdepth => ⟨seen, ?_⟩⟩
  exact Transition.searchAll_singleton.symm.trans (hretraces.search depth hdepth)

/-- Two states that lead to each other without reading, and to a third one by reading. The
transitions of the first state that read are one group, although they are not defined together. -/
def detour : List Transition :=
  [⟨['s'], ['a'], ['f'], ['x']⟩, ⟨['s'], [], ['r'], []⟩, ⟨['s'], ['a'], ['f'], ['y']⟩,
    ⟨['r'], [], ['s'], []⟩, ⟨['r'], ['a'], ['f'], ['z']⟩]

/-- The detour is searched first and comes back to a place that is seen, and then the other group is
searched from its end. -/
theorem enumeration_eq_search_zyx : ∃ t outputs,
    build detour ['s'] [['f']] = .ok t ∧
    (Run.start (t.withCap (some 1)) ['a']).Enumerates (t.withCap (some 1)) outputs ∧
    outputs.map (·.output) = [['z'], ['y'], ['x']] := by
  obtain ⟨t, hbuild⟩ : ∃ t, build detour ['s'] [['f']] = .ok t := ⟨_, rfl⟩
  obtain ⟨n, hn⟩ := exists_advance_of_bounded hbuild (some 1) ['a'] fun c =>
    Transition.length_output_le_of_cap
  have henumerates := Run.enumerates_of_advance hn
  refine ⟨t, _, hbuild, henumerates, ?_⟩
  obtain ⟨deepest, hdeepest⟩ := enumeration_eq_search hbuild (some 1) ['a'] henumerates
  obtain ⟨seen, hsearch⟩ := hdeepest (deepest + 3) (by omega)
  have hfound : (Transition.search detour [['f']] (some 1) ['a'] (deepest + 3) ∅
      ⟨['s'], 0, []⟩).map Prod.fst = some [['z'], ['y'], ['x']] := rfl
  rw [hsearch] at hfound
  exact Option.some.inj hfound

end Transducer

end StringMachines
