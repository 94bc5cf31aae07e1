import Mathlib.Data.Set.Card
import Mathlib.Data.Set.Finite.List
import StringMachines.Proofs.Transducer.Visits

/-!
# Runs that end

A run visits a configuration once, so it ends when only finitely many configurations can be reached
(`Transducer.Run.exists_advance_of_finite`): every visit leaves fewer configurations unvisited, or
as many and less pending. Outside the output, there is only finite choice in a configuration, so
what has to be bounded is the length of the outputs (`Transition.finite_reachable`).

There are two reasons for a bound. With a cap, a transition that reads nothing is taken only below
the cap, and the others use up the input (`Transition.length_output_le_of_cap`). Without a cap, it
is enough that no cycle of transitions that read nothing writes anything: such a transition that
does write leads to a state from which fewer states can be reached without reading
(`Transition.drift_target_lt`), so that there cannot be many of them between two readings
(`Transition.length_output_le_of_cyclesSilent`).
-/

namespace StringMachines

/-! ## Outputs that stay short -/

namespace Transition

variable {transitions : List Transition} {cap : Option Nat} {initial input : Word}
  {c : Configuration} {tr : Transition}

/-- The length of the longest word that a transition writes. -/
def longestOutput (transitions : List Transition) : Nat :=
  (transitions.map (·.output.length)).foldr max 0

/-- No transition writes a longer word. -/
theorem length_output_le (h : tr ∈ transitions) :
    tr.output.length ≤ longestOutput transitions := by
  induction transitions with
  | nil => cases h
  | cons first rest ih =>
    have hmax : longestOutput (first :: rest) = max first.output.length (longestOutput rest) := rfl
    rcases List.mem_cons.1 h with rfl | h
    · omega
    · have := ih h
      omega

/-- What is left to read is an end of the input. -/
theorem remaining_suffix
    (h : Relation.ReflTransGen (Step transitions cap) ⟨initial, input, []⟩ c) :
    c.remaining <:+ input := by
  induction h with
  | refl => exact List.suffix_refl input
  | tail _ hstep ih =>
    cases hstep with
    | take _ _ => exact (List.suffix_append _ _).trans ih

/-- With a cap, outputs exceed it by no more than what is written with every character read and
once more. -/
theorem length_output_le_of_cap {limit : Nat}
    (h : Relation.ReflTransGen (Step transitions (some limit)) ⟨initial, input, []⟩ c) :
    c.output.length ≤ limit + longestOutput transitions * (input.length + 1) := by
  -- What the characters left to read may still bring is counted in.
  have hcounted : c.output.length + longestOutput transitions * c.remaining.length ≤
      limit + longestOutput transitions * (input.length + 1) := by
    induction h with
    | refl =>
      rw [Nat.mul_succ]
      simp only [List.length_nil]
      omega
    | @tail b d hreach hstep ih =>
      have hsuffix := (remaining_suffix hreach).length_le
      cases hstep with
      | @take tr rest output htr hcap =>
        have hwritten := length_output_le htr
        simp only [List.length_append] at ih hsuffix ⊢
        rw [Nat.mul_add] at ih
        rw [Nat.mul_succ] at ih ⊢
        by_cases hread : tr.input = []
        · have hbelow := hcap hread limit rfl
          have hrest : longestOutput transitions * rest.length ≤
              longestOutput transitions * input.length :=
            Nat.mul_le_mul_left _ (by omega)
          omega
        · have hused : longestOutput transitions * 1 ≤
              longestOutput transitions * tr.input.length :=
            Nat.mul_le_mul_left _ (List.length_pos_iff.2 hread)
          omega
  omega

/-! ## Cycles that write nothing -/

/-- A transition that reads nothing leads from the one state to the other. -/
def Drifts (transitions : List Transition) (p q : Word) : Prop :=
  ∃ tr ∈ transitions, tr.input = [] ∧ tr.source = p ∧ tr.target = q

/-- No transition on a cycle of transitions that read nothing writes anything. -/
def CyclesSilent (transitions : List Transition) : Prop :=
  ∀ tr ∈ transitions, tr.input = [] →
    Relation.ReflTransGen (Drifts transitions) tr.target tr.source → tr.output = []

/-- The states that can be reached without reading. -/
def driftsFrom (transitions : List Transition) (q : Word) : Set Word :=
  {p | Relation.ReflTransGen (Drifts transitions) q p}

/-- Apart from the state itself, these are targets of transitions. -/
theorem driftsFrom_subset (q : Word) :
    driftsFrom transitions q ⊆ (q :: transitions.map (·.target)).toFinset := by
  intro p hp
  rw [List.coe_toFinset]
  cases hp with
  | refl => exact List.mem_cons_self
  | tail _ hlast =>
    obtain ⟨tr, htr, -, -, rfl⟩ := hlast
    exact List.mem_cons_of_mem _ (List.mem_map_of_mem htr)

/-- Only finitely many states can be reached without reading. -/
theorem finite_driftsFrom (q : Word) : (driftsFrom transitions q).Finite :=
  (Finset.finite_toSet _).subset (driftsFrom_subset q)

/-- How many states can be reached without reading. -/
noncomputable def drift (transitions : List Transition) (q : Word) : Nat :=
  (driftsFrom transitions q).ncard

/-- Apart from the state itself, there are not more of them than transitions. -/
theorem drift_le (transitions : List Transition) (q : Word) :
    drift transitions q ≤ transitions.length + 1 := by
  calc drift transitions q
      ≤ ((q :: transitions.map (·.target)).toFinset : Set Word).ncard :=
        Set.ncard_le_ncard (driftsFrom_subset q) (Finset.finite_toSet _)
    _ ≤ (q :: transitions.map (·.target)).length := by
        rw [Set.ncard_coe_finset]
        exact List.toFinset_card_le _
    _ = transitions.length + 1 := by simp

/-- What can be reached without reading after a transition that reads nothing can be reached without
reading before it. -/
theorem driftsFrom_target_subset (htr : tr ∈ transitions) (hread : tr.input = []) :
    driftsFrom transitions tr.target ⊆ driftsFrom transitions tr.source :=
  fun _ hp => Relation.ReflTransGen.head ⟨tr, htr, hread, rfl, rfl⟩ hp

/-- A transition that reads nothing does not lead to more states. -/
theorem drift_target_le (htr : tr ∈ transitions) (hread : tr.input = []) :
    drift transitions tr.target ≤ drift transitions tr.source :=
  Set.ncard_le_ncard (driftsFrom_target_subset htr hread) (finite_driftsFrom _)

/-- When cycles write nothing, a transition that reads nothing and writes something leads to fewer
states, for there is no way back. -/
theorem drift_target_lt (hsilent : CyclesSilent transitions) (htr : tr ∈ transitions)
    (hread : tr.input = []) (hwritten : tr.output ≠ []) :
    drift transitions tr.target < drift transitions tr.source := by
  refine Set.ncard_lt_ncard ⟨driftsFrom_target_subset htr hread, fun hsubset => ?_⟩
    (finite_driftsFrom _)
  exact hwritten (hsilent tr htr hread (hsubset .refl))

/-- How often something can still be written: once for every state that can be reached without
reading, and all of this once more with every character read. -/
noncomputable def allowance (transitions : List Transition) (c : Configuration) : Nat :=
  drift transitions c.state + (transitions.length + 2) * c.remaining.length

/-- When cycles write nothing, a transition writes nothing or uses up some of the allowance. -/
theorem Step.allowance_le {d : Configuration} (hsilent : CyclesSilent transitions)
    (h : Step transitions cap c d) :
    d.output = c.output ∧ allowance transitions d ≤ allowance transitions c ∨
      d.output.length ≤ c.output.length + longestOutput transitions ∧
        allowance transitions d + 1 ≤ allowance transitions c := by
  cases h with
  | @take tr rest output htr _ =>
    have hwritten := length_output_le htr
    simp only [allowance, List.length_append, Nat.mul_add]
    by_cases hread : tr.input = []
    · rw [hread, List.length_nil, Nat.mul_zero, Nat.zero_add]
      by_cases hsome : tr.output = []
      · have hle := drift_target_le htr hread
        exact .inl ⟨by rw [hsome, List.append_nil], by omega⟩
      · have hlt := drift_target_lt hsilent htr hread hsome
        exact .inr ⟨by omega, by omega⟩
    · have hle := drift_le transitions tr.target
      have hused : (transitions.length + 2) * 1 ≤ (transitions.length + 2) * tr.input.length :=
        Nat.mul_le_mul_left _ (List.length_pos_iff.2 hread)
      exact .inr ⟨by omega, by omega⟩

/-- When cycles write nothing, outputs are bounded by the allowance at the beginning. -/
theorem length_output_le_of_cyclesSilent (hsilent : CyclesSilent transitions)
    (h : Relation.ReflTransGen (Step transitions cap) ⟨initial, input, []⟩ c) :
    c.output.length ≤
      longestOutput transitions * allowance transitions ⟨initial, input, []⟩ := by
  have hcounted : c.output.length + longestOutput transitions * allowance transitions c ≤
      longestOutput transitions * allowance transitions ⟨initial, input, []⟩ := by
    induction h with
    | refl => simp
    | @tail b d _ hstep ih =>
      rcases hstep.allowance_le hsilent with ⟨houtput, hle⟩ | ⟨houtput, hle⟩
      · have hmul := Nat.mul_le_mul_left (longestOutput transitions) hle
        rw [houtput]
        omega
      · have hmul := Nat.mul_le_mul_left (longestOutput transitions) hle
        rw [Nat.mul_succ] at hmul
        omega
  omega

/-! ## What can be reached -/

/-- There are only finitely many characters. -/
theorem finite_char : Finite Char := by
  refine Finite.of_injective (fun c : Char => c.val.toFin) fun c d h => ?_
  exact Char.ext (UInt32.toFin_inj.1 h)

/-- A computation stays in its first state or comes to the target of a transition. -/
theorem state_mem (h : Relation.ReflTransGen (Step transitions cap) ⟨initial, input, []⟩ c) :
    c.state ∈ initial :: transitions.map (·.target) := by
  cases h with
  | refl => exact List.mem_cons_self
  | tail _ hlast =>
    cases hlast with
    | take htr _ => exact List.mem_cons_of_mem _ (List.mem_map_of_mem htr)

/-- When outputs are bounded, only finitely many configurations can be reached. -/
theorem finite_reachable {bound : Nat}
    (hbound : ∀ c, Relation.ReflTransGen (Step transitions cap) ⟨initial, input, []⟩ c →
      c.output.length ≤ bound) :
    {c | Relation.ReflTransGen (Step transitions cap) ⟨initial, input, []⟩ c}.Finite := by
  have := finite_char
  have hchoice := (List.finite_toSet (initial :: transitions.map (·.target))).prod
    ((List.finite_toSet input.tails).prod (List.finite_length_le Char bound))
  have hconfigurations := hchoice.image fun (q, remaining, output) =>
    (⟨q, remaining, output⟩ : Configuration)
  refine hconfigurations.subset fun c hc => ?_
  refine ⟨(c.state, c.remaining, c.output), ⟨state_mem hc, ?_, hbound c hc⟩, rfl⟩
  exact (List.mem_tails _ _).2 (remaining_suffix hc)

end Transition

/-! ## Runs -/

namespace Transducer

/-- A run ends when what is pending belongs to a finite set that no transition leaves. Every visit
makes the set of configurations that are not visited smaller, or takes one off what is pending. -/
theorem Run.exists_advance_of_finite {t : Transducer} {reachable : Set Configuration}
    (hfinite : reachable.Finite)
    (hclosed : ∀ c ∈ reachable, ∀ d, t.Moves c d → d ∈ reachable)
    {pending : List Configuration} (visited : Std.HashSet Configuration)
    (hpending : ∀ c ∈ pending, c ∈ reachable) :
    ∃ n, (advance t n ⟨pending, visited⟩).2.pending = [] := by
  induction hcard : (reachable \ {c | c ∈ visited}).ncard using Nat.strongRecOn
    generalizing pending visited with
  | ind unvisited ih =>
    induction pending generalizing visited with
    | nil => exact ⟨0, rfl⟩
    | cons c pending ihpending =>
      obtain ⟨hc, hpending'⟩ := List.forall_mem_cons.1 hpending
      by_cases hmem : c ∈ visited
      · have hsame : {d | d ∈ visited.insert c} = {d | d ∈ visited} := by
          ext d
          simp only [Set.mem_ofPred_eq, Std.HashSet.mem_insert, beq_iff_eq]
          exact ⟨fun h => h.elim (fun heq => heq ▸ hmem) id, .inr⟩
        obtain ⟨n, hn⟩ := ihpending (visited.insert c) hpending' (by rw [hsame, hcard])
        refine ⟨n + 1, ?_⟩
        rw [advance_of_mem hmem]
        exact hn
      · have hlt : (reachable \ {d | d ∈ visited.insert c}).ncard < unvisited := by
          rw [← hcard]
          refine Set.ncard_lt_ncard ⟨fun d hd => ⟨hd.1, fun h => hd.2 ?_⟩, fun hsubset => ?_⟩
            (hfinite.subset Set.sdiff_subset)
          · exact Std.HashSet.mem_insert.2 (.inr h)
          · exact (hsubset ⟨hc, hmem⟩).2 (Std.HashSet.mem_insert.2 (.inl BEq.rfl))
        have hmore : ∀ d ∈ (t.successors c).reverse ++ pending, d ∈ reachable := by
          intro d hd
          rcases List.mem_append.1 hd with hd | hd
          · exact hclosed c hc d (mem_successors_iff.1 (List.mem_reverse.1 hd))
          · exact hpending' d hd
        obtain ⟨n, hn⟩ := ih _ hlt (visited.insert c) hmore rfl
        refine ⟨n + 1, ?_⟩
        rw [advance_of_notMem hmem]
        exact hn

variable {transitions : List Transition} {initial : Word} {finals : List Word} {t : Transducer}

/-- A run ends when outputs are bounded. -/
theorem exists_advance_of_bounded (hbuild : build transitions initial finals = .ok t)
    (cap : Option Nat) (input : Word) {bound : Nat}
    (hbound : ∀ c, Relation.ReflTransGen (Transition.Step transitions cap) ⟨initial, input, []⟩ c →
      c.output.length ≤ bound) :
    ∃ n, ((Run.start (t.withCap cap) input).advance (t.withCap cap) n).2.pending = [] := by
  refine Run.exists_advance_of_finite (Transition.finite_reachable hbound) (fun c hc d hd => ?_) ∅
    fun c hc => ?_
  · exact hc.tail ((moves_iff_of_build hbuild cap).1 hd)
  · rw [List.mem_singleton.1 hc]
    exact (reaches_iff_of_build hbuild cap input).1 .refl

/-- **A run ends when it should, and a cap bounds what it writes.** When there is a cap, or when no
cycle of transitions that read nothing writes anything, the run of an input has no further output
after some number of visits. With a cap, nothing that ever becomes pending, and nothing that is
given, has an output longer than the cap and the longest output of a transition as often as the
input has characters and once more. -/
theorem run_ends_with_bounded_outputs (hbuild : build transitions initial finals = .ok t)
    (cap : Option Nat) (input : Word) :
    let machine := t.withCap cap
    let run := Run.start machine input
    (cap.isSome = true ∨ Transition.CyclesSilent transitions → ∃ n,
      run.Enumerates machine (run.advance machine n).1 ∧
        (run.advance machine n).2.next machine 1 = .exhausted) ∧
    ∀ limit ∈ cap, ∀ n, ∀ c ∈ (run.advance machine n).2.pending ++ (run.advance machine n).1,
      c.output.length ≤ limit + Transition.longestOutput transitions * (input.length + 1) := by
  intro machine run
  constructor
  · intro h
    obtain ⟨bound, hbound⟩ : ∃ bound, ∀ c,
        Relation.ReflTransGen (Transition.Step transitions cap) ⟨initial, input, []⟩ c →
          c.output.length ≤ bound := by
      rcases h with hcap | hsilent
      · obtain ⟨limit, rfl⟩ := Option.isSome_iff_exists.1 hcap
        exact ⟨_, fun c => Transition.length_output_le_of_cap⟩
      · exact ⟨_, fun c => Transition.length_output_le_of_cyclesSilent hsilent⟩
    obtain ⟨n, hn⟩ := exists_advance_of_bounded hbuild cap input hbound
    refine ⟨n, Run.enumerates_of_advance hn, ?_⟩
    rw [Run.next, Run.step_eq_exhausted_iff.2 hn]
  · intro limit hlimit n c hc
    have hsound := (Run.sound_start machine input).advance n
    have hreaches : machine.Reaches input c := by
      rcases List.mem_append.1 hc with hc | hc
      · exact hsound.reaches c (.inl hc)
      · exact hsound.reaches c (.inr ((hsound.mem_given_iff c).1 hc).1)
    have hcomputation := (reaches_iff_of_build hbuild cap input).1 hreaches
    rw [Option.mem_def.1 hlimit] at hcomputation
    exact Transition.length_output_le_of_cap hcomputation

/-- A cycle that writes nothing, and a way out of it that does and leads back by reading. -/
def silentLoop : List Transition :=
  [⟨['s'], [], ['r'], []⟩, ⟨['r'], [], ['s'], []⟩, ⟨['r'], [], ['f'], ['y']⟩,
    ⟨['f'], ['a'], ['s'], ['x']⟩]

/-- The run ends without a cap, and with a cap of one no output has more than three characters. -/
theorem silentLoop_run_ends : ∃ t,
    build silentLoop ['s'] [['f']] = .ok t ∧ Transition.CyclesSilent silentLoop ∧
    (∃ n, (Run.start (t.withCap none) ['a']).Enumerates (t.withCap none)
        ((Run.start (t.withCap none) ['a']).advance (t.withCap none) n).1 ∧
      ((Run.start (t.withCap none) ['a']).advance (t.withCap none) n).2.next (t.withCap none) 1 =
        .exhausted) ∧
    ∀ n, ∀ c ∈ ((Run.start (t.withCap (some 1)) ['a']).advance (t.withCap (some 1)) n).2.pending ++
        ((Run.start (t.withCap (some 1)) ['a']).advance (t.withCap (some 1)) n).1,
      c.output.length ≤ 3 := by
  obtain ⟨t, hbuild⟩ : ∃ t, build silentLoop ['s'] [['f']] = .ok t := ⟨_, rfl⟩
  have hsilent : Transition.CyclesSilent silentLoop := by
    intro tr htr hread hback
    simp only [silentLoop, List.mem_cons, List.not_mem_nil, or_false] at htr
    rcases htr with rfl | rfl | rfl | rfl
    · rfl
    · rfl
    · -- Nothing leads on from the last state without reading.
      rcases hback.cases_head with heq | ⟨q, ⟨tr, htr, hempty, hsource, -⟩, -⟩
      · cases heq
      · simp only [silentLoop, List.mem_cons, List.not_mem_nil, or_false] at htr
        rcases htr with rfl | rfl | rfl | rfl
        · cases hsource
        · cases hsource
        · cases hsource
        · cases hempty
    · cases hread
  refine ⟨t, hbuild, hsilent, ?_, ?_⟩
  · exact (run_ends_with_bounded_outputs hbuild none ['a']).1 (.inr hsilent)
  · exact (run_ends_with_bounded_outputs hbuild (some 1) ['a']).2 1 rfl

end Transducer

end StringMachines
