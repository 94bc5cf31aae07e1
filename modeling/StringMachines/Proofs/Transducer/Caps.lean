import StringMachines.Proofs.Transducer.Grouping
import StringMachines.Proofs.Transducer.Termination

/-!
# Raising the cap

A cap is read in one place only: a transition that reads nothing is taken while the output is
shorter than the cap. Under a higher cap a run visits other configurations and in another order, so
that it cannot be followed visit by visit. What it can reach grows with the cap, though
(`Transition.Step.mono`), and what a run gives when it is asked to the end is said by what it can
reach (`Transducer.Run.Enumerates.mem_iff`). Without transitions that read nothing, the cap is never
looked at, and runs are the same visit by visit (`Transducer.enumerates_withCap_iff`).
-/

namespace StringMachines

/-- Whether the one cap allows no more than the other. Without a cap, everything is allowed. -/
def CapLE (cap cap' : Option Nat) : Prop :=
  ∀ n' ∈ cap', ∃ n ∈ cap, n ≤ n'

/-- A lower number is a lower cap. -/
theorem capLE_some {n n' : Nat} (h : n ≤ n') : CapLE (some n) (some n') := by
  rintro m ⟨⟩
  exact ⟨n, rfl, h⟩

/-- No cap is lower than none. -/
theorem capLE_none (cap : Option Nat) : CapLE cap none :=
  fun _ h => nomatch h

namespace Transition

variable {transitions : List Transition} {cap cap' : Option Nat}

/-- What can be taken under a cap can be taken under a higher one. -/
theorem Step.mono (hcap : CapLE cap cap') {c d : Configuration}
    (h : Step transitions cap c d) : Step transitions cap' c d := by
  cases h with
  | take htr hread =>
    refine .take htr fun hempty n' hn' => ?_
    obtain ⟨n, hn, hle⟩ := hcap n' hn'
    exact Nat.lt_of_lt_of_le (hread hempty n hn) hle

/-- A transition that reads something can be taken under every cap or under none. -/
theorem applies_congr {tr : Transition} (h : tr.input ≠ []) (remaining output : Word) :
    applies cap remaining output tr = applies cap' remaining output tr := by
  have hread : tr.input.isEmpty = false := List.isEmpty_eq_false_iff.2 h
  simp only [applies, hread, Bool.not_false, Bool.true_or]

end Transition

namespace Transducer

variable {transitions : List Transition} {initial : Word} {finals : List Word} {t : Transducer}
  {cap cap' : Option Nat} {input : Word} {outputs outputs' : List Configuration}

/-! ## What can be reached -/

/-- What can be reached under a cap can be reached under a higher one. -/
theorem Reaches.mono (hbuild : build transitions initial finals = .ok t) (hcap : CapLE cap cap')
    {c : Configuration} (h : (t.withCap cap).Reaches input c) :
    (t.withCap cap').Reaches input c := by
  rw [reaches_iff_of_build hbuild] at h ⊢
  exact Relation.ReflTransGen.mono (fun _ _ => Transition.Step.mono hcap) _ _ h

/-- What is given under a cap is given under a higher one, at least as often. -/
theorem subperm_of_enumerates (hbuild : build transitions initial finals = .ok t)
    (hcap : CapLE cap cap')
    (h : (Run.start (t.withCap cap) input).Enumerates (t.withCap cap) outputs)
    (h' : (Run.start (t.withCap cap') input).Enumerates (t.withCap cap') outputs') :
    outputs.Subperm outputs' := by
  refine List.subperm_of_subset h.nodup fun c hc => ?_
  obtain ⟨hreaches, haccepting⟩ := h.mem_iff.1 hc
  exact h'.mem_iff.2 ⟨hreaches.mono hbuild hcap, haccepting⟩

/-! ## Runs that never look at the cap -/

/-- When every transition reads something, a run goes on to the same configurations under every
cap. -/
theorem successors_withCap_eq (hbuild : build transitions initial finals = .ok t)
    (hreads : ∀ tr ∈ transitions, tr.input ≠ []) (cap cap' : Option Nat) (c : Configuration) :
    (t.withCap cap).successors c = (t.withCap cap').successors c := by
  rw [successors_of_build hbuild, successors_of_build hbuild]
  refine congrArg (List.map _) (List.filter_congr fun tr htr => ?_)
  exact Transition.applies_congr (hreads tr (Transition.mem_of_mem_outgoing htr)) _ _

/-- When every transition reads something, a visit does the same under every cap. -/
theorem step_withCap_eq (hbuild : build transitions initial finals = .ok t)
    (hreads : ∀ tr ∈ transitions, tr.input ≠ []) (cap cap' : Option Nat) (run : Run) :
    run.step (t.withCap cap) = run.step (t.withCap cap') := by
  unfold Run.step
  simp only [successors_withCap_eq hbuild hreads cap cap']
  rfl

/-- When every transition reads something, visits do the same under every cap, however many. -/
theorem advance_withCap_eq (hbuild : build transitions initial finals = .ok t)
    (hreads : ∀ tr ∈ transitions, tr.input ≠ []) (cap cap' : Option Nat) (n : Nat) (run : Run) :
    run.advance (t.withCap cap) n = run.advance (t.withCap cap') n := by
  induction n generalizing run with
  | zero => rfl
  | succ n ih =>
    rw [Run.advance, Run.advance, step_withCap_eq hbuild hreads cap cap']
    cases run.step (t.withCap cap') with
    | exhausted => rfl
    | suspended later => exact ih later
    | output c later => simp only [ih]

/-- When every transition reads something, a run that is asked to the end gives the same under every
cap. -/
theorem enumerates_withCap_iff (hbuild : build transitions initial finals = .ok t)
    (hreads : ∀ tr ∈ transitions, tr.input ≠ []) (cap cap' : Option Nat) :
    (Run.start (t.withCap cap) input).Enumerates (t.withCap cap) outputs ↔
      (Run.start (t.withCap cap') input).Enumerates (t.withCap cap') outputs := by
  have hstart : Run.start (t.withCap cap) input = Run.start (t.withCap cap') input := rfl
  rw [Run.enumerates_iff, Run.enumerates_iff, hstart]
  simp only [advance_withCap_eq hbuild hreads cap cap']

/-! ## The outputs of an input -/

/-- With a cap, a run can be asked to the end. -/
theorem exists_enumerates_of_cap (hbuild : build transitions initial finals = .ok t) (n : Nat)
    (input : Word) : ∃ outputs,
      (Run.start (t.withCap (some n)) input).Enumerates (t.withCap (some n)) outputs := by
  obtain ⟨visits, hvisits⟩ := exists_advance_of_bounded hbuild (some n) input fun _ =>
    Transition.length_output_le_of_cap
  exact ⟨_, Run.enumerates_of_advance hvisits⟩

/-- **Raising the cap only adds outputs.** With a cap the run of an input can be asked to the end,
and every output it gives is given at least as often under each higher cap, and without a cap, when
that run can be asked to the end as well. When every transition reads something, there is one list
of outputs that the run gives whatever the cap, and without a cap. -/
theorem raising_cap_adds_outputs (hbuild : build transitions initial finals = .ok t)
    (input : Word) :
    let Gives (cap : Option Nat) (outputs : List Configuration) : Prop :=
      (Run.start (t.withCap cap) input).Enumerates (t.withCap cap) outputs
    (∀ n, ∃ outputs, Gives (some n) outputs) ∧
    (∀ n n' outputs outputs', n ≤ n' → Gives (some n) outputs → Gives (some n') outputs' →
      (outputs.map (·.output)).Subperm (outputs'.map (·.output))) ∧
    (∀ n outputs outputs', Gives (some n) outputs → Gives none outputs' →
      (outputs.map (·.output)).Subperm (outputs'.map (·.output))) ∧
    ((∀ tr ∈ transitions, tr.input ≠ []) → ∃ outputs, ∀ cap, Gives cap outputs) := by
  intro Gives
  have hsubperm {cap cap' : Option Nat} {outputs outputs' : List Configuration}
      (hcap : CapLE cap cap') (h : Gives cap outputs) (h' : Gives cap' outputs') :
      (outputs.map (·.output)).Subperm (outputs'.map (·.output)) := by
    obtain ⟨kept, hperm, hsublist⟩ := subperm_of_enumerates hbuild hcap h h'
    exact ⟨_, hperm.map _, hsublist.map _⟩
  refine ⟨fun n => exists_enumerates_of_cap hbuild n input, ?_, ?_, fun hreads => ?_⟩
  · intro n n' outputs outputs' hle h h'
    exact hsubperm (capLE_some hle) h h'
  · intro n outputs outputs' h h'
    exact hsubperm (capLE_none _) h h'
  · obtain ⟨outputs, houtputs⟩ := exists_enumerates_of_cap hbuild 0 input
    exact ⟨outputs, fun cap => (enumerates_withCap_iff hbuild hreads _ cap).1 houtputs⟩

/-- A way around that reads nothing first is closed by a cap of zero. What is given without it is
given with it, and without a cap. Where there is nothing but the straight way, no cap matters. -/
theorem raising_cap_keeps_z :
    (∃ t outputs outputs' outputs'',
      build [⟨['s'], [], ['r'], ['x']⟩, ⟨['r'], ['a'], ['f'], ['y']⟩, ⟨['s'], ['a'], ['f'], ['z']⟩]
        ['s'] [['f']] = .ok t ∧
      (Run.start (t.withCap (some 0)) ['a']).Enumerates (t.withCap (some 0)) outputs ∧
      (Run.start (t.withCap (some 1)) ['a']).Enumerates (t.withCap (some 1)) outputs' ∧
      (Run.start (t.withCap none) ['a']).Enumerates (t.withCap none) outputs'' ∧
      ['z'] ∈ outputs.map (·.output) ∧ ['z'] ∈ outputs'.map (·.output) ∧
      ['z'] ∈ outputs''.map (·.output)) ∧
    ∃ t outputs, build [⟨['s'], ['a'], ['f'], ['z']⟩] ['s'] [['f']] = .ok t ∧
      ∀ cap, (Run.start (t.withCap cap) ['a']).Enumerates (t.withCap cap) outputs := by
  constructor
  · obtain ⟨t, hbuild, hreads, haccepting⟩ : ∃ t,
        build [⟨['s'], [], ['r'], ['x']⟩, ⟨['r'], ['a'], ['f'], ['y']⟩,
          ⟨['s'], ['a'], ['f'], ['z']⟩] ['s'] [['f']] = .ok t ∧
        ⟨['f'], [], ['z']⟩ ∈ (t.withCap (some 0)).successors ⟨t.initial, ['a'], []⟩ ∧
        (t.withCap (some 0)).isAccepting ⟨['f'], [], ['z']⟩ = true :=
      ⟨_, rfl, by decide, by decide⟩
    obtain ⟨hends, hraise, hlift, -⟩ := raising_cap_adds_outputs hbuild ['a']
    obtain ⟨outputs, houtputs⟩ := hends 0
    obtain ⟨outputs', houtputs'⟩ := hends 1
    have hsilent : Transition.CyclesSilent [⟨['s'], [], ['r'], ['x']⟩,
        ⟨['r'], ['a'], ['f'], ['y']⟩, ⟨['s'], ['a'], ['f'], ['z']⟩] := by
      intro tr htr hread hback
      simp only [List.mem_cons, List.not_mem_nil, or_false] at htr
      rcases htr with rfl | rfl | rfl
      · -- Nothing leads on from the state in between without reading.
        rcases hback.cases_head with heq | ⟨q, ⟨tr, htr, hempty, hsource, -⟩, -⟩
        · cases heq
        · simp only [List.mem_cons, List.not_mem_nil, or_false] at htr
          rcases htr with rfl | rfl | rfl
          · cases hsource
          · cases hempty
          · cases hsource
      · cases hread
      · cases hread
    obtain ⟨visits, hvisits⟩ := exists_advance_of_bounded hbuild none ['a'] fun _ =>
      Transition.length_output_le_of_cyclesSilent hsilent
    have houtputs'' := Run.enumerates_of_advance hvisits
    have hreaches : (t.withCap (some 0)).Reaches ['a'] ⟨['f'], [], ['z']⟩ :=
      Relation.ReflTransGen.single (mem_successors_iff.1 hreads)
    have hgiven : ['z'] ∈ outputs.map (·.output) :=
      List.mem_map.2 ⟨_, houtputs.mem_iff.2 ⟨hreaches, haccepting⟩, rfl⟩
    have hgiven' := (hraise 0 1 _ _ (Nat.zero_le 1) houtputs houtputs').subset hgiven
    have hgiven'' := (hlift 0 _ _ houtputs houtputs'').subset hgiven
    exact ⟨t, outputs, outputs', _, hbuild, houtputs, houtputs', houtputs'', hgiven, hgiven',
      hgiven''⟩
  · obtain ⟨t, hbuild⟩ : ∃ t, build [⟨['s'], ['a'], ['f'], ['z']⟩] ['s'] [['f']] = .ok t :=
      ⟨_, rfl⟩
    obtain ⟨-, -, -, hreads⟩ := raising_cap_adds_outputs hbuild ['a']
    obtain ⟨outputs, houtputs⟩ := hreads (by simp)
    exact ⟨t, outputs, hbuild, houtputs⟩

end Transducer

end StringMachines
