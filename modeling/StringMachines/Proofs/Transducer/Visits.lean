import StringMachines.Proofs.Transducer.Enumeration

/-!
# The visits of a run, one after another

A run is asked for one output after another, and each time visits as many configurations as it
takes. Here the visits are counted instead: `Transducer.Run.advance` makes a number of visits and
collects what is given on the way. Asking a run until it has no further output
(`Transducer.Run.Enumerates`) comes to the same as making visits until nothing is pending
(`Transducer.Run.enumerates_iff`), and a number of visits that is enough is also a budget that is
enough (`Transducer.Run.outputs_eq_advance`).
-/

namespace StringMachines.Transducer.Run

variable {t : Transducer} {input : Word} {run later : Run} {c : Configuration}
  {visited : Std.HashSet Configuration}

/-- What the run gives in the next `n` visits, and the run after them. When nothing is pending any
more there are no further visits. -/
def advance (t : Transducer) : Nat → Run → List Configuration × Run
  | 0, run => ([], run)
  | n + 1, run =>
    match run.step t with
    | .exhausted => ([], run)
    | .suspended later => later.advance t n
    | .output c later => (c :: (later.advance t n).1, (later.advance t n).2)

/-! ## Single visits -/

/-- A run is exhausted when nothing is pending. -/
theorem step_eq_exhausted_iff : run.step t = .exhausted ↔ run.pending = [] := by
  obtain ⟨pending, visited⟩ := run
  cases pending with
  | nil => simp [step]
  | cons c pending =>
    by_cases hc : c ∈ visited
    · simp [step_of_mem hc]
    · rw [step_of_notMem hc]
      split
      · simp
      · simp

/-- A run stays as it is when nothing is pending. -/
theorem advance_of_pending_eq_nil (h : run.pending = []) (n : Nat) :
    run.advance t n = ([], run) := by
  cases n with
  | zero => rfl
  | succ n => rw [advance, step_eq_exhausted_iff.2 h]

/-- A visit without output. -/
theorem advance_of_suspended (h : run.step t = .suspended later) (n : Nat) :
    run.advance t (n + 1) = later.advance t n := by
  rw [advance, h]

/-- A visit with an output. -/
theorem advance_of_output (h : run.step t = .output c later) (n : Nat) :
    run.advance t (n + 1) = (c :: (later.advance t n).1, (later.advance t n).2) := by
  rw [advance, h]

/-- A visit to a configuration that was visited before takes it off what is pending. -/
theorem advance_of_mem (h : c ∈ visited) (pending : List Configuration) (n : Nat) :
    advance t (n + 1) ⟨c :: pending, visited⟩ = advance t n ⟨pending, visited.insert c⟩ :=
  advance_of_suspended (step_of_mem h) n

/-- A visit to a new configuration gives it if it is accepting, and puts what it leads to in front
of what is pending. -/
theorem advance_of_notMem (h : c ∉ visited) (pending : List Configuration) (n : Nat) :
    advance t (n + 1) ⟨c :: pending, visited⟩ =
      ((if t.isAccepting c then [c] else []) ++
          (advance t n ⟨(t.successors c).reverse ++ pending, visited.insert c⟩).1,
        (advance t n ⟨(t.successors c).reverse ++ pending, visited.insert c⟩).2) := by
  have hstep : step t ⟨c :: pending, visited⟩ = _ := step_of_notMem h
  by_cases haccepting : t.isAccepting c = true
  · rw [if_pos haccepting] at hstep ⊢
    exact advance_of_output hstep n
  · rw [if_neg haccepting] at hstep ⊢
    exact advance_of_suspended hstep n

/-- Visits can be made in two goes. -/
theorem advance_add (m n : Nat) (run : Run) :
    run.advance t (m + n) =
      ((run.advance t m).1 ++ ((run.advance t m).2.advance t n).1,
        ((run.advance t m).2.advance t n).2) := by
  induction m generalizing run with
  | zero =>
    rw [Nat.zero_add]
    rfl
  | succ m ih =>
    rw [Nat.succ_add_eq_add_succ, Nat.add_succ]
    cases hstep : run.step t with
    | exhausted =>
      have hpending := step_eq_exhausted_iff.1 hstep
      simp only [advance_of_pending_eq_nil hpending, List.append_nil]
    | suspended later => rw [advance_of_suspended hstep, advance_of_suspended hstep, ih]
    | output c later => rw [advance_of_output hstep, advance_of_output hstep, ih, List.cons_append]

/-- Visits keep the invariant, however many. -/
theorem Sound.advance {given : List Configuration} (h : run.Sound t input given) (n : Nat) :
    (run.advance t n).2.Sound t input (given ++ (run.advance t n).1) := by
  induction n generalizing run given with
  | zero =>
    rw [Run.advance, List.append_nil]
    exact h
  | succ n ih =>
    have hvisit := h.step
    cases hstep : run.step t with
    | exhausted =>
      rw [advance_of_pending_eq_nil (step_eq_exhausted_iff.1 hstep), List.append_nil]
      exact h
    | suspended later =>
      rw [hstep] at hvisit
      rw [advance_of_suspended hstep]
      exact ih hvisit
    | output c later =>
      rw [hstep] at hvisit
      have hlater := ih hvisit
      rw [List.append_assoc] at hlater
      rw [advance_of_output hstep]
      exact hlater

/-! ## Runs that are asked to the end -/

/-- Asked again and again, the run gives these configurations, and then has no further output. -/
def Enumerates (t : Transducer) (run : Run) (outputs : List Configuration) : Prop :=
  ∃ last, run.Gives t outputs last ∧ ∃ budget, last.next t budget = .exhausted

/-- A visit without output changes nothing for a run that is asked to the end. -/
theorem Enumerates.of_suspended {outputs : List Configuration}
    (h : run.step t = .suspended later) (hlater : later.Enumerates t outputs) :
    run.Enumerates t outputs := by
  -- The visit is added to the budget of the call in which it is made.
  have hnext (budget : Nat) : run.next t (budget + 1) = later.next t budget := by
    rw [next, h]
  obtain ⟨last, hgives, budget, hend⟩ := hlater
  cases hgives with
  | nil => exact ⟨run, .nil run, budget + 1, (hnext budget).trans hend⟩
  | cons hfirst hrest => exact ⟨last, .cons ((hnext _).trans hfirst) hrest, budget, hend⟩

/-- Visits until nothing is pending give what a run gives that is asked to the end. -/
theorem enumerates_of_advance {n : Nat} (h : (run.advance t n).2.pending = []) :
    run.Enumerates t (run.advance t n).1 := by
  have hexhausted {run : Run} (hpending : run.pending = []) : run.Enumerates t [] := by
    refine ⟨run, .nil run, 1, ?_⟩
    rw [next, step_eq_exhausted_iff.2 hpending]
  induction n generalizing run with
  | zero => exact hexhausted h
  | succ n ih =>
    cases hstep : run.step t with
    | exhausted =>
      have hpending := step_eq_exhausted_iff.1 hstep
      rw [advance_of_pending_eq_nil hpending]
      exact hexhausted hpending
    | suspended later =>
      rw [advance_of_suspended hstep] at h ⊢
      exact .of_suspended hstep (ih h)
    | output c later =>
      rw [advance_of_output hstep] at h ⊢
      obtain ⟨last, hgives, hend⟩ := ih h
      have hnext : run.next t 1 = .output c later := by
        rw [next, hstep]
      exact ⟨last, .cons hnext hgives, hend⟩

/-- A call that gives an output makes some visits. -/
theorem exists_advance_of_next_output {budget : Nat} (h : run.next t budget = .output c later) :
    ∃ n, run.advance t n = ([c], later) := by
  induction budget generalizing run with
  | zero => cases h
  | succ budget ih =>
    rw [next] at h
    cases hstep : run.step t with
    | exhausted =>
      rw [hstep] at h
      cases h
    | suspended middle =>
      rw [hstep] at h
      obtain ⟨n, hn⟩ := ih h
      exact ⟨n + 1, (advance_of_suspended hstep n).trans hn⟩
    | output d middle =>
      rw [hstep] at h
      cases h
      exact ⟨1, advance_of_output hstep 0⟩

/-- A call that finds no further output makes visits until nothing is pending. -/
theorem exists_advance_of_next_exhausted {budget : Nat} (h : run.next t budget = .exhausted) :
    ∃ n, (run.advance t n).1 = [] ∧ (run.advance t n).2.pending = [] := by
  induction budget generalizing run with
  | zero => cases h
  | succ budget ih =>
    rw [next] at h
    cases hstep : run.step t with
    | exhausted => exact ⟨0, rfl, step_eq_exhausted_iff.1 hstep⟩
    | suspended middle =>
      rw [hstep] at h
      obtain ⟨n, hn⟩ := ih h
      refine ⟨n + 1, ?_⟩
      rw [advance_of_suspended hstep]
      exact hn
    | output d middle =>
      rw [hstep] at h
      cases h

/-- Asking a run to the end and making visits until nothing is pending come to the same. -/
theorem enumerates_iff {outputs : List Configuration} :
    run.Enumerates t outputs ↔
      ∃ n, (run.advance t n).1 = outputs ∧ (run.advance t n).2.pending = [] := by
  constructor
  · rintro ⟨last, hgives, budget, hend⟩
    induction hgives with
    | nil run => exact exists_advance_of_next_exhausted hend
    | @cons run later _ _ c outputs hnext _ ih =>
      obtain ⟨m, hm⟩ := exists_advance_of_next_output hnext
      obtain ⟨n, hn, hpending⟩ := ih hend
      refine ⟨m + n, ?_⟩
      rw [advance_add, hm]
      exact ⟨congrArg (c :: ·) hn, hpending⟩
  · rintro ⟨n, rfl, hpending⟩
    exact enumerates_of_advance hpending

/-- Whatever the budgets of the calls, a run that is asked to the end gives the same. -/
theorem Enumerates.unique {outputs outputs' : List Configuration} (h : run.Enumerates t outputs)
    (h' : run.Enumerates t outputs') : outputs = outputs' := by
  obtain ⟨m, rfl, hm⟩ := enumerates_iff.1 h
  obtain ⟨n, rfl, hn⟩ := enumerates_iff.1 h'
  have hmn := advance_add (t := t) m n run
  have hnm := advance_add (t := t) n m run
  rw [advance_of_pending_eq_nil hm, List.append_nil] at hmn
  rw [advance_of_pending_eq_nil hn, List.append_nil, Nat.add_comm, hmn] at hnm
  exact congrArg Prod.fst hnm

/-- Asked to the end, a run has given the accepting configurations that can be reached. -/
theorem Enumerates.mem_iff {outputs : List Configuration}
    (h : (start t input).Enumerates t outputs) :
    c ∈ outputs ↔ t.Reaches input c ∧ t.isAccepting c = true := by
  obtain ⟨n, rfl, hpending⟩ := enumerates_iff.1 h
  have hsound := (sound_start t input).advance n
  rw [List.nil_append] at hsound
  rw [hsound.mem_given_iff]
  constructor
  · rintro ⟨hvisited, haccepting⟩
    exact ⟨hsound.reaches c (.inr hvisited), haccepting⟩
  · rintro ⟨hreaches, haccepting⟩
    exact ⟨hsound.mem_visited hpending hreaches, haccepting⟩

/-- Asked to the end, a run has given nothing twice. -/
theorem Enumerates.nodup {outputs : List Configuration}
    (h : (start t input).Enumerates t outputs) : outputs.Nodup := by
  obtain ⟨n, rfl, -⟩ := enumerates_iff.1 h
  exact ((sound_start t input).advance n).nodup

/-! ## Budgets -/

/-- A call whose budget is enough to leave nothing pending gives the first output, if there is one,
and the others are left to later calls. -/
theorem next_of_advance {n budget : Nat} (hpending : (run.advance t n).2.pending = [])
    (hbudget : n ≤ budget) :
    (∃ c later m, run.next t budget = .output c later ∧ m < n ∧
        (run.advance t n).1 = c :: (later.advance t m).1 ∧ (later.advance t m).2.pending = []) ∨
      (run.advance t n).1 = [] ∧ ∀ c later, run.next t budget ≠ .output c later := by
  induction n generalizing run budget with
  | zero =>
    refine .inr ⟨rfl, fun c later hnext => ?_⟩
    obtain ⟨m, hm⟩ := exists_advance_of_next_output hnext
    have hstay : run.advance t m = ([], run) := advance_of_pending_eq_nil hpending m
    cases hstay.symm.trans hm
  | succ n ih =>
    obtain ⟨left, rfl⟩ : ∃ left, budget = left + 1 := ⟨budget - 1, by omega⟩
    rw [next]
    cases hstep : run.step t with
    | exhausted =>
      rw [advance_of_pending_eq_nil (step_eq_exhausted_iff.1 hstep)]
      exact .inr ⟨rfl, fun _ _ hnext => by cases hnext⟩
    | suspended later =>
      rw [advance_of_suspended hstep] at hpending ⊢
      rcases ih hpending (Nat.le_of_succ_le_succ hbudget) with ⟨c, last, m, hnext, hm, hrest⟩ | hend
      · exact .inl ⟨c, last, m, hnext, Nat.lt_succ_of_lt hm, hrest⟩
      · exact .inr hend
    | output c later =>
      rw [advance_of_output hstep] at hpending ⊢
      exact .inl ⟨c, later, n, rfl, Nat.lt_succ_self n, rfl, hpending⟩

/-- With a budget that is enough to leave nothing pending, and as many calls, a run gives everything
that it gives at all. -/
theorem outputs_eq_advance {n budget limit : Nat} (hpending : (run.advance t n).2.pending = [])
    (hbudget : n ≤ budget) (hlimit : n ≤ limit) :
    run.outputs t budget limit = (run.advance t n).1 := by
  induction limit generalizing run n with
  | zero =>
    rw [Nat.le_zero.1 hlimit]
    rfl
  | succ limit ih =>
    rw [outputs]
    rcases next_of_advance hpending hbudget with
      ⟨c, later, m, hnext, hm, hfirst, hrest⟩ | ⟨hnone, hnext⟩
    · rw [hnext, hfirst]
      exact congrArg (c :: ·) (ih hrest (by omega) (by omega))
    · rw [hnone]
      split
      · next c later houtput => exact absurd houtput (hnext c later)
      · rfl

end StringMachines.Transducer.Run
