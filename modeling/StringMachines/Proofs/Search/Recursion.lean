import StringMachines.Proofs.Search

/-!
# The stack of a search, read as a recursion

What a search does with its innermost open state does not depend on the states that are open below
it, nor on what was tried before: it finds an accepting state, or it comes back to the stack as it
was, with more states known to fail. `Findings` is what such a part of a search has found out, and
`Findings.resume` is how the search goes on after it.

Three parts fit into each other as the calls of a recursion do: some moves of a state tried one
after another (`Search.Tries`), a state that is arrived at with all that follows from it
(`Search.Arrives`), and the whole search (`Search.Arrives.explore_eq`). A recursive search can
therefore be compared with a search on a stack call by call, without a word about stacks.
-/

namespace StringMachines

variable {σ ε : Type} [BEq σ] [Hashable σ]

/-- What a part of a search has found out: whether there is an accepting state, which states are
known to fail afterwards, and the moves that were tried, first to last. -/
structure Findings (σ ε : Type) [BEq σ] [Hashable σ] where
  accepted : Bool
  rejected : Std.HashSet σ
  steps : List (σ × ε)

namespace Findings

/-- The findings of a part of a search together with the moves tried before it. -/
def after (found : Findings σ ε) (steps : List (σ × ε)) : Findings σ ε :=
  { found with steps := steps ++ found.steps }

/-- The findings of two parts of a search, where the second one begins with what is known to fail
after the first, and is left out if that one has accepted. -/
def orElse (found : Findings σ ε) (rest : Std.HashSet σ → Findings σ ε) : Findings σ ε :=
  if found.accepted then found else (rest found.rejected).after found.steps

/-- The findings together with the state that they are about, which is known to fail afterwards
unless they have accepted. -/
def closing (found : Findings σ ε) (s : σ) : Findings σ ε :=
  if found.accepted then found else { found with rejected := found.rejected.insert s }

/-- How a search goes on after a part of it: it ends if that part has accepted, and otherwise turns
to what is open below. -/
def resume (space : SearchSpace σ ε) (found : Findings σ ε) (stack : List (Frame σ ε))
    (steps : List (σ × ε)) : Outcome σ ε :=
  if found.accepted then ⟨true, steps.reverse ++ found.steps⟩
  else Search.run space ⟨stack, found.rejected, found.steps.reverse ++ steps⟩

variable {space : SearchSpace σ ε} {found : Findings σ ε} {stack : List (Frame σ ε)}
  {steps : List (σ × ε)}

/-- The moves tried before a part of a search can be counted to that part. -/
theorem resume_after (more : List (σ × ε)) :
    (found.after more).resume space stack steps =
      found.resume space stack (more.reverse ++ steps) := by
  simp [resume, after]

/-- A part of a search that has accepted is its end. -/
theorem resume_of_accepted (h : found.accepted = true) :
    found.resume space stack steps = ⟨true, steps.reverse ++ found.steps⟩ :=
  if_pos h

/-- A part of a search that has not accepted is followed by the rest. -/
theorem resume_of_not_accepted (h : found.accepted = false) :
    found.resume space stack steps =
      Search.run space ⟨stack, found.rejected, found.steps.reverse ++ steps⟩ :=
  if_neg (Bool.eq_false_iff.1 h)

end Findings

namespace Search

variable {space : SearchSpace σ ε} {rejected : Std.HashSet σ} {s : σ} {x : ε} {xs ys : List ε}
  {found : Findings σ ε}

/-- A search ends with the turn that answers. -/
theorem run_eq_of_done {search : Search σ ε} {outcome : Outcome σ ε}
    (h : search.next space = .done outcome) : search.run space = outcome := by
  rw [run]
  split
  · next hdone => exact Turn.done.inj (hdone.symm.trans h)
  · next hongoing => cases hongoing.symm.trans h

/-- A search goes on after a turn that does not answer. -/
theorem run_eq_of_ongoing {search later : Search σ ε}
    (h : search.next space = .ongoing later) : search.run space = later.run space := by
  rw [run]
  split
  · next hdone => cases hdone.symm.trans h
  · next hongoing => rw [Turn.ongoing.inj (hongoing.symm.trans h)]

/-! ## Parts of a search -/

/-- Trying the moves `xs` of the state `s`, whatever else is pending, finds out `found`. -/
def Tries (space : SearchSpace σ ε) (rejected : Std.HashSet σ) (s : σ) (xs : List ε)
    (found : Findings σ ε) : Prop :=
  ∀ pending stack steps, run space ⟨⟨s, xs ++ pending⟩ :: stack, rejected, steps⟩ =
    found.resume space (⟨s, pending⟩ :: stack) steps

/-- Arriving at the state `s` finds out `found`. -/
def Arrives (space : SearchSpace σ ε) (rejected : Std.HashSet σ) (s : σ)
    (found : Findings σ ε) : Prop :=
  match space.arrive rejected s with
  | .decided accepted => found = ⟨accepted, rejected, []⟩
  | .opened frame => ∀ stack steps,
      run space ⟨frame :: stack, rejected, steps⟩ = found.resume space stack steps

/-- No moves, no findings. -/
theorem tries_nil : Tries space rejected s [] ⟨false, rejected, []⟩ :=
  fun _ _ _ => rfl

/-- Moves are tried after others, unless these have led to an accepting state. -/
theorem Tries.orElse {rest : Std.HashSet σ → Findings σ ε} (h : Tries space rejected s xs found)
    (hrest : ∀ rejected, Tries space rejected s ys (rest rejected)) :
    Tries space rejected s (xs ++ ys) (found.orElse rest) := by
  intro pending stack steps
  rw [List.append_assoc, h, Findings.orElse]
  cases haccepted : found.accepted with
  | true =>
    rw [if_pos rfl, Findings.resume_of_accepted haccepted, Findings.resume_of_accepted haccepted]
  | false =>
    rw [if_neg Bool.false_ne_true, Findings.resume_of_not_accepted haccepted, hrest,
      Findings.resume_after]

/-- A move is tried by arriving at the state it leads to. -/
theorem Arrives.tries (h : Arrives space rejected (space.apply s x) found) :
    Tries space rejected s [x] (found.after [(s, x)]) := by
  intro pending stack steps
  have hnext := next_move space s x pending stack rejected steps
  rw [Findings.resume_after, List.singleton_append]
  rw [Arrives] at h
  cases harrive : space.arrive rejected (space.apply s x) with
  | decided accepted =>
    rw [harrive] at h hnext
    rw [h]
    cases accepted with
    | true =>
      rw [run_eq_of_done hnext, Findings.resume_of_accepted rfl]
      simp
    | false =>
      rw [run_eq_of_ongoing hnext, Findings.resume_of_not_accepted rfl]
      simp
  | opened frame =>
    rw [harrive] at h hnext
    rw [run_eq_of_ongoing hnext, h]
    rfl

/-- A state that is decided is answered without a move. -/
theorem arrives_of_decided {accepted : Bool} (h : space.verdict? s = some accepted) :
    Arrives space rejected s ⟨accepted, rejected, []⟩ := by
  simp [Arrives, SearchSpace.arrive, h]

/-- A state that is known to fail is answered without a move. -/
theorem arrives_of_mem (h : space.verdict? s = none) (hmem : s ∈ rejected) :
    Arrives space rejected s ⟨false, rejected, []⟩ := by
  simp [Arrives, SearchSpace.arrive, h, hmem]

/-- A state that is opened has the findings of its moves. -/
theorem Tries.arrives (h : Tries space rejected s (space.moves s) found)
    (hverdict : space.verdict? s = none) (hmem : s ∉ rejected) :
    Arrives space rejected s (found.closing s) := by
  have harrive : space.arrive rejected s = .opened ⟨s, space.moves s⟩ := by
    simp [SearchSpace.arrive, hverdict, hmem]
  rw [Arrives, harrive]
  intro stack steps
  have hrun := h [] stack steps
  rw [List.append_nil] at hrun
  rw [hrun, Findings.closing]
  cases haccepted : found.accepted with
  | true =>
    rw [if_pos rfl, Findings.resume_of_accepted haccepted, Findings.resume_of_accepted haccepted]
  | false =>
    -- Nothing is pending any more, so that the next turn closes the state.
    rw [if_neg Bool.false_ne_true, Findings.resume_of_not_accepted haccepted,
      Findings.resume_of_not_accepted rfl]
    exact run_eq_of_ongoing rfl

/-- The whole search from a state answers what arriving there finds out. -/
theorem Arrives.explore_eq (h : Arrives space ∅ s found) :
    space.explore s = ⟨found.accepted, found.steps⟩ := by
  rw [SearchSpace.explore]
  rw [Arrives] at h
  cases harrive : space.arrive ∅ s with
  | decided accepted =>
    rw [harrive] at h
    rw [h]
  | opened frame =>
    rw [harrive] at h
    show run space ⟨[frame], ∅, []⟩ = _
    rw [h]
    cases haccepted : found.accepted with
    | true => rw [Findings.resume_of_accepted haccepted, List.reverse_nil, List.nil_append]
    | false =>
      rw [Findings.resume_of_not_accepted haccepted, run_eq_of_done rfl, List.append_nil,
        List.reverse_reverse]

end Search

end StringMachines
