import StringMachines.Search

/-!
# What a search finds out

A state is solvable when moves through undecided states lead from it to an accepting state
(`SearchSpace.Solvable`). The search of a space accepts exactly from the solvable states
(`SearchSpace.explore_accepted_iff`): neither the memory of failures nor the order of the moves
loses a solution.

The invariant of the search (`Search.Sound`) has two parts. Every state that is remembered as a
failure is not solvable. And every open state that is solvable still has a solution ahead of it:
by a move not tried yet, or from the state that was opened above it. Every turn keeps it
(`Search.Sound.next`), and keeps whether any solution is ahead (`Search.Hopeful`).
-/

namespace StringMachines

variable {σ ε : Type}

namespace SearchSpace

/-- Moves through undecided states lead to an accepting state. -/
inductive Solvable (space : SearchSpace σ ε) : σ → Prop
  | decided {s : σ} : space.verdict? s = some true → Solvable space s
  | move {s : σ} {x : ε} : space.verdict? s = none → x ∈ space.moves s →
      Solvable space (space.apply s x) → Solvable space s

variable {space : SearchSpace σ ε} {s : σ}

/-- A decided state is solvable when it is accepted. -/
theorem solvable_iff_of_decided {accepted : Bool} (h : space.verdict? s = some accepted) :
    space.Solvable s ↔ accepted = true := by
  constructor
  · intro hs
    cases hs with
    | decided h' => exact (Option.some.inj (h.symm.trans h'))
    | move h' => rw [h] at h'; cases h'
  · rintro rfl
    exact .decided h

/-- An undecided state is solvable when one of its moves leads to a solvable state. -/
theorem solvable_iff_of_undecided (h : space.verdict? s = none) :
    space.Solvable s ↔ ∃ x ∈ space.moves s, space.Solvable (space.apply s x) := by
  constructor
  · intro hs
    cases hs with
    | decided h' => rw [h] at h'; cases h'
    | @move _ x _ hx hsolvable => exact ⟨x, hx, hsolvable⟩
  · rintro ⟨x, hx, hsolvable⟩
    exact .move h hx hsolvable

variable [BEq σ] [Hashable σ] {rejected : Std.HashSet σ}

/-- A state is answered at once when it is decided or known to fail. -/
theorem of_arrive_decided {accepted : Bool}
    (h : space.arrive rejected s = .decided accepted) :
    space.verdict? s = some accepted ∨ accepted = false ∧ s ∈ rejected := by
  unfold arrive at h
  split at h
  · next hverdict =>
    cases h
    exact .inl hverdict
  · split at h
    · next hmem =>
      cases h
      exact .inr ⟨rfl, hmem⟩
    · cases h

/-- A state is opened with all its moves when it is undecided and not known to fail. -/
theorem of_arrive_opened {frame : Frame σ ε} (h : space.arrive rejected s = .opened frame) :
    space.verdict? s = none ∧ s ∉ rejected ∧ frame = ⟨s, space.moves s⟩ := by
  unfold arrive at h
  split at h
  · cases h
  · next hverdict =>
    split at h
    · cases h
    · next hmem =>
      cases h
      exact ⟨hverdict, hmem, rfl⟩

end SearchSpace

/-! ## The invariant -/

/-- Every open state that is solvable has a solution ahead: by a pending move, or from the state
that was opened above it, when `child` says that this one is solvable. -/
def SearchSpace.Covers (space : SearchSpace σ ε) (child : Prop) : List (Frame σ ε) → Prop
  | [] => True
  | frame :: stack =>
    (space.Solvable frame.state →
      child ∨ ∃ x ∈ frame.pending, space.Solvable (space.apply frame.state x)) ∧
    space.Covers (space.Solvable frame.state) stack

/-- What is said of the state opened above may be weakened. -/
theorem SearchSpace.Covers.imp {space : SearchSpace σ ε} {child child' : Prop}
    {stack : List (Frame σ ε)} (h : space.Covers child stack) (himp : child → child') :
    space.Covers child' stack := by
  cases stack with
  | nil => trivial
  | cons frame stack => exact ⟨fun hs => (h.1 hs).imp_left himp, h.2⟩

namespace Search

variable [BEq σ] [Hashable σ] {space : SearchSpace σ ε}

/-- Some pending move leads to a solvable state. -/
def Hopeful (space : SearchSpace σ ε) (search : Search σ ε) : Prop :=
  ∃ frame ∈ search.stack, ∃ x ∈ frame.pending, space.Solvable (space.apply frame.state x)

/-- The invariant of a search. -/
structure Sound (space : SearchSpace σ ε) (search : Search σ ε) : Prop where
  /-- No state that is remembered as a failure is solvable. -/
  rejected : ∀ s ∈ search.rejected, ¬ space.Solvable s
  /-- No solution of an open state has been passed over. -/
  stack : space.Covers False search.stack

/-- Nothing is known to fail at first. -/
theorem sound_empty {stack : List (Frame σ ε)} (h : space.Covers False stack) :
    Sound space ⟨stack, ∅, []⟩ where
  rejected _ hs := absurd hs Std.HashSet.not_mem_empty
  stack := h

/-- A search keeps the invariant when its first state has been opened. -/
theorem sound_start {s : σ} (h : space.verdict? s = none) :
    Sound space ⟨[⟨s, space.moves s⟩], ∅, []⟩ :=
  sound_empty ⟨fun hs => .inr ((SearchSpace.solvable_iff_of_undecided h).1 hs), trivial⟩

/-- A state that is answered at once is answered rightly. -/
theorem Sound.solvable_iff_of_arrive {search : Search σ ε} (h : search.Sound space) {s : σ}
    {accepted : Bool} (harrive : space.arrive search.rejected s = .decided accepted) :
    space.Solvable s ↔ accepted = true := by
  rcases SearchSpace.of_arrive_decided harrive with hverdict | ⟨rfl, hmem⟩
  · exact SearchSpace.solvable_iff_of_decided hverdict
  · exact iff_of_false (h.rejected s hmem) (by simp)

/-- The turn in which the innermost open state has a move to try. -/
theorem next_move (space : SearchSpace σ ε) (s : σ) (x : ε) (pending : List ε)
    (stack : List (Frame σ ε)) (rejected : Std.HashSet σ) (steps : List (σ × ε)) :
    next space ⟨⟨s, x :: pending⟩ :: stack, rejected, steps⟩ =
      match space.arrive rejected (space.apply s x) with
      | .decided true => .done ⟨true, ((s, x) :: steps).reverse⟩
      | .decided false => .ongoing ⟨⟨s, pending⟩ :: stack, rejected, (s, x) :: steps⟩
      | .opened frame => .ongoing ⟨frame :: ⟨s, pending⟩ :: stack, rejected, (s, x) :: steps⟩ :=
  rfl

/-- Trying a move that leads to no solution leaves the search as hopeful as it was. -/
theorem hopeful_iff_of_not_solvable {s : σ} {x : ε} {pending : List ε} {stack : List (Frame σ ε)}
    {rejected : Std.HashSet σ} {steps steps' : List (σ × ε)}
    (h : ¬ space.Solvable (space.apply s x)) :
    Hopeful space ⟨⟨s, pending⟩ :: stack, rejected, steps⟩ ↔
      Hopeful space ⟨⟨s, x :: pending⟩ :: stack, rejected, steps'⟩ := by
  simp [Hopeful, h]

/-- Opening the state that a move leads to leaves the search as hopeful as it was. -/
theorem hopeful_iff_of_undecided {s : σ} {x : ε} {pending : List ε} {stack : List (Frame σ ε)}
    {rejected : Std.HashSet σ} {steps steps' : List (σ × ε)}
    (h : space.verdict? (space.apply s x) = none) :
    Hopeful space ⟨⟨space.apply s x, space.moves (space.apply s x)⟩ :: ⟨s, pending⟩ :: stack,
        rejected, steps⟩ ↔
      Hopeful space ⟨⟨s, x :: pending⟩ :: stack, rejected, steps'⟩ := by
  simp [Hopeful, SearchSpace.solvable_iff_of_undecided h, or_assoc]

end Search

section
variable [BEq σ] [Hashable σ]

/-- What a turn has to do: an answer says whether a solution was ahead, and a search that goes on
keeps the invariant and whether a solution is ahead. -/
def Turn.Faithful (space : SearchSpace σ ε) (search : Search σ ε) : Turn σ ε → Prop
  | .done outcome => outcome.accepted = true ↔ search.Hopeful space
  | .ongoing later => later.Sound space ∧ (later.Hopeful space ↔ search.Hopeful space)

variable [LawfulBEq σ] {space : SearchSpace σ ε}

/-- Every turn keeps the invariant, and whether a solution is ahead. -/
theorem Search.Sound.next {search : Search σ ε} (h : search.Sound space) :
    (search.next space).Faithful space search := by
  obtain ⟨stack, rejected, steps⟩ := search
  match stack, h with
  | [], h => exact iff_of_false (by simp) (by simp [Hopeful])
  | ⟨s, []⟩ :: stack, h =>
    -- A state without a pending move has failed, for no solution of it was passed over.
    have hs : ¬ space.Solvable s := fun hs => by simpa using h.stack.1 hs
    refine ⟨⟨fun t ht => ?_, h.stack.2.imp hs⟩, by simp [Hopeful]⟩
    rcases Std.HashSet.mem_insert.1 ht with heq | ht
    · rwa [← eq_of_beq heq]
    · exact h.rejected t ht
  | ⟨s, x :: pending⟩ :: stack, h =>
    have hcovers := h.stack.1
    rw [next_move]
    split
    · next harrive =>
      refine iff_of_true rfl ⟨_, List.mem_cons_self, x, List.mem_cons_self, ?_⟩
      exact (h.solvable_iff_of_arrive harrive).2 rfl
    · next harrive =>
      have hx : ¬ space.Solvable (space.apply s x) := by
        rw [h.solvable_iff_of_arrive harrive]
        simp
      refine ⟨⟨h.rejected, fun hs => ?_, h.stack.2⟩, hopeful_iff_of_not_solvable hx⟩
      simpa [hx] using hcovers hs
    · next frame harrive =>
      obtain ⟨hverdict, -, rfl⟩ := SearchSpace.of_arrive_opened harrive
      refine ⟨⟨h.rejected, ?_, ?_, h.stack.2⟩, hopeful_iff_of_undecided hverdict⟩
      · exact fun hs => .inr ((SearchSpace.solvable_iff_of_undecided hverdict).1 hs)
      · intro hs
        simpa using hcovers hs

/-- A search that keeps the invariant accepts exactly when a solution is ahead. -/
theorem Search.Sound.run_accepted_iff {search : Search σ ε} (h : search.Sound space) :
    (search.run space).accepted = true ↔ search.Hopeful space := by
  fun_induction Search.run space search with
  | case1 search outcome hnext =>
    have hturn := h.next
    rw [hnext] at hturn
    exact hturn
  | case2 search later hnext ih =>
    have hturn := h.next
    rw [hnext] at hturn
    exact (ih hturn.1).trans hturn.2

/-- The search from a state accepts exactly when the state is solvable. -/
theorem SearchSpace.explore_accepted_iff (space : SearchSpace σ ε) (s : σ) :
    (space.explore s).accepted = true ↔ space.Solvable s := by
  unfold explore
  split
  · next accepted harrive =>
    have hempty : Search.Sound space ⟨[], ∅, []⟩ := Search.sound_empty trivial
    exact (hempty.solvable_iff_of_arrive harrive).symm
  · next frame harrive =>
    obtain ⟨hverdict, -, rfl⟩ := of_arrive_opened harrive
    rw [(Search.sound_start hverdict).run_accepted_iff, solvable_iff_of_undecided hverdict]
    simp [Search.Hopeful]

end

end StringMachines
