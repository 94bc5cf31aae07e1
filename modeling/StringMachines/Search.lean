import Std.Data.HashSet

/-!
# Depth-first search with a memory of failures

A search space gives each state the moves that can be made in it, in the order in which they are
to be tried, and answers for the states that need no move. Since every move leads to a smaller
state, the search for an accepting state ends.

The search keeps a stack of open states, each with the moves not tried yet, and the set of states
that have failed: such a state is not opened again. `Search.next` is one turn of the search and
`Search.run` turns until there is an answer; `SearchSpace.explore` is the whole search from a
state, with every move it tried in order.
-/

namespace StringMachines

/-- States, and the moves between them. -/
structure SearchSpace (σ ε : Type) where
  /-- The answer for a state that is decided without a move. -/
  verdict? : σ → Option Bool
  /-- The moves of an undecided state, in the order in which they are tried. -/
  moves : σ → List ε
  /-- The state that a move leads to. -/
  apply : σ → ε → σ
  /-- A size that every move makes smaller. -/
  size : σ → Nat
  size_apply_lt : ∀ {s x}, x ∈ moves s → size (apply s x) < size s

/-- An open state, with the moves not tried yet. -/
structure Frame (σ ε : Type) where
  state : σ
  pending : List ε

/-- The answer of a search, with the moves that were tried, first to last. -/
structure Outcome (σ ε : Type) where
  accepted : Bool
  steps : List (σ × ε)

/-- A search under way: the open states, innermost first, the states that have failed, and the
moves tried so far, last to first. -/
structure Search (σ ε : Type) [BEq σ] [Hashable σ] where
  stack : List (Frame σ ε)
  rejected : Std.HashSet σ
  steps : List (σ × ε)

/-- What happens when a state is reached. -/
inductive Arrival (σ ε : Type) where
  /-- The state is answered at once. -/
  | decided (accepted : Bool)
  /-- The moves of the state have to be tried. -/
  | opened (frame : Frame σ ε)

/-- What a turn of the search leads to. -/
inductive Turn (σ ε : Type) [BEq σ] [Hashable σ] where
  | done (outcome : Outcome σ ε)
  | ongoing (search : Search σ ε)

variable {σ ε : Type}

namespace SearchSpace

/-- How many turns a state takes at most when no state is known to fail. -/
def cost (space : SearchSpace σ ε) (s : σ) : Nat :=
  ((space.moves s).map fun x => space.cost (space.apply s x) + 1).foldr (· + ·) 0 + 1
termination_by space.size s
decreasing_by exact space.size_apply_lt ‹_›

/-- How many turns the moves still pending in a frame take at most. -/
def frameCost (space : SearchSpace σ ε) (frame : Frame σ ε) : Nat :=
  (frame.pending.map fun x => space.cost (space.apply frame.state x) + 1).foldr (· + ·) 0 + 1

/-- A frame with all moves pending takes as many turns as its state. -/
theorem frameCost_moves (space : SearchSpace σ ε) (s : σ) :
    space.frameCost ⟨s, space.moves s⟩ = space.cost s := by
  rw [cost, frameCost]

variable [BEq σ] [Hashable σ]

/-- Reaches a state: it is answered if it is decided or has failed before, and opened otherwise. -/
def arrive (space : SearchSpace σ ε) (rejected : Std.HashSet σ) (s : σ) : Arrival σ ε :=
  match space.verdict? s with
  | some accepted => .decided accepted
  | none => if rejected.contains s then .decided false else .opened ⟨s, space.moves s⟩

end SearchSpace

namespace Search

variable [BEq σ] [Hashable σ]

/-- How many turns the search takes at most. -/
def cost (space : SearchSpace σ ε) (search : Search σ ε) : Nat :=
  (search.stack.map space.frameCost).foldr (· + ·) 0

/-- One turn: the innermost open state tries its next move, or has failed when there is none. -/
def next (space : SearchSpace σ ε) (search : Search σ ε) : Turn σ ε :=
  match search.stack with
  | [] => .done ⟨false, search.steps.reverse⟩
  | ⟨s, []⟩ :: stack => .ongoing { search with stack, rejected := search.rejected.insert s }
  | ⟨s, x :: pending⟩ :: stack =>
    let steps := (s, x) :: search.steps
    match space.arrive search.rejected (space.apply s x) with
    | .decided true => .done ⟨true, steps.reverse⟩
    | .decided false => .ongoing { search with stack := ⟨s, pending⟩ :: stack, steps }
    | .opened frame => .ongoing { search with stack := frame :: ⟨s, pending⟩ :: stack, steps }

/-- Every turn brings the search closer to its end. -/
theorem cost_lt_of_next {space : SearchSpace σ ε} {search later : Search σ ε}
    (h : search.next space = .ongoing later) : later.cost space < search.cost space := by
  obtain ⟨stack, rejected, steps⟩ := search
  unfold next at h
  match stack, h with
  | [], h => cases h
  | ⟨s, []⟩ :: stack, h =>
    cases h
    simp [cost, SearchSpace.frameCost]
  | ⟨s, x :: pending⟩ :: stack, h =>
    simp only at h
    split at h
    · cases h
    · cases h
      simp only [cost, SearchSpace.frameCost, List.map_cons, List.foldr_cons]
      omega
    · next frame harr =>
      have hframe : frame = ⟨space.apply s x, space.moves (space.apply s x)⟩ := by
        unfold SearchSpace.arrive at harr
        split at harr
        · cases harr
        · split at harr <;> cases harr
          rfl
      cases h
      rw [hframe]
      simp only [cost, List.map_cons, List.foldr_cons, SearchSpace.frameCost_moves]
      simp only [SearchSpace.frameCost, List.map_cons, List.foldr_cons]
      omega

/-- Takes turns until the search has an answer. -/
def run (space : SearchSpace σ ε) (search : Search σ ε) : Outcome σ ε :=
  match _h : search.next space with
  | .done outcome => outcome
  | .ongoing later => later.run space
termination_by search.cost space
decreasing_by exact cost_lt_of_next ‹_›

end Search

/-- Whether an accepting state can be reached from `s`, and the moves tried to find out. -/
def SearchSpace.explore [BEq σ] [Hashable σ] (space : SearchSpace σ ε) (s : σ) : Outcome σ ε :=
  match space.arrive ∅ s with
  | .decided accepted => ⟨accepted, []⟩
  | .opened frame => Search.run space ⟨[frame], ∅, []⟩

end StringMachines
