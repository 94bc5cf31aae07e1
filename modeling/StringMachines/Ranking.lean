import StringMachines.Pattern.Levels

/-!
# Ranking candidates by their levels

When several candidates may be tried, the one with the best match level comes first: the lowest
for a greedy quantifier, the highest for a lazy one. Among candidates of that match level the
quantifier levels decide, index by index, the highest being best for greedy and the lowest for
lazy. Of candidates that are still equal the earliest is chosen.

`Candidate.choose?` makes one choice; `Candidate.ranked` repeats it on what is left until nothing
is.
-/

namespace StringMachines

namespace Quantifier

/-- The best of some match levels. -/
def bestMatchLevel? : Quantifier → List Nat → Option Nat
  | greedy, levels => levels.min?
  | lazy, levels => levels.max?

/-- The best of some quantifier levels of one group. -/
def bestQuantifierLevel? : Quantifier → List Nat → Option Nat
  | greedy, levels => levels.max?
  | lazy, levels => levels.min?

/-- Keeps the vectors that hold the best value at `index`, and those too short to have one. -/
def narrowAt (quantifier : Quantifier) (index : Nat) (vectors : List (List Nat)) :
    List (List Nat) :=
  match quantifier.bestQuantifierLevel? (vectors.filterMap (·[index]?)) with
  | some best => vectors.filter (·[index]?.all (· == best))
  | none => vectors

/-- Narrows the vectors at `n` indices from `index` on, as long as more than one is left. -/
def narrow (quantifier : Quantifier) (index : Nat) : Nat → List (List Nat) → List (List Nat)
  | 0, vectors => vectors
  | n + 1, vectors =>
    if vectors.length ≤ 1 then vectors
    else narrow quantifier (index + 1) n (quantifier.narrowAt index vectors)

end Quantifier

/-- Something to try, with the levels that it would reach. -/
structure Candidate (α : Type) where
  value : α
  levels : Levels
deriving DecidableEq, Repr

namespace Candidate

variable {α : Type}

/-- The quantifier levels of the candidates at a match level, narrowed at the indices below that
level. An index past the end of every vector keeps them all, so none of those is looked at. -/
def bestVectors (candidates : List (Candidate α)) (matchLevel : Nat) (quantifier : Quantifier) :
    List (List Nat) :=
  let vectors := (candidates.filter (·.levels.matchLevel = matchLevel)).map
    (·.levels.quantifierLevels)
  let longest := (vectors.map List.length).foldl max 0
  quantifier.narrow 0 (min matchLevel longest) vectors

/-- The index of the candidate to try next, if there is any. -/
def choose? (quantifier : Quantifier) (candidates : List (Candidate α)) : Option Nat :=
  (quantifier.bestMatchLevel? (candidates.map (·.levels.matchLevel))).bind fun matchLevel =>
    let best := bestVectors candidates matchLevel quantifier
    candidates.findIdx? fun c =>
      c.levels.matchLevel = matchLevel && best.contains c.levels.quantifierLevels

/-- The candidates in the order in which they are tried. -/
def ranked (quantifier : Quantifier) (candidates : List (Candidate α)) : List (Candidate α) :=
  match choose? quantifier candidates with
  | none => []
  | some i =>
    if h : i < candidates.length then
      candidates[i] :: ranked quantifier (candidates.eraseIdx i)
    else []
termination_by candidates.length
decreasing_by
  rw [List.length_eraseIdx, if_pos h]
  omega

/-- Ranking adds no candidate. -/
theorem mem_of_mem_ranked {quantifier : Quantifier} {candidates : List (Candidate α)}
    {c : Candidate α} (h : c ∈ ranked quantifier candidates) : c ∈ candidates := by
  fun_induction ranked quantifier candidates with
  | case1 => simp at h
  | case2 candidates i _ hi ih =>
    cases h with
    | head => exact List.getElem_mem hi
    | tail _ h => exact List.mem_of_mem_eraseIdx (ih h)
  | case3 => simp at h

end Candidate

end StringMachines
