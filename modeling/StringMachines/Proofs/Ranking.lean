import Mathlib.Data.List.Perm.Basic
import StringMachines.Ranking

/-!
# Ranking loses no candidate

Narrowing the vectors at an index keeps those that hold the best value there, and one of them does;
so narrowing never leaves nothing (`Quantifier.narrow_ne_nil`). Hence there is a choice as long as
there are candidates (`Candidate.exists_choose?`), and choosing one after another goes through all
of them (`Candidate.ranked_perm`).
-/

namespace StringMachines

namespace Quantifier

/-- There is a best match level as long as there is any, and it is one of them. -/
theorem exists_bestMatchLevel? {levels : List Nat} (h : levels ≠ []) (quantifier : Quantifier) :
    ∃ best ∈ levels, quantifier.bestMatchLevel? levels = some best := by
  cases quantifier with
  | greedy =>
    obtain ⟨best, hbest⟩ := Option.ne_none_iff_exists'.1 (mt List.min?_eq_none_iff.1 h)
    exact ⟨best, List.min?_mem hbest, hbest⟩
  | lazy =>
    obtain ⟨best, hbest⟩ := Option.ne_none_iff_exists'.1 (mt List.max?_eq_none_iff.1 h)
    exact ⟨best, List.max?_mem hbest, hbest⟩

/-- The best quantifier level is one of the levels. -/
theorem bestQuantifierLevel?_mem {levels : List Nat} {quantifier : Quantifier} {best : Nat}
    (h : quantifier.bestQuantifierLevel? levels = some best) : best ∈ levels := by
  cases quantifier with
  | greedy => exact List.max?_mem h
  | lazy => exact List.min?_mem h

/-- Narrowing at an index adds no vector. -/
theorem narrowAt_subset (quantifier : Quantifier) (index : Nat) (vectors : List (List Nat)) :
    quantifier.narrowAt index vectors ⊆ vectors := by
  unfold narrowAt
  split
  · exact List.filter_subset_self vectors
  · exact List.Subset.refl vectors

/-- Narrowing at an index keeps a vector that holds the best value. -/
theorem narrowAt_ne_nil (quantifier : Quantifier) (index : Nat) {vectors : List (List Nat)}
    (h : vectors ≠ []) : quantifier.narrowAt index vectors ≠ [] := by
  unfold narrowAt
  split
  · next best hbest =>
    obtain ⟨vector, hvector, hvalue⟩ := List.mem_filterMap.1 (bestQuantifierLevel?_mem hbest)
    refine List.ne_nil_of_mem (List.mem_filter.2 ⟨hvector, ?_⟩)
    simp [hvalue]
  · exact h

/-- Narrowing adds no vector. -/
theorem narrow_subset (quantifier : Quantifier) (index n : Nat) (vectors : List (List Nat)) :
    quantifier.narrow index n vectors ⊆ vectors := by
  induction n generalizing index vectors with
  | zero => exact List.Subset.refl vectors
  | succ n ih =>
    rw [narrow]
    split
    · exact List.Subset.refl vectors
    · exact List.Subset.trans (ih (index + 1) _) (narrowAt_subset quantifier index vectors)

/-- Narrowing leaves a vector. -/
theorem narrow_ne_nil (quantifier : Quantifier) (index n : Nat) {vectors : List (List Nat)}
    (h : vectors ≠ []) : quantifier.narrow index n vectors ≠ [] := by
  induction n generalizing index vectors with
  | zero => exact h
  | succ n ih =>
    rw [narrow]
    split
    · exact h
    · exact ih (index + 1) (narrowAt_ne_nil quantifier index h)

end Quantifier

namespace Candidate

variable {α : Type}

/-- As long as there are candidates, one of them is chosen. -/
theorem exists_choose? {candidates : List (Candidate α)} (h : candidates ≠ [])
    (quantifier : Quantifier) :
    ∃ i, i < candidates.length ∧ choose? quantifier candidates = some i := by
  have hlevels : candidates.map (·.levels.matchLevel) ≠ [] := by simpa using h
  obtain ⟨level, hmem, hlevel⟩ := quantifier.exists_bestMatchLevel? hlevels
  obtain ⟨c, hc, rfl⟩ := List.mem_map.1 hmem
  have hvectors : (candidates.filter (·.levels.matchLevel = c.levels.matchLevel)).map
      (·.levels.quantifierLevels) ≠ [] := by
    refine List.ne_nil_of_mem (List.mem_map_of_mem (List.mem_filter.2 ⟨hc, ?_⟩))
    simp
  obtain ⟨vector, hbest⟩ := List.exists_mem_of_ne_nil (bestVectors candidates _ quantifier)
    (quantifier.narrow_ne_nil 0 _ hvectors)
  -- A vector that is left belongs to a candidate of the best match level.
  obtain ⟨d, hd, rfl⟩ := List.mem_map.1 (quantifier.narrow_subset _ _ _ hbest)
  obtain ⟨hd, hdlevel⟩ := List.mem_filter.1 hd
  have hfound : (choose? quantifier candidates).isSome = true := by
    rw [choose?, hlevel, Option.bind_some, List.findIdx?_isSome, List.any_eq_true]
    exact ⟨d, hd, by simpa [hbest] using hdlevel⟩
  obtain ⟨i, hi⟩ := Option.isSome_iff_exists.1 hfound
  refine ⟨i, ?_, hi⟩
  rw [choose?, hlevel, Option.bind_some] at hi
  exact (List.findIdx?_eq_some_iff_getElem.1 hi).1

/-- The candidates are tried in some order, each of them once. -/
theorem ranked_perm (quantifier : Quantifier) (candidates : List (Candidate α)) :
    (ranked quantifier candidates).Perm candidates := by
  fun_induction ranked quantifier candidates with
  | case1 candidates hnone =>
    rcases eq_or_ne candidates [] with rfl | hne
    · exact List.Perm.refl []
    · obtain ⟨i, -, hi⟩ := exists_choose? hne quantifier
      rw [hi] at hnone
      cases hnone
  | case2 candidates i hsome hi ih =>
    exact (ih.cons _).trans (List.getElem_cons_eraseIdx_perm hi)
  | case3 candidates i hsome hi =>
    rcases eq_or_ne candidates [] with rfl | hne
    · exact List.Perm.refl []
    · obtain ⟨j, hj, hsome'⟩ := exists_choose? hne quantifier
      cases hsome.symm.trans hsome'
      exact absurd hj hi

end Candidate

end StringMachines
