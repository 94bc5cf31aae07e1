import Mathlib.Data.List.Lex
import StringMachines.Proofs.Pattern.ExtremeLevels
import StringMachines.Proofs.Ranking

/-!
# Ranking is a stable sort

A quantifier orders the match levels (`Quantifier.levelLE`) and the quantifier levels
(`Quantifier.repeatsLE`), the latter lexicographically. Where vectors have the same length,
narrowing them index by index keeps those that are first in that order
(`Quantifier.mem_narrow_iff`).
The choice then falls on a candidate that precedes all others and is preceded by no earlier one
(`Candidate.precedes_of_choose?`). Taking such a candidate out again and again is how a stable sort
orders a list (`mergeSort_append_cons`), so the candidates are tried in the order of the stable sort
(`Candidate.ranked_sorts`).
-/

namespace StringMachines

/-! ## The orders of a quantifier -/

namespace Quantifier

/-- The order in which quantifier levels come, single ones and vectors of them: descending for
greedy, ascending for lazy. -/
def repeatsLE {β : Type} [LinearOrder β] : Quantifier → β → β → Bool
  | greedy, a, b => b ≤ a
  | lazy, a, b => a ≤ b

theorem levelLE_trans {quantifier : Quantifier} {l m n : Nat}
    (hlm : quantifier.levelLE l m = true) (hmn : quantifier.levelLE m n = true) :
    quantifier.levelLE l n = true := by
  cases quantifier <;> simp only [levelLE, decide_eq_true_eq] at * <;> omega

theorem levelLE_total (quantifier : Quantifier) (m n : Nat) :
    quantifier.levelLE m n = true ∨ quantifier.levelLE n m = true := by
  cases quantifier <;> simp only [levelLE, decide_eq_true_eq] <;> omega

theorem levelLE_antisymm {quantifier : Quantifier} {m n : Nat}
    (hmn : quantifier.levelLE m n = true) (hnm : quantifier.levelLE n m = true) : m = n := by
  cases quantifier <;> simp only [levelLE, decide_eq_true_eq] at * <;> omega

section
variable {β : Type} [LinearOrder β] {quantifier : Quantifier} {a b c : β}

@[simp] theorem repeatsLE_refl (quantifier : Quantifier) (a : β) :
    quantifier.repeatsLE a a = true := by
  cases quantifier <;> simp [repeatsLE]

theorem repeatsLE_trans (hab : quantifier.repeatsLE a b = true)
    (hbc : quantifier.repeatsLE b c = true) : quantifier.repeatsLE a c = true := by
  cases quantifier <;> simp only [repeatsLE, decide_eq_true_eq] at *
  · exact hbc.trans hab
  · exact hab.trans hbc

theorem repeatsLE_total (quantifier : Quantifier) (a b : β) :
    quantifier.repeatsLE a b = true ∨ quantifier.repeatsLE b a = true := by
  cases quantifier <;> simp only [repeatsLE, decide_eq_true_eq]
  · exact le_total b a
  · exact le_total a b

theorem repeatsLE_antisymm (hab : quantifier.repeatsLE a b = true)
    (hba : quantifier.repeatsLE b a = true) : a = b := by
  cases quantifier <;> simp only [repeatsLE, decide_eq_true_eq] at *
  · exact le_antisymm hba hab
  · exact le_antisymm hab hba

end

/-- Vectors are compared at the first place where they differ. -/
theorem repeatsLE_cons_iff {quantifier : Quantifier} {a b : Nat} {v w : List Nat} :
    quantifier.repeatsLE (a :: v) (b :: w) = true ↔
      quantifier.repeatsLE a b = true ∧ (a = b → quantifier.repeatsLE v w = true) := by
  have hle (a b : Nat) (v w : List Nat) : a :: v ≤ b :: w ↔ a ≤ b ∧ (a = b → v ≤ w) := by
    rw [← not_lt, List.cons_lt_cons_iff, ← not_lt (a := w)]
    grind
  cases quantifier with
  | greedy =>
    simp only [repeatsLE, decide_eq_true_eq, hle]
    rw [eq_comm (a := a)]
  | lazy => simp only [repeatsLE, decide_eq_true_eq, hle]

/-- The best match level is the one that comes first. -/
theorem bestMatchLevel?_eq_some_iff {quantifier : Quantifier} {levels : List Nat} {best : Nat} :
    quantifier.bestMatchLevel? levels = some best ↔
      best ∈ levels ∧ ∀ level ∈ levels, quantifier.levelLE best level = true := by
  cases quantifier <;> simp only [bestMatchLevel?, levelLE, decide_eq_true_eq]
  · exact List.min?_eq_some_iff
  · exact List.max?_eq_some_iff

/-- The best quantifier level is the one that comes first. -/
theorem bestQuantifierLevel?_eq_some_iff {quantifier : Quantifier} {levels : List Nat}
    {best : Nat} :
    quantifier.bestQuantifierLevel? levels = some best ↔
      best ∈ levels ∧ ∀ level ∈ levels, quantifier.repeatsLE best level = true := by
  cases quantifier <;> simp only [bestQuantifierLevel?, repeatsLE, decide_eq_true_eq]
  · exact List.max?_eq_some_iff
  · exact List.min?_eq_some_iff

/-! ## Narrowing vectors of one length -/

/-- An index past the end of every vector keeps them all. -/
theorem narrowAt_of_length_le (quantifier : Quantifier) {index : Nat} {vectors : List (List Nat)}
    (h : ∀ v ∈ vectors, v.length ≤ index) : quantifier.narrowAt index vectors = vectors := by
  have hnone : vectors.filterMap (·[index]?) = [] := by
    refine List.filterMap_eq_nil_iff.2 fun v hv => ?_
    exact List.getElem?_eq_none (h v hv)
  unfold narrowAt
  rw [hnone]
  cases quantifier <;> rfl

/-- An index that every vector has keeps those whose value there comes first. -/
theorem mem_narrowAt_iff {quantifier : Quantifier} {index : Nat} {vectors : List (List Nat)}
    (h : ∀ v ∈ vectors, index < v.length) {v : List Nat} :
    v ∈ quantifier.narrowAt index vectors ↔
      v ∈ vectors ∧
        ∀ w ∈ vectors, quantifier.repeatsLE (v.getD index 0) (w.getD index 0) = true := by
  have hget {w : List Nat} (hw : w ∈ vectors) : w[index]? = some (w.getD index 0) := by
    simp [h w hw]
  have hmem (n : Nat) : n ∈ vectors.filterMap (·[index]?) ↔ ∃ w ∈ vectors, w.getD index 0 = n := by
    rw [List.mem_filterMap]
    refine exists_congr fun w => and_congr_right fun hw => ?_
    rw [hget hw, Option.some.injEq]
  unfold narrowAt
  split
  · next best hbest =>
    obtain ⟨hin, hfirst⟩ := bestQuantifierLevel?_eq_some_iff.1 hbest
    rw [List.mem_filter]
    refine and_congr_right fun hv => ?_
    rw [hget hv, Option.all_some, beq_iff_eq]
    constructor
    · intro heq w hw
      rw [heq]
      exact hfirst _ ((hmem _).2 ⟨w, hw, rfl⟩)
    · intro hall
      obtain ⟨w, hw, rfl⟩ := (hmem best).1 hin
      exact repeatsLE_antisymm (hall w hw) (hfirst _ ((hmem _).2 ⟨v, hv, rfl⟩))
  · next hnone =>
    -- There is no best value only where there is no vector.
    refine ⟨fun hv => absurd hnone ?_, fun hv => hv.1⟩
    have hin := (hmem _).2 ⟨v, hv, rfl⟩
    intro hbest
    cases quantifier with
    | greedy => simp [List.max?_eq_none_iff.1 hbest] at hin
    | lazy => simp [List.min?_eq_none_iff.1 hbest] at hin

/-- Those that come first by one value, and among these by the values behind it, come first by all
of these values. -/
theorem first_of_first_iff {β : Type} {quantifier : Quantifier} {xs : List β} (head : β → Nat)
    (tail : β → List Nat) {x : β} :
    ((x ∈ xs ∧ ∀ y ∈ xs, quantifier.repeatsLE (head x) (head y) = true) ∧
        ∀ y, (y ∈ xs ∧ ∀ z ∈ xs, quantifier.repeatsLE (head y) (head z) = true) →
          quantifier.repeatsLE (tail x) (tail y) = true) ↔
      x ∈ xs ∧ ∀ y ∈ xs, quantifier.repeatsLE (head x :: tail x) (head y :: tail y) = true := by
  simp only [repeatsLE_cons_iff]
  constructor
  · intro h
    obtain ⟨⟨hx, hfirst⟩, hrest⟩ := h
    refine ⟨hx, fun y hy => ⟨hfirst y hy, fun heq => hrest y ⟨hy, ?_⟩⟩⟩
    rw [← heq]
    exact hfirst
  · intro h
    obtain ⟨hx, hall⟩ := h
    refine ⟨⟨hx, fun y hy => (hall y hy).1⟩, fun y hy => (hall y hy.1).2 ?_⟩
    exact repeatsLE_antisymm (hall y hy.1).1 (hy.2 x hx)

/-- Narrowing vectors of one length keeps those whose values at the given indices come first. -/
theorem mem_narrow_iff {quantifier : Quantifier} {length index n : Nat}
    {vectors : List (List Nat)} (h : ∀ v ∈ vectors, v.length = length) {v : List Nat} :
    v ∈ quantifier.narrow index n vectors ↔ v ∈ vectors ∧ ∀ w ∈ vectors,
      quantifier.repeatsLE ((v.drop index).take n) ((w.drop index).take n) = true := by
  induction n generalizing index vectors with
  | zero => simp [narrow]
  | succ n ih =>
    rw [narrow]
    split
    · next hone =>
      -- A vector that is left alone comes first.
      refine ⟨fun hv => ⟨hv, fun w hw => ?_⟩, fun hv => hv.1⟩
      have hlength := Nat.le_antisymm hone (List.length_pos_of_mem hv)
      obtain ⟨x, rfl⟩ := List.length_eq_one_iff.1 hlength
      rw [List.mem_singleton.1 hv, List.mem_singleton.1 hw]
      exact repeatsLE_refl quantifier _
    rw [ih fun w hw => h w (narrowAt_subset quantifier index vectors hw)]
    by_cases hindex : index < length
    · have hlt : ∀ w ∈ vectors, index < w.length := fun w hw => by
        rw [h w hw]
        exact hindex
      have hsplit {w : List Nat} (hw : w ∈ vectors) : (w.drop index).take (n + 1) =
          w.getD index 0 :: (w.drop (index + 1)).take n := by
        rw [List.drop_eq_getElem_cons (hlt w hw), List.take_succ_cons]
        simp [hlt w hw]
      simp only [mem_narrowAt_iff hlt]
      refine (first_of_first_iff (fun w : List Nat => w.getD index 0)
        (fun w => (w.drop (index + 1)).take n)).trans ?_
      refine and_congr_right fun hv => forall₂_congr fun w hw => ?_
      rw [hsplit hv, hsplit hw]
    · -- Behind the end of the vectors there is nothing to compare.
      have hle : ∀ w ∈ vectors, w.length ≤ index := fun w hw => by
        rw [h w hw]
        omega
      have hnil {w : List Nat} (hw : w ∈ vectors) : w.drop index = [] ∧ w.drop (index + 1) = [] :=
        ⟨List.drop_eq_nil_of_le (hle w hw), List.drop_eq_nil_of_le (Nat.le_succ_of_le (hle w hw))⟩
      rw [narrowAt_of_length_le quantifier hle]
      refine and_congr_right fun hv => forall₂_congr fun w hw => ?_
      simp [hnil hv, hnil hw]

end Quantifier

/-! ## The first of a list in an order -/

section
variable {β : Type} {le : β → β → Bool}

/-- Where the members of a list that do not satisfy `p` stand in front of those that do, the list
is cut between them in one way. -/
theorem append_inj_of_split {p : β → Prop} {front front' back back' : List β}
    (heq : front ++ back = front' ++ back') (hfront : ∀ x ∈ front, ¬ p x)
    (hfront' : ∀ x ∈ front', ¬ p x) (hback : ∀ x ∈ back, p x) (hback' : ∀ x ∈ back', p x) :
    front = front' ∧ back = back' := by
  rcases List.append_eq_append_iff.1 heq with ⟨between, rfl, rfl⟩ | ⟨between, rfl, rfl⟩
  · cases between with
    | nil => simp
    | cons x between => exact absurd (hback x (by simp)) (hfront' x (by simp))
  · cases between with
    | nil => simp
    | cons x between => exact absurd (hback' x (by simp)) (hfront x (by simp))

/-- A stable sort puts a member first that is before all others, strictly so before the earlier
ones, and sorts the others as if it were not there. -/
theorem mergeSort_append_cons (trans : ∀ a b c, le a b = true → le b c = true → le a c = true)
    (total : ∀ a b, (le a b || le b a) = true) {x : β} {earlier later : List β}
    (hearlier : ∀ y ∈ earlier, ¬ le y x = true) (hlater : ∀ y ∈ later, le x y = true) :
    (earlier ++ x :: later).mergeSort le = x :: (earlier ++ later).mergeSort le := by
  induction earlier with
  | nil =>
    obtain ⟨front, back, hsort, hrest, hfront⟩ := List.mergeSort_cons trans total x later
    cases front with
    | nil => rw [List.nil_append, List.nil_append, hsort, hrest, List.nil_append, List.nil_append]
    | cons y front =>
      -- Nothing can be sorted in front of `x`, for all of it comes from what `x` is before.
      have hy : y ∈ later.mergeSort le := by
        rw [hrest]
        exact List.mem_cons_self
      have hle := hlater y (List.mem_mergeSort.1 hy)
      exact absurd hle (by simpa using hfront y List.mem_cons_self)
  | cons y earlier ih =>
    have ih := ih fun z hz => hearlier z (List.mem_cons_of_mem y hz)
    obtain ⟨front, back, hsort, hrest, hfront⟩ :=
      List.mergeSort_cons trans total y (earlier ++ x :: later)
    obtain ⟨front', back', hsort', hrest', hfront'⟩ :=
      List.mergeSort_cons trans total y (earlier ++ later)
    have hsorted := hsort ▸ List.pairwise_mergeSort trans total (y :: (earlier ++ x :: later))
    have hsorted' := hsort' ▸ List.pairwise_mergeSort trans total (y :: (earlier ++ later))
    rw [ih, hrest'] at hrest
    -- What is sorted in front of `y` is what `y` is not before, with `x` and without.
    have hsplit : x :: front' = front ∧ back' = back := by
      refine append_inj_of_split (p := fun z => le y z = true) hrest ?_ ?_ ?_ ?_
      · intro z hz
        rcases List.mem_cons.1 hz with rfl | hz
        · exact hearlier y List.mem_cons_self
        · simpa using hfront' z hz
      · intro z hz
        simpa using hfront z hz
      · exact (List.pairwise_cons.1 (List.pairwise_append.1 hsorted').2.1).1
      · exact (List.pairwise_cons.1 (List.pairwise_append.1 hsorted).2.1).1
    rw [List.cons_append, hsort, List.cons_append, hsort', ← hsplit.1, ← hsplit.2, List.cons_append]

end

/-! ## The order of candidates -/

namespace Candidate

variable {α : Type} {quantifier : Quantifier}

/-- The quantifier levels that decide between candidates: as many as the match level. -/
def leading (c : Candidate α) : List Nat :=
  c.levels.quantifierLevels.take c.levels.matchLevel

/-- Whether `c` is to be tried no later than `d`: the match level decides, and where it is the same
the leading quantifier levels. -/
def precedes (quantifier : Quantifier) (c d : Candidate α) : Bool :=
  if c.levels.matchLevel = d.levels.matchLevel then quantifier.repeatsLE c.leading d.leading
  else quantifier.levelLE c.levels.matchLevel d.levels.matchLevel

/-- Candidates of the same match level have equally many quantifier levels. -/
def Uniform (candidates : List (Candidate α)) : Prop :=
  ∀ c ∈ candidates, ∀ d ∈ candidates, c.levels.matchLevel = d.levels.matchLevel →
    c.levels.quantifierLevels.length = d.levels.quantifierLevels.length

theorem precedes_trans (b c d : Candidate α) (hbc : precedes quantifier b c = true)
    (hcd : precedes quantifier c d = true) : precedes quantifier b d = true := by
  unfold precedes at *
  split at hbc <;> split at hcd
  · next hb hc =>
    rw [if_pos (hb.trans hc)]
    exact Quantifier.repeatsLE_trans hbc hcd
  · next hb hc =>
    rw [hb, if_neg hc]
    exact hcd
  · next hb hc =>
    rw [← hc, if_neg hb]
    exact hbc
  · next hb hc =>
    have hbd := Quantifier.levelLE_trans hbc hcd
    split
    · next heq => exact absurd (Quantifier.levelLE_antisymm hbc (heq ▸ hcd)) hb
    · exact hbd

theorem precedes_total (c d : Candidate α) :
    (precedes quantifier c d || precedes quantifier d c) = true := by
  rw [Bool.or_eq_true, precedes, precedes]
  by_cases heq : c.levels.matchLevel = d.levels.matchLevel
  · rw [if_pos heq, if_pos heq.symm]
    exact quantifier.repeatsLE_total _ _
  · rw [if_neg heq, if_neg (Ne.symm heq)]
    exact quantifier.levelLE_total _ _

/-- A candidate that precedes another has a match level that comes no later. -/
theorem levelLE_of_precedes {c d : Candidate α} (h : precedes quantifier c d = true) :
    quantifier.levelLE c.levels.matchLevel d.levels.matchLevel = true := by
  unfold precedes at h
  split at h
  · next heq =>
    rw [heq]
    exact quantifier.levelLE_refl _
  · exact h

/-! ## The choice -/

/-- As long as there are candidates, one of them is chosen, with some earlier and some later. -/
theorem exists_choice {candidates : List (Candidate α)} (h : candidates ≠ [])
    (quantifier : Quantifier) :
    ∃ earlier c later, candidates = earlier ++ c :: later ∧
      choose? quantifier candidates = some earlier.length := by
  obtain ⟨i, hi, hchoose⟩ := exists_choose? h quantifier
  refine ⟨candidates.take i, candidates[i], candidates.drop (i + 1), ?_, ?_⟩
  · rw [List.getElem_cons_drop, List.take_append_drop]
  · rw [hchoose, List.length_take_of_le (Nat.le_of_lt hi)]

section
variable {earlier later : List (Candidate α)} {c : Candidate α}

/-- What is chosen is of the best match level and has one of the best vectors, and nothing earlier
is so. -/
theorem of_choose? (h : choose? quantifier (earlier ++ c :: later) = some earlier.length) :
    (∀ d ∈ earlier ++ c :: later,
        quantifier.levelLE c.levels.matchLevel d.levels.matchLevel = true) ∧
      c.levels.quantifierLevels ∈
        bestVectors (earlier ++ c :: later) c.levels.matchLevel quantifier ∧
      ∀ d ∈ earlier, d.levels.matchLevel = c.levels.matchLevel → d.levels.quantifierLevels ∉
        bestVectors (earlier ++ c :: later) c.levels.matchLevel quantifier := by
  obtain ⟨level, hlevel, hfind⟩ := Option.bind_eq_some_iff.1 h
  obtain ⟨-, hfirst⟩ := Quantifier.bestMatchLevel?_eq_some_iff.1 hlevel
  obtain ⟨hi, hchosen, hearlier⟩ := List.findIdx?_eq_some_iff_getElem.1 hfind
  obtain ⟨rfl, hbest⟩ : c.levels.matchLevel = level ∧ c.levels.quantifierLevels ∈
      bestVectors (earlier ++ c :: later) level quantifier := by
    simpa using hchosen
  refine ⟨fun d hd => hfirst _ (List.mem_map_of_mem hd), hbest, fun d hd heq hmem => ?_⟩
  obtain ⟨j, hj, rfl⟩ := List.getElem_of_mem hd
  refine hearlier j hj ?_
  rw [List.getElem_append_left hj]
  simpa using ⟨heq, hmem⟩

end

/-- The best vectors at a match level are those whose leading values come first, when all vectors
at that level have the same length. -/
theorem mem_bestVectors_iff {candidates : List (Candidate α)} (h : Uniform candidates)
    {c : Candidate α} (hc : c ∈ candidates) :
    c.levels.quantifierLevels ∈ bestVectors candidates c.levels.matchLevel quantifier ↔
      ∀ d ∈ candidates, d.levels.matchLevel = c.levels.matchLevel →
        quantifier.repeatsLE c.leading d.leading = true := by
  unfold bestVectors
  generalize hvectors : (candidates.filter (·.levels.matchLevel = c.levels.matchLevel)).map
    (·.levels.quantifierLevels) = vectors
  have hmem (v : List Nat) : v ∈ vectors ↔ ∃ d ∈ candidates,
      d.levels.matchLevel = c.levels.matchLevel ∧ d.levels.quantifierLevels = v := by
    simp [← hvectors, and_assoc]
  have hlength : ∀ v ∈ vectors, v.length = c.levels.quantifierLevels.length := by
    intro v hv
    obtain ⟨d, hd, hlevel, rfl⟩ := (hmem v).1 hv
    exact h d hd c hc hlevel
  have hself : c.levels.quantifierLevels ∈ vectors := (hmem _).2 ⟨c, hc, rfl, rfl⟩
  have hlongest : c.levels.quantifierLevels.length ≤ (vectors.map List.length).foldl max 0 := by
    rw [List.foldl_max]
    exact (List.le_max?_getD_of_mem (List.mem_map_of_mem hself)).trans (Nat.le_max_right _ _)
  -- Behind the end of the vectors there is nothing to compare.
  have htake {v : List Nat} (hv : v ∈ vectors) :
      v.take (min c.levels.matchLevel ((vectors.map List.length).foldl max 0)) =
        v.take c.levels.matchLevel := by
    rw [← List.take_take, List.take_of_length_le (i := (vectors.map List.length).foldl max 0)]
    rw [hlength v hv]
    exact hlongest
  rw [Quantifier.mem_narrow_iff hlength, and_iff_right hself]
  simp only [List.drop_zero]
  constructor
  · intro hfirst d hd hlevel
    have hv : d.levels.quantifierLevels ∈ vectors := (hmem _).2 ⟨d, hd, hlevel, rfl⟩
    have hle := hfirst _ hv
    rw [htake hself, htake hv] at hle
    rw [leading, leading, hlevel]
    exact hle
  · intro hfirst v hv
    obtain ⟨d, hd, hlevel, rfl⟩ := (hmem v).1 hv
    have hle := hfirst d hd hlevel
    rw [leading, leading, hlevel] at hle
    rw [htake hself, htake hv]
    exact hle

section
variable {earlier later : List (Candidate α)} {c : Candidate α}

/-- What is chosen precedes all candidates, and is preceded by no earlier one. -/
theorem precedes_of_choose? (h : Uniform (earlier ++ c :: later))
    (hchoose : choose? quantifier (earlier ++ c :: later) = some earlier.length) :
    (∀ d ∈ earlier ++ c :: later, precedes quantifier c d = true) ∧
      ∀ d ∈ earlier, ¬ precedes quantifier d c = true := by
  obtain ⟨hlevel, hbest, hearlier⟩ := of_choose? hchoose
  have hc : c ∈ earlier ++ c :: later := by simp
  have hprecedes : ∀ d ∈ earlier ++ c :: later, precedes quantifier c d = true := by
    intro d hd
    unfold precedes
    split
    · next heq => exact (mem_bestVectors_iff h hc).1 hbest d hd heq.symm
    · exact hlevel d hd
  refine ⟨hprecedes, fun d hd hdc => ?_⟩
  -- An earlier candidate that preceded it would be among the best as well.
  have hdin : d ∈ earlier ++ c :: later := List.mem_append_left _ hd
  have heq : d.levels.matchLevel = c.levels.matchLevel :=
    Quantifier.levelLE_antisymm (levelLE_of_precedes hdc) (hlevel d hdin)
  refine hearlier d hd heq ?_
  rw [← heq]
  refine (mem_bestVectors_iff h hdin).2 fun e he hde => ?_
  have hprec := precedes_trans d c e hdc (hprecedes e he)
  rwa [precedes, if_pos hde.symm] at hprec

/-! ## Choosing one after another -/

/-- A choice takes one candidate out, and the others are ranked behind it. -/
theorem ranked_of_choose?
    (h : choose? quantifier (earlier ++ c :: later) = some earlier.length) :
    ranked quantifier (earlier ++ c :: later) = c :: ranked quantifier (earlier ++ later) := by
  have hrest : (earlier ++ c :: later).eraseIdx earlier.length = earlier ++ later := by
    rw [List.eraseIdx_append_of_length_le (Nat.le_refl _), Nat.sub_self, List.eraseIdx_cons_zero]
  rw [ranked, h]
  simp [hrest]

end

/-- What is left when one member is taken out was there before. -/
theorem append_subset_append_cons (earlier : List (Candidate α)) (c : Candidate α)
    (later : List (Candidate α)) : earlier ++ later ⊆ earlier ++ c :: later :=
  ((List.sublist_cons_self c later).append_left earlier).subset

/-- Induction along the choices: as long as there are candidates, one of them is chosen and the
others are left. -/
@[elab_as_elim]
theorem choice_induction {motive : List (Candidate α) → Prop} (quantifier : Quantifier)
    (nil : motive [])
    (choice : ∀ (earlier : List (Candidate α)) (c : Candidate α) (later : List (Candidate α)),
      choose? quantifier (earlier ++ c :: later) = some earlier.length →
      motive (earlier ++ later) → motive (earlier ++ c :: later))
    (candidates : List (Candidate α)) : motive candidates := by
  induction hlength : candidates.length generalizing candidates with
  | zero =>
    rw [List.length_eq_zero_iff.1 hlength]
    exact nil
  | succ n ih =>
    have hne : candidates ≠ [] := List.ne_nil_of_length_eq_add_one hlength
    obtain ⟨earlier, c, later, rfl, hchoose⟩ := exists_choice hne quantifier
    refine choice earlier c later hchoose (ih _ ?_)
    simp only [List.length_append, List.length_cons] at hlength ⊢
    omega

/-- The match levels of what is tried come in order. -/
theorem pairwise_levelLE_ranked (quantifier : Quantifier) (candidates : List (Candidate α)) :
    (ranked quantifier candidates).Pairwise fun c d =>
      quantifier.levelLE c.levels.matchLevel d.levels.matchLevel = true := by
  induction candidates using choice_induction quantifier with
  | nil => simp [(ranked_perm quantifier []).eq_nil]
  | choice earlier c later hchoose ih =>
    rw [ranked_of_choose? hchoose, List.pairwise_cons]
    refine ⟨fun d hd => ?_, ih⟩
    have hmem : d ∈ earlier ++ later := mem_of_mem_ranked hd
    exact (of_choose? hchoose).1 d (append_subset_append_cons earlier c later hmem)

/-- Where candidates of one match level have vectors of one length, they are tried in the order of
the stable sort. -/
theorem ranked_eq_mergeSort {candidates : List (Candidate α)} (h : Uniform candidates) :
    ranked quantifier candidates = candidates.mergeSort (precedes quantifier) := by
  induction candidates using choice_induction quantifier with
  | nil => simp [(ranked_perm quantifier []).eq_nil]
  | choice earlier c later hchoose ih =>
    have hsub := append_subset_append_cons earlier c later
    obtain ⟨hall, hearlier⟩ := precedes_of_choose? h hchoose
    have hlater : ∀ d ∈ later, precedes quantifier c d = true := by
      intro d hd
      exact hall d (hsub (List.mem_append_right earlier hd))
    rw [ranked_of_choose? hchoose, ih fun d hd e he => h d (hsub hd) e (hsub he),
      mergeSort_append_cons precedes_trans precedes_total hearlier hlater]

/-- **Ranking is a stable sort.** As long as there are candidates one of them is chosen, and
choosing one after another goes through each of them once, with the match levels in order:
ascending for greedy, descending for lazy. Where candidates of the same match level have equally
many quantifier levels, the order is that of the stable sort by match level and then by the leading
quantifier levels, compared lexicographically: descending for greedy, ascending for lazy. -/
theorem ranked_sorts (quantifier : Quantifier) (candidates : List (Candidate α)) :
    (candidates ≠ [] → ∃ i, i < candidates.length ∧ choose? quantifier candidates = some i) ∧
      (ranked quantifier candidates).Perm candidates ∧
      ((ranked quantifier candidates).Pairwise fun c d =>
        quantifier.levelLE c.levels.matchLevel d.levels.matchLevel = true) ∧
      (Uniform candidates →
        ranked quantifier candidates = candidates.mergeSort (precedes quantifier)) :=
  ⟨fun h => exists_choose? h quantifier, ranked_perm quantifier candidates,
    pairwise_levelLE_ranked quantifier candidates, ranked_eq_mergeSort⟩

/-- Of four candidates, greedy tries the one of the lowest match level first, then the most
repetitions, and the earlier of two that are equal: the stable sort does the same. -/
theorem ranked_sorts_bcda :
    let candidates : List (Candidate Char) :=
      [⟨'a', ⟨2, [1, 1]⟩⟩, ⟨'b', ⟨1, [3]⟩⟩, ⟨'c', ⟨2, [2, 0]⟩⟩, ⟨'d', ⟨2, [2, 0]⟩⟩]
    candidates ≠ [] ∧ choose? .greedy candidates = some 1 ∧ Uniform candidates ∧
      (ranked .greedy candidates).map (·.value) = ['b', 'c', 'd', 'a'] ∧
      ranked .greedy candidates = candidates.mergeSort (precedes .greedy) := by
  intro candidates
  have huniform : Uniform candidates := by
    unfold Uniform candidates
    decide
  obtain ⟨-, -, -, hsort⟩ := ranked_sorts .greedy candidates
  exact ⟨List.cons_ne_nil _ _, by decide, huniform, by decide +kernel, hsort huniform⟩

end Candidate

end StringMachines
