import Mathlib.Data.List.Chain
import StringMachines.Proofs.Pattern.ViablePrefix

/-!
# Greedy and lazy report the extreme match levels

The match level that a comparison reports is the number of atoms of the beginning that the
candidate fits, so it grows with the beginning. The greedy comparison goes through all beginnings
from the shortest on. The lazy one goes from the longest down and passes over those that part an
atom from its operator; but what fits such a beginning fits the one with the operator too, and that
one has no more atoms (`Pattern.exists_mem_cuts`). Hence the first beginning that fits has the
lowest match level of all, or the highest (`Pattern.levels?_extreme`).
-/

namespace StringMachines

/-! ## The order of match levels -/

namespace Quantifier

/-- The order in which match levels come: ascending for greedy, descending for lazy. -/
def levelLE : Quantifier → Nat → Nat → Bool
  | greedy, m, n => m ≤ n
  | lazy, m, n => n ≤ m

@[simp] theorem levelLE_refl (quantifier : Quantifier) (n : Nat) :
    quantifier.levelLE n n = true := by
  cases quantifier <;> simp [levelLE]

/-- A function that does not decrease keeps the order. -/
theorem levelLE_of_monotone {quantifier : Quantifier} {f : Nat → Nat} (hf : Monotone f) {m n : Nat}
    (h : quantifier.levelLE m n = true) : quantifier.levelLE (f m) (f n) = true := by
  cases quantifier <;> simp only [levelLE, decide_eq_true_eq] at * <;> exact hf h

end Quantifier

/-- An item is written with one atom. -/
theorem Item.countP_tokens (item : Item) :
    item.tokens.countP (fun token => !token.isOperator) = 1 := by
  rcases item.tokens_cases with ⟨-, h⟩ | ⟨op, -, h⟩ <;> simp [h, Token.isOperator]

namespace Pattern

/-! ## The beginnings that a candidate fits -/

/-- The lengths of the beginnings that a candidate fits, whether a comparison looks at them or
not. -/
def fits (tokens : List Token) (candidate : Word) : Set Nat :=
  {k | 1 ≤ k ∧ k ≤ tokens.length ∧ (possibleMatch? (tokens.take k) candidate).isSome = true}

/-- The match levels of a candidate for all the beginnings that it fits. -/
def fittingLevels (tokens : List Token) (candidate : Word) : Set Nat :=
  {level | ∃ k ∈ fits tokens candidate, ∃ levels,
    possibleMatch? (tokens.take k) candidate = some levels ∧ levels.matchLevel = level}

/-- How many atoms the beginning of a given length has. -/
def atomsUpTo (tokens : List Token) (k : Nat) : Nat :=
  (tokens.take k).countP fun token => !token.isOperator

/-- A longer beginning has no fewer atoms. -/
theorem monotone_atomsUpTo (tokens : List Token) : Monotone (atomsUpTo tokens) := by
  intro k k' hle
  exact (List.take_prefix_take_left hle).sublist.countP_le

/-- The match level of a candidate is the number of atoms of the beginning that it fits. -/
theorem matchLevel_of_possibleMatch? {tokens : List Token} {candidate : Word} {k : Nat}
    {levels : Levels} (h : possibleMatch? (tokens.take k) candidate = some levels) :
    levels.matchLevel = atomsUpTo tokens k := by
  obtain ⟨captures, -, rfl⟩ := Option.map_eq_some_iff.1 h
  rfl

/-- The match levels of a candidate are the numbers of atoms of the beginnings that it fits. -/
theorem mem_fittingLevels_iff {tokens : List Token} {candidate : Word} {level : Nat} :
    level ∈ fittingLevels tokens candidate ↔
      ∃ k ∈ fits tokens candidate, atomsUpTo tokens k = level := by
  refine exists_congr fun k => and_congr_right fun hk => ?_
  obtain ⟨levels, hlevels⟩ := Option.isSome_iff_exists.1 hk.2.2
  constructor
  · intro h
    obtain ⟨levels', h', rfl⟩ := h
    exact (matchLevel_of_possibleMatch? h').symm
  · intro h
    exact ⟨levels, hlevels, (matchLevel_of_possibleMatch? hlevels).trans h⟩

/-- What fits a beginning fits one that is compared and has as many atoms. -/
theorem exists_mem_cuts (p : Pattern) (quantifier : Quantifier) {candidate : Word} {k : Nat}
    (hk : k ∈ fits p.tokens candidate) :
    ∃ k' ∈ cuts p.tokens quantifier, k' ∈ fits p.tokens candidate ∧
      atomsUpTo p.tokens k' = atomsUpTo p.tokens k := by
  obtain ⟨hpos, hle, hfits⟩ := hk
  rw [p.tokens_eq] at hle
  obtain ⟨before, item, later, hitems, htake⟩ := Item.take_flatMap_tokens hpos hle
  rw [← p.tokens_eq] at htake
  -- The beginning up to the end of the item in which the given one ends.
  have hcut := length_mem_cuts before item later quantifier
  rw [← hitems, ← p.tokens_eq] at hcut
  have hwhole : p.tokens.take (before.flatMap Item.tokens ++ item.tokens).length =
      before.flatMap Item.tokens ++ item.tokens := by
    rw [p.tokens_eq, hitems, List.flatMap_append, List.flatMap_cons, ← List.append_assoc,
      List.take_left]
  refine ⟨_, hcut, ⟨(le_of_mem_cuts hcut).1, (le_of_mem_cuts hcut).2, ?_⟩, ?_⟩
  · rw [hwhole]
    rcases htake with htake | htake
    · rw [htake] at hfits
      exact hfits
    · rw [htake, possibleMatch?_isSome_iff] at hfits
      exact possibleMatch?_isSome_iff.2 (mul_le_mul_right item.onceOnly_le _ hfits)
  · rw [atomsUpTo, atomsUpTo, hwhole]
    rcases htake with htake | htake <;> rw [htake]
    -- The operator that the given beginning leaves out is no atom.
    rw [List.countP_append, List.countP_append, Item.countP_tokens, Item.countP_tokens]

/-! ## The first beginning that fits -/

/-- Cutting from the back goes from longer to shorter beginnings. -/
theorem pairwise_cutsFromBack (tokens : List Token) (n : Nat) :
    (cutsFromBack tokens n).Pairwise (· > ·) := by
  fun_induction cutsFromBack tokens n with
  | case1 => exact .nil
  | case2 => simp
  | case3 n ih₁ ih₂ =>
    refine List.pairwise_cons.2 ⟨fun k hk => ?_, ?_⟩
    · split at hk <;> have := le_of_mem_cutsFromBack hk <;> omega
    · split
      · exact ih₁
      · exact ih₂

/-- The beginnings are compared in the order of the match levels. -/
theorem pairwise_cuts (tokens : List Token) (quantifier : Quantifier) :
    (cuts tokens quantifier).Pairwise fun k k' => quantifier.levelLE k k' = true := by
  cases quantifier with
  | greedy =>
    refine (List.pairwise_lt_range' (s := 1) (n := tokens.length)).imp fun hlt => ?_
    exact decide_eq_true (Nat.le_of_lt hlt)
  | lazy =>
    refine (pairwise_cutsFromBack tokens tokens.length).imp fun hgt => ?_
    exact decide_eq_true (Nat.le_of_lt hgt)

/-- There are no levels exactly when no beginning fits. -/
theorem levels?_eq_none_iff (p : Pattern) (quantifier : Quantifier) (candidate : Word) :
    levels? p.tokens quantifier candidate = none ↔ fits p.tokens candidate = ∅ := by
  rw [levels?, List.findSome?_eq_none_iff, Set.eq_empty_iff_forall_notMem]
  constructor
  · intro hnone k hk
    obtain ⟨k', hcut, hfits, -⟩ := p.exists_mem_cuts quantifier hk
    have hsome := hfits.2.2
    rw [hnone k' hcut] at hsome
    cases hsome
  · intro hempty k hcut
    obtain ⟨hpos, hle⟩ := le_of_mem_cuts hcut
    rw [← Option.not_isSome_iff_eq_none]
    exact fun hsome => hempty k ⟨hpos, hle, hsome⟩

/-- The levels of a candidate are those of a beginning that it fits, and the match level comes
before those of all other beginnings that it fits. -/
theorem levelLE_of_levels? (p : Pattern) {quantifier : Quantifier} {candidate : Word}
    {levels : Levels} (h : levels? p.tokens quantifier candidate = some levels) :
    levels.matchLevel ∈ fittingLevels p.tokens candidate ∧
      ∀ level ∈ fittingLevels p.tokens candidate,
        quantifier.levelLE levels.matchLevel level = true := by
  obtain ⟨passed, k, left, hcuts, hk, hpassed⟩ := List.findSome?_eq_some_iff.1 h
  have hcut : k ∈ cuts p.tokens quantifier := by simp [hcuts]
  have hfits : k ∈ fits p.tokens candidate :=
    ⟨(le_of_mem_cuts hcut).1, (le_of_mem_cuts hcut).2, by simp [hk]⟩
  refine ⟨⟨k, hfits, levels, hk, rfl⟩, fun level hlevel => ?_⟩
  obtain ⟨k₀, hk₀, rfl⟩ := mem_fittingLevels_iff.1 hlevel
  obtain ⟨k', hcut', hfits', hatoms⟩ := p.exists_mem_cuts quantifier hk₀
  rw [matchLevel_of_possibleMatch? hk, ← hatoms]
  -- A beginning that fits is not among those that were passed over.
  have hmem : k' ∈ k :: left := by
    rw [hcuts, List.mem_append] at hcut'
    refine hcut'.resolve_left fun hmem => ?_
    have hsome := hfits'.2.2
    rw [hpassed k' hmem] at hsome
    cases hsome
  have hordered := pairwise_cuts p.tokens quantifier
  rw [hcuts, List.pairwise_append, List.pairwise_cons] at hordered
  refine Quantifier.levelLE_of_monotone (monotone_atomsUpTo p.tokens) ?_
  rcases List.mem_cons.1 hmem with rfl | hmem
  · exact quantifier.levelLE_refl k'
  · exact hordered.2.1.1 k' hmem

/-! ## The lengths that the lazy comparison goes through -/

/-- How many tokens a beginning of length `k` loses when it is shortened: an operator goes together
with the token before it. -/
def dropped (tokens : List Token) (k : Nat) : Nat :=
  if tokens[k - 1]?.any Token.isOperator then 2 else 1

/-- Cutting from the back starts with all `n` tokens and comes down to none, by what is dropped
each time, when the first token is no operator. -/
theorem isChain_cutsFromBack {tokens : List Token}
    (h : ¬ tokens[0]?.any Token.isOperator = true) (n : Nat) :
    (cutsFromBack tokens n ++ [0]).head? = some n ∧
      (cutsFromBack tokens n ++ [0]).IsChain fun k k' => k = k' + dropped tokens k := by
  fun_induction cutsFromBack tokens n with
  | case1 => exact ⟨rfl, .singleton 0⟩
  | case2 =>
    refine ⟨rfl, List.isChain_cons_cons.2 ⟨?_, .singleton 0⟩⟩
    show 1 = 0 + dropped tokens 1
    rw [dropped, if_neg h]
  | case3 n ih₁ ih₂ =>
    refine ⟨rfl, ?_⟩
    rw [List.cons_append, List.isChain_cons]
    have hdropped : dropped tokens (n + 2) =
        if tokens[n + 1]?.any Token.isOperator then 2 else 1 := rfl
    split
    · next hop =>
      refine ⟨fun k hk => ?_, ih₁.2⟩
      rw [ih₁.1, Option.mem_some_iff] at hk
      rw [hdropped, if_pos hop, hk]
    · next hop =>
      refine ⟨fun k hk => ?_, ih₂.2⟩
      rw [ih₂.1, Option.mem_some_iff] at hk
      rw [hdropped, if_neg hop, ← hk]

/-- **Greedy and lazy report the extreme match levels.** Over all beginnings of a pattern that a
candidate fits, the greedy comparison reports the lowest match level and the lazy one the highest,
and both report nothing exactly when no beginning fits. The lengths that the lazy comparison goes
through come down from that of the pattern to zero, each time by exactly as many tokens as are
dropped. -/
theorem levels?_extreme (p : Pattern) (candidate : Word) :
    (levels? p.tokens .greedy candidate = none ↔ fits p.tokens candidate = ∅) ∧
      (levels? p.tokens .lazy candidate = none ↔ fits p.tokens candidate = ∅) ∧
      (∀ levels, levels? p.tokens .greedy candidate = some levels →
        IsLeast (fittingLevels p.tokens candidate) levels.matchLevel) ∧
      (∀ levels, levels? p.tokens .lazy candidate = some levels →
        IsGreatest (fittingLevels p.tokens candidate) levels.matchLevel) ∧
      (cuts p.tokens .lazy ++ [0]).head? = some p.tokens.length ∧
      (cuts p.tokens .lazy ++ [0]).IsChain fun k k' => k = k' + dropped p.tokens k := by
  refine ⟨p.levels?_eq_none_iff .greedy candidate, p.levels?_eq_none_iff .lazy candidate,
    fun levels h => ?_, fun levels h => ?_, isChain_cutsFromBack p.head_not_isOperator _⟩
  · obtain ⟨hmem, hfirst⟩ := p.levelLE_of_levels? h
    exact ⟨hmem, fun level hlevel => of_decide_eq_true (hfirst level hlevel)⟩
  · obtain ⟨hmem, hfirst⟩ := p.levelLE_of_levels? h
    exact ⟨hmem, fun level hlevel => of_decide_eq_true (hfirst level hlevel)⟩

/-- Of the beginnings of `(ab)+[a-f]+`, the first that `aba` fits is `(ab)+`, partway through its
second repetition, and the last is the whole pattern. -/
theorem levels?_extreme_aba : ∃ p : Pattern, parse "(ab)+[a-f]+".toList = .ok p ∧
    levels? p.tokens .greedy "aba".toList = some ⟨1, [1, 1]⟩ ∧
    IsLeast (fittingLevels p.tokens "aba".toList) 1 ∧
    levels? p.tokens .lazy "aba".toList = some ⟨2, [1]⟩ ∧
    IsGreatest (fittingLevels p.tokens "aba".toList) 2 := by
  have hread : Token.read "(ab)+[a-f]+".toList =
      [.atom (.group [['a', 'b']]), .operator .plus, .atom (.charClass [.range 'a' 'f']),
        .operator .plus] := by
    simp [Token.read, Word.upTo, Word.beyond, List.splitOn_cons_eq_if_modifyHead, CharClass.ofBody]
  obtain ⟨p, hparse, htokens⟩ := exists_parse_of_read hread ⟨'(', by simp, by decide⟩ (by decide)
    (by decide) (by decide)
  obtain ⟨-, -, hgreedy, hlazy, -⟩ := levels?_extreme p "aba".toList
  have hleast : levels? p.tokens .greedy "aba".toList = some ⟨1, [1, 1]⟩ := by
    rw [htokens]
    decide +kernel
  have hgreatest : levels? p.tokens .lazy "aba".toList = some ⟨2, [1]⟩ := by
    rw [htokens]
    decide +kernel
  exact ⟨p, hparse, hleast, hgreedy _ hleast, hgreatest, hlazy _ hgreatest⟩

end Pattern

end StringMachines
