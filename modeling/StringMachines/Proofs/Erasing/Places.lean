import Mathlib.Data.List.Destutter
import StringMachines.Erasing.Run
import StringMachines.Proofs.Word.Removal

/-!
# The places at which a string is tried

A run looks up the positions at which it removes a string by comparing occurrences
(`ErasingSystem.positions`). They can be told by the tapes alone. Of the places where the string
stands (`Word.placesIn`), all or only the first one (`PositionMode.select`), a place is passed over
when removing the string there leaves the tape that the place taken before it has left
(`Word.freshPlaces`). These are the same positions (`ErasingSystem.positions_eq_freshPlaces`), and
the tapes that they leave are those of all places with immediate repetitions left out
(`Word.map_removeAt_freshPlaces`).
-/

namespace StringMachines

/-- The places that are tried, out of all places from left to right. -/
def PositionMode.select {α : Type} : PositionMode → List α → List α
  | all, places => places
  | first, places => places.take 1

/-- No place is added by selecting. -/
theorem PositionMode.select_sublist {α : Type} (mode : PositionMode) (places : List α) :
    (mode.select places).Sublist places := by
  cases mode with
  | all => exact List.Sublist.refl _
  | first => exact List.take_sublist 1 _

namespace Word

/-- The positions at which a word stands in a text, ascending. -/
def placesIn (needle text : Word) : List Nat :=
  (List.range (text.length + 1)).filter fun position => needle.isPrefixOf (text.drop position)

/-- The places where a removal does not leave the text that is left by the place taken before;
`last?` is that text, if there is such a place. -/
def freshPlaces (text : Word) (length : Nat) (last? : Option Word) : List Nat → List Nat
  | [] => []
  | place :: places =>
    if last? = some (text.removeAt place length) then freshPlaces text length last? places
    else place :: freshPlaces text length (some (text.removeAt place length)) places

variable {needle text : Word} {length : Nat}

/-- A place leaves room for the word. -/
theorem le_length_of_mem_placesIn {position : Nat} (h : position ∈ needle.placesIn text) :
    position + needle.length ≤ text.length := by
  obtain ⟨hrange, hprefix⟩ := List.mem_filter.1 h
  have hlength := (List.isPrefixOf_iff_prefix.1 hprefix).length_le
  have hposition := List.mem_range.1 hrange
  rw [List.length_drop] at hlength
  omega

/-- A word stands in front of a text, or at a place of the rest. -/
theorem placesIn_cons (needle : Word) (c : Char) (w : Word) :
    needle.placesIn (c :: w) =
      (if needle.isPrefixOf (c :: w) then [0] else []) ++ (needle.placesIn w).map (· + 1) := by
  have hbehind : (fun position => needle.isPrefixOf ((c :: w).drop position)) ∘ Nat.succ =
      fun position => needle.isPrefixOf (w.drop position) := rfl
  rw [placesIn, List.length_cons, List.range_succ_eq_map, List.filter_cons, List.filter_map,
    hbehind, List.drop_zero]
  split
  · rfl
  · rfl

/-- The occurrences of a word stand at its places. -/
theorem map_position_occurrencesFrom (needle text : Word) (start : Nat) :
    (occurrencesFrom needle start text).map (·.position) =
      (needle.placesIn text).map (start + ·) := by
  induction text generalizing start with
  | nil => cases needle <;> rfl
  | cons c w ih =>
    rw [placesIn_cons, occurrencesFrom]
    split
    · simp [ih, Nat.add_assoc, Nat.add_comm 1]
    · simp [ih, Nat.add_assoc, Nat.add_comm 1]

/-- The occurrences of a word in a text stand at its places. -/
theorem map_position_occurrences (needle text : Word) :
    (needle.occurrences text).map (·.position) = needle.placesIn text := by
  rw [occurrences, map_position_occurrencesFrom]
  simp

/-- Behind the place `before`, the distinct occurrences are at the fresh places. -/
theorem freshPlaces_map_behind {before : Occurrence} {os : List Occurrence}
    (hplaces : ∀ o ∈ before :: os, o.IsPlaceIn text)
    (hsorted : (before :: os).Pairwise (·.position < ·.position)) :
    text.freshPlaces length (some (text.removeAt before.position length)) (os.map (·.position)) =
      (Occurrence.distinctFrom length before os).map (·.position) := by
  induction os generalizing before with
  | nil => rfl
  | cons o os ih =>
    obtain ⟨hbefore, hplaces'⟩ := List.forall_mem_cons.1 hplaces
    obtain ⟨hlt, hsorted'⟩ := List.pairwise_cons.1 hsorted
    have hlater := ih hplaces' hsorted'
    have hsame : before.sameRemoval length o = true ↔
        some (text.removeAt before.position length) = some (text.removeAt o.position length) := by
      rw [Option.some_inj]
      exact Occurrence.sameRemoval_iff hbefore (hplaces' o List.mem_cons_self)
        (Nat.le_of_lt (hlt o List.mem_cons_self))
    rw [List.map_cons, freshPlaces, Occurrence.distinctFrom]
    by_cases hskip : before.sameRemoval length o = true
    · -- The place leaves the text that is remembered, so it can stand for the place before it.
      rw [if_pos hskip, if_pos (hsame.1 hskip), hsame.1 hskip]
      exact hlater
    · rw [if_neg hskip, if_neg (mt hsame.2 hskip), hlater, List.map_cons]

/-- The distinct occurrences are at the fresh places. -/
theorem freshPlaces_map {os : List Occurrence} (hplaces : ∀ o ∈ os, o.IsPlaceIn text)
    (hsorted : os.Pairwise (·.position < ·.position)) :
    text.freshPlaces length none (os.map (·.position)) =
      (Occurrence.distinct length os).map (·.position) := by
  cases os with
  | nil => rfl
  | cons o os =>
    rw [List.map_cons, freshPlaces, if_neg (by simp), freshPlaces_map_behind hplaces hsorted]
    rfl

/-- Passing over a place is leaving out a text that is the one just before it. -/
theorem cons_map_removeAt_freshPlaces (last : Word) (places : List Nat) :
    last :: (text.freshPlaces length (some last) places).map (text.removeAt · length) =
      List.destutter' (· ≠ ·) last (places.map (text.removeAt · length)) := by
  induction places generalizing last with
  | nil => rfl
  | cons place places ih =>
    rw [freshPlaces, List.map_cons]
    by_cases hlast : last = text.removeAt place length
    · rw [if_pos (congrArg some hlast), List.destutter'_cons_neg _ (not_not.2 hlast), ih]
    · rw [if_neg (mt Option.some.inj hlast), List.destutter'_cons_pos _ hlast, List.map_cons, ih]

/-- The fresh places leave what all places leave, each text left out that is the one just before
it. -/
theorem map_removeAt_freshPlaces (places : List Nat) :
    (text.freshPlaces length none places).map (text.removeAt · length) =
      (places.map (text.removeAt · length)).destutter (· ≠ ·) := by
  cases places with
  | nil => rfl
  | cons place places =>
    rw [freshPlaces, if_neg (by simp), List.map_cons, cons_map_removeAt_freshPlaces]
    rfl

end Word

namespace ErasingSystem

/-- The positions at which a string is removed are the distinct ones of those selected. -/
theorem positions_eq_distinct (mode : PositionMode) (string tape : Word) :
    positions mode string tape =
      (Occurrence.distinct string.length (mode.select (string.occurrences tape))).map
        (·.position) := by
  cases mode with
  | all => rfl
  | first =>
    cases hoccurrences : string.occurrences tape with
    | nil => simp [positions, PositionMode.select, Occurrence.distinct, hoccurrences]
    | cons o os =>
      simp [positions, PositionMode.select, Occurrence.distinct, Occurrence.distinctFrom,
        hoccurrences]

/-- The positions at which a string is removed are the fresh ones of the places selected. -/
theorem positions_eq_freshPlaces (mode : PositionMode) (string tape : Word) :
    positions mode string tape =
      tape.freshPlaces string.length none (mode.select (string.placesIn tape)) := by
  have hsublist := mode.select_sublist (string.occurrences tape)
  have hselect : mode.select (string.placesIn tape) =
      (mode.select (string.occurrences tape)).map (·.position) := by
    rw [← Word.map_position_occurrences]
    cases mode with
    | all => rfl
    | first => exact List.map_take.symm
  rw [positions_eq_distinct, hselect]
  refine (Word.freshPlaces_map (fun o ho => ?_) ?_).symm
  · exact Word.isPlaceIn_of_mem_occurrences (hsublist.subset ho)
  · exact (Word.occurrences_pairwise string tape).sublist hsublist

end ErasingSystem

end StringMachines
