/-!
# Words

Patterns, erasing systems and transducers all work on words: finite sequences of characters, in
which a position counts characters. This module holds the word operations that are not already
those of lists: the part before and after a stop character (`Word.upTo`, `Word.beyond`), and the
proper prefixes of a word. A word is cut at a separator by `List.splitOn`, of which two facts are
added: how many pieces there are (`Word.length_splitOn`) and what they hold
(`Word.exists_mem_splitOn_iff`).
-/

namespace StringMachines

/-- A finite sequence of characters. -/
abbrev Word := List Char

/-- Words are hashed as the lists they are. -/
instance : Hashable Word := @instHashableList Char instHashableChar

namespace Word

/-! ## Cutting at a separator -/

/-- A word cut at a separator has one piece more than separators. -/
theorem length_splitOn (sep : Char) (w : Word) : (w.splitOn sep).length = w.count sep + 1 := by
  induction w with
  | nil => rfl
  | cons c w ih =>
    rw [List.splitOn_cons_eq_if_modifyHead, List.count_cons]
    split
    · rw [List.length_cons, ih]
    · rw [List.length_modifyHead, ih, Nat.add_zero]

/-- The pieces hold what is left of the word without its separators. -/
theorem flatten_splitOn (sep : Char) (w : Word) :
    (w.splitOn sep).flatten = w.filter (· != sep) := by
  induction w with
  | nil => rfl
  | cons c w ih =>
    rw [List.splitOn_cons_eq_if_modifyHead]
    split
    · next h =>
      rw [List.flatten_cons, List.nil_append, ih, List.filter_cons_of_neg (by simpa using h)]
    · next h =>
      rw [List.filter_cons_of_pos (by simpa using h), ← ih]
      obtain ⟨piece, pieces, hpieces⟩ := List.exists_cons_of_ne_nil (List.splitOn_ne_nil sep w)
      rw [hpieces, List.modifyHead_cons, List.flatten_cons, List.flatten_cons, List.cons_append]

/-- A character stands in a piece when it stands in the word and is not the separator. -/
theorem exists_mem_splitOn_iff {sep c : Char} {w : Word} :
    (∃ piece ∈ w.splitOn sep, c ∈ piece) ↔ c ∈ w ∧ c ≠ sep := by
  rw [← List.mem_flatten, flatten_splitOn, List.mem_filter, bne_iff_ne]

/-! ## The parts around a stop character -/

/-- What stands before the first `stop`, or the whole word when there is none. -/
def upTo (stop : Char) (w : Word) : Word :=
  w.takeWhile (· != stop)

/-- What stands after the first `stop`, or nothing when there is none. -/
def beyond (stop : Char) (w : Word) : Word :=
  (w.dropWhile (· != stop)).tail

/-- The part after a stop character is no longer than the word. -/
theorem length_beyond_le (stop : Char) (w : Word) : (beyond stop w).length ≤ w.length := by
  have h := (List.dropWhile_suffix (l := w) (· != stop)).length_le
  simp only [beyond, List.length_tail]
  omega

/-- The characters of a word without the stop character are passed over. -/
theorem bne_of_notMem {stop : Char} {w : Word} (h : stop ∉ w) : ∀ c ∈ w, (c != stop) = true := by
  intro c hc
  exact bne_iff_ne.2 fun heq => h (heq ▸ hc)

/-- The first stop character ends what stands before it. -/
theorem upTo_append_cons {stop : Char} {u : Word} (h : stop ∉ u) (v : Word) :
    upTo stop (u ++ stop :: v) = u := by
  rw [upTo, List.takeWhile_append_of_pos (bne_of_notMem h), List.takeWhile_cons_of_neg (by simp),
    List.append_nil]

/-- What stands behind the first stop character. -/
theorem beyond_append_cons {stop : Char} {u : Word} (h : stop ∉ u) (v : Word) :
    beyond stop (u ++ stop :: v) = v := by
  rw [beyond, List.dropWhile_append_of_pos (bne_of_notMem h), List.dropWhile_cons_of_neg (by simp),
    List.tail_cons]

/-- A word without a stop character stands before it as a whole, and nothing behind it. -/
theorem upTo_beyond_of_notMem {stop : Char} {w : Word} (h : stop ∉ w) :
    upTo stop w = w ∧ beyond stop w = [] := by
  have htake : (w ++ []).takeWhile (· != stop) = w ++ [] :=
    List.takeWhile_append_of_pos (bne_of_notMem h)
  have hdrop : (w ++ []).dropWhile (· != stop) = [] :=
    List.dropWhile_append_of_pos (bne_of_notMem h)
  rw [List.append_nil] at htake hdrop
  exact ⟨htake, by rw [beyond, hdrop, List.tail_nil]⟩

/-! ## Prefixes -/

/-- The prefixes that are neither empty nor the whole word, shortest first. -/
def properPrefixes (w : Word) : List Word :=
  (List.range' 1 (w.length - 1)).map w.take

/-- How many copies of `unit` stand one after another at the front of `w`; none when `unit` is
empty. -/
def copies (unit w : Word) : Nat :=
  if h : unit ≠ [] ∧ unit <+: w then copies unit (w.drop unit.length) + 1 else 0
termination_by w.length
decreasing_by
  obtain ⟨hne, hpre⟩ := h
  have := hpre.length_le
  have := List.length_pos_iff.2 hne
  simp only [List.length_drop]
  omega

/-! ## Lists of words -/

/-- A list without its later repetitions has no repetition. -/
theorem nodup_eraseDups (ws : List Word) : ws.eraseDups.Nodup := by
  match ws with
  | [] => simp
  | w :: ws =>
    rw [List.eraseDups_cons, List.nodup_cons]
    have := List.length_filter_le (fun v => !v == w) ws
    exact ⟨by simp, nodup_eraseDups _⟩
termination_by ws.length

end Word

end StringMachines
