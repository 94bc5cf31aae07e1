/-!
# Sorted lists without repetition

A finite set of characters or words is kept as the strictly ascending list of its members, so
that equal sets are equal lists and the order of a listing is that of the members.
-/

namespace StringMachines.SortedSet

variable {α : Type} [LT α] [DecidableLT α] [DecidableEq α]

/-- Adds a member to an ascending list, unless it is there. -/
def insert (a : α) : List α → List α
  | [] => [a]
  | b :: rest => if a = b then b :: rest else if a < b then a :: b :: rest else b :: insert a rest

/-- The members of a list, ascending and without repetition. -/
def ofList (as : List α) : List α :=
  as.foldl (fun members a => insert a members) []

/-- Adding a member adds that member and no other. -/
theorem mem_insert {a b : α} {as : List α} : b ∈ insert a as ↔ b = a ∨ b ∈ as := by
  induction as with
  | nil => simp [insert]
  | cons c as ih =>
    rw [insert]
    split
    · next h => subst h; simp
    · split
      · simp
      · simp only [List.mem_cons, ih]
        constructor <;> rintro (h | h | h) <;> simp [h]

/-- The set of a list has the members of the list. -/
theorem mem_ofList {a : α} {as : List α} : a ∈ ofList as ↔ a ∈ as := by
  have general (members : List α) :
      a ∈ as.foldl (fun members a => insert a members) members ↔ a ∈ members ∨ a ∈ as := by
    induction as generalizing members with
    | nil => simp
    | cons b as ih =>
      simp only [List.foldl_cons, ih, mem_insert, List.mem_cons]
      constructor
      · rintro ((h | h) | h) <;> simp [h]
      · rintro (h | h | h) <;> simp [h]
  simpa [ofList] using general []

section

variable [Std.Trichotomous (α := α) (· < ·)] [Trans (α := α) (· < ·) (· < ·) (· < ·)]

/-- Adding a member keeps an ascending list ascending. -/
theorem pairwise_insert {a : α} {as : List α} (h : as.Pairwise (· < ·)) :
    (insert a as).Pairwise (· < ·) := by
  induction as with
  | nil => exact List.pairwise_singleton _ a
  | cons b as ih =>
    obtain ⟨hb, has⟩ := List.pairwise_cons.1 h
    rw [insert]
    split
    · exact h
    · next hne =>
      split
      · next hlt =>
        refine List.pairwise_cons.2 ⟨fun c hc => ?_, h⟩
        rcases List.mem_cons.1 hc with rfl | hc
        · exact hlt
        · exact Trans.trans hlt (hb c hc)
      · next hnlt =>
        refine List.pairwise_cons.2 ⟨fun c hc => ?_, ih has⟩
        rcases mem_insert.1 hc with rfl | hc
        · exact Decidable.byContradiction fun hgt =>
            hne (Std.Trichotomous.trichotomous c b hnlt hgt)
        · exact hb c hc

/-- The set of a list is ascending, so that no member is listed twice. -/
theorem pairwise_ofList (as : List α) : (ofList as).Pairwise (· < ·) := by
  have general (members : List α) (h : members.Pairwise (· < ·)) :
      (as.foldl (fun members a => insert a members) members).Pairwise (· < ·) := by
    induction as generalizing members with
    | nil => exact h
    | cons a as ih => exact ih _ (pairwise_insert h)
  exact general [] .nil

end

end StringMachines.SortedSet
