/-!
# Maps in the order of definition

A map that lists its keys in the order in which they were first defined. It is small enough here
to be an association list: `List.lookup` reads it and `OrderedMap.alter` changes it, keeping the
place of a key that is there and putting a new key last.
-/

namespace StringMachines

/-- Keys with their values, in the order in which the keys were first defined. -/
abbrev OrderedMap (κ β : Type) := List (κ × β)

namespace OrderedMap

variable {κ β : Type} [DecidableEq κ]

/-- Applies `f` to the value of `key`, or to `initial` when it has none yet. -/
def alter (key : κ) (initial : β) (f : β → β) : OrderedMap κ β → OrderedMap κ β
  | [] => [(key, f initial)]
  | (k, b) :: rest =>
    if key = k then (k, f b) :: rest else (k, b) :: alter key initial f rest

/-- A key that is not there yet is put last. -/
theorem alter_of_notMem {key : κ} {m : OrderedMap κ β} (h : key ∉ m.map (·.1)) (initial : β)
    (f : β → β) : alter key initial f m = m ++ [(key, f initial)] := by
  induction m with
  | nil => rfl
  | cons entry rest ih =>
    obtain ⟨k, b⟩ := entry
    obtain ⟨hne, hrest⟩ := List.ne_and_not_mem_of_not_mem_cons h
    rw [alter, if_neg hne, ih hrest, List.cons_append]

variable [BEq κ] [LawfulBEq κ]

/-- The altered key has the new value. -/
theorem lookup_alter_self (key : κ) (initial : β) (f : β → β) (m : OrderedMap κ β) :
    (alter key initial f m).lookup key = some (f ((m.lookup key).getD initial)) := by
  induction m with
  | nil => simp [alter]
  | cons entry rest ih =>
    obtain ⟨k, b⟩ := entry
    rw [alter]
    split
    · next h => subst h; simp
    · next h => simp [List.lookup_cons, beq_eq_false_iff_ne.2 h, ih]

/-- Every other key keeps its value. -/
theorem lookup_alter_of_ne {key other : κ} (h : other ≠ key) (initial : β) (f : β → β)
    (m : OrderedMap κ β) : (alter key initial f m).lookup other = m.lookup other := by
  have hbeq : (other == key) = false := beq_eq_false_iff_ne.2 h
  induction m with
  | nil => simp [alter, List.lookup_cons, hbeq]
  | cons entry rest ih =>
    obtain ⟨k, b⟩ := entry
    rw [alter]
    split
    · next hk => subst hk; simp [List.lookup_cons, hbeq]
    · simp only [List.lookup_cons, ih]

end OrderedMap

end StringMachines
