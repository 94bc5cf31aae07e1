import StringMachines.Word

/-!
# Occurrences of one word in another

Occurrences may overlap: `aa` occurs twice in `aaa`. `Word.occurrences` lists them from left to
right, each with the rest of the text from there on, so that an occurrence can be compared with
the next one without going back to the start of the text.
-/

namespace StringMachines

/-- A place in a text: its position, and what stands from there on. -/
structure Occurrence where
  position : Nat
  rest : Word
deriving DecidableEq, Repr

namespace Word

/-- Whether `needle` occurs in the text. -/
def occursIn (needle : Word) : Word → Bool
  | [] => needle.isEmpty
  | c :: w => needle.isPrefixOf (c :: w) || occursIn needle w

/-- The occurrences of `needle` in the text that starts at `position`. -/
def occurrencesFrom (needle : Word) (position : Nat) : Word → List Occurrence
  | [] => if needle.isEmpty then [⟨position, []⟩] else []
  | c :: w =>
    if needle.isPrefixOf (c :: w) then
      ⟨position, c :: w⟩ :: occurrencesFrom needle (position + 1) w
    else occurrencesFrom needle (position + 1) w

/-- The occurrences of `needle` in the text, from left to right. -/
def occurrences (needle text : Word) : List Occurrence :=
  occurrencesFrom needle 0 text

/-- An occurrence starts inside the text and ends there. -/
theorem position_of_mem_occurrencesFrom {needle text : Word} {start : Nat} {o : Occurrence}
    (h : o ∈ occurrencesFrom needle start text) :
    start ≤ o.position ∧ o.position + needle.length ≤ start + text.length := by
  induction text generalizing start with
  | nil =>
    rw [occurrencesFrom] at h
    split at h
    · next hempty =>
      rw [List.isEmpty_iff.1 hempty]
      simp_all
    · simp at h
  | cons c w ih =>
    rw [occurrencesFrom] at h
    split at h
    · next hpre =>
      have hlen := (List.isPrefixOf_iff_prefix.1 hpre).length_le
      cases h with
      | head => exact ⟨Nat.le_refl _, by simp only; omega⟩
      | tail _ h =>
        have := ih h
        simp only [List.length_cons]
        omega
    · have := ih h
      simp only [List.length_cons]
      omega

/-- The text without the `length` characters from `position` on. -/
def removeAt (text : Word) (position length : Nat) : Word :=
  text.take position ++ text.drop (position + length)

/-- Removing characters that are there makes a text shorter by as many. -/
theorem length_removeAt {text : Word} {position length : Nat}
    (h : position + length ≤ text.length) :
    (removeAt text position length).length = text.length - length := by
  simp only [removeAt, List.length_append, List.length_take, List.length_drop]
  omega

end Word

namespace Occurrence

/-- Whether removing `length` characters at the one place leaves the same text as removing as
many at the other, further on. What differs between the two texts is the part between the places:
it stands where it was, or `length` characters earlier. -/
def sameRemoval (length : Nat) (here there : Occurrence) : Bool :=
  let distance := there.position - here.position
  here.rest.take distance == (here.rest.drop length).take distance

/-- Leaves out a place when removing there gives the same text as removing at the place before
it. -/
def distinctFrom (length : Nat) (before : Occurrence) : List Occurrence → List Occurrence
  | [] => []
  | o :: rest =>
    if before.sameRemoval length o then distinctFrom length o rest
    else o :: distinctFrom length o rest

/-- The places whose removal gives different texts, each text at its first place. -/
def distinct (length : Nat) : List Occurrence → List Occurrence
  | [] => []
  | o :: rest => o :: distinctFrom length o rest

/-- No place is added. -/
theorem mem_of_mem_distinctFrom {length : Nat} {before o : Occurrence} {os : List Occurrence}
    (h : o ∈ distinctFrom length before os) : o ∈ os := by
  induction os generalizing before with
  | nil => simp [distinctFrom] at h
  | cons p os ih =>
    rw [distinctFrom] at h
    split at h
    · exact List.mem_cons_of_mem _ (ih h)
    · cases h with
      | head => exact List.mem_cons_self
      | tail _ h => exact List.mem_cons_of_mem _ (ih h)

/-- No place is added. -/
theorem mem_of_mem_distinct {length : Nat} {o : Occurrence} {os : List Occurrence}
    (h : o ∈ distinct length os) : o ∈ os := by
  cases os with
  | nil => simp [distinct] at h
  | cons p os =>
    cases h with
    | head => exact List.mem_cons_self
    | tail _ h => exact List.mem_cons_of_mem _ (mem_of_mem_distinctFrom h)

end Occurrence

end StringMachines
