import StringMachines.Pattern.Token

/-!
# Items of a pattern

Matching does not look at tokens one by one but at items: an atom together with how often it is
taken. `Item.ofTokens` reads the items off any list of tokens. An atom takes the last operator of
the run of operators directly after it; operators in front of the first atom repeat nothing and
are passed over.
-/

namespace StringMachines

/-- How often an item is taken. -/
inductive Repetition where
  | once
  | zeroOrMore
  | oneOrMore
deriving DecidableEq, Repr

/-- The repetition that an operator asks for. -/
def Operator.repetition : Operator → Repetition
  | star => .zeroOrMore
  | plus => .oneOrMore

/-- An atom and how often it is taken. -/
structure Item where
  atom : Atom
  repetition : Repetition
deriving DecidableEq, Repr

namespace Item

/-- The repetition left by the operators at the front of `tokens`, starting from `current`. -/
def repetitionAfter (current : Repetition) : List Token → Repetition
  | .operator op :: tokens => repetitionAfter op.repetition tokens
  | _ => current

/-- The items of a list of tokens, in order. -/
def ofTokens : List Token → List Item
  | [] => []
  | .operator _ :: tokens => ofTokens tokens
  | .atom a :: tokens => ⟨a, repetitionAfter .once tokens⟩ :: ofTokens tokens

end Item

/-- The pieces that the atom can take from the front of a text, in the order in which they are
tried: the character itself, or the alternatives in the order they are written. No piece is
empty. -/
def Atom.pieces : Atom → Word → List Word
  | literal _, [] => []
  | literal c, d :: _ => if c = d then [[c]] else []
  | charClass _, [] => []
  | charClass items, d :: _ => if items.contains d then [[d]] else []
  | group alternatives, w => alternatives.filter fun alt => !alt.isEmpty && alt.isPrefixOf w

/-- A piece is a non-empty prefix of the text it is taken from. -/
theorem Atom.mem_pieces {a : Atom} {w piece : Word} (h : piece ∈ a.pieces w) :
    piece ≠ [] ∧ piece <+: w := by
  cases a with
  | literal c =>
    cases w with
    | nil => simp [pieces] at h
    | cons d w =>
      rw [pieces] at h
      split at h
      · next hcd => subst hcd; simp_all
      · simp at h
  | charClass items =>
    cases w with
    | nil => simp [pieces] at h
    | cons d w =>
      rw [pieces] at h
      split at h <;> simp_all
  | group alternatives =>
    simp only [pieces, List.mem_filter, Bool.and_eq_true, Bool.not_eq_true',
      List.isEmpty_eq_false_iff, List.isPrefixOf_iff_prefix] at h
    exact h.2

end StringMachines
