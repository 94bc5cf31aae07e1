import Mathlib.Computability.Language
import StringMachines.Pattern.Item

/-!
# The language of a pattern

What a pattern means, without reference to how it is matched: an atom denotes the words it can
take once, the last operator of the run directly behind it says how often it takes them, and a
sequence of tokens concatenates. The matcher of `StringMachines.Pattern.Segmentation` works on
items and looks for the pieces at the front of a text; `Pattern.language_eq` ties the items to the
tokens, `Atom.mem_pieces_iff` the pieces to the words of the atom, and `CharClass.contains_iff` the
test of a character to the characters of a class.
-/

open Computability

namespace StringMachines

/-- The characters that an entry of a class stands for. -/
def ClassItem.chars : ClassItem → Set Char
  | single c => {c}
  | range lo hi => {d | lo ≤ d ∧ d ≤ hi}

/-- The characters of a class are those of its entries. -/
def CharClass.chars (items : CharClass) : Set Char :=
  {d | ∃ item ∈ items, d ∈ item.chars}

/-- The words an atom takes once. The empty alternative of a group is never taken. -/
def Atom.language : Atom → Language Char
  | literal c => {[c]}
  | group alternatives => {w | w ∈ alternatives ∧ w ≠ []}
  | charClass items => {w | ∃ c ∈ items.chars, w = [c]}

/-- The words an item takes. -/
def Item.language (item : Item) : Language Char :=
  match item.repetition with
  | .once => item.atom.language
  | .zeroOrMore => item.atom.language∗
  | .oneOrMore => item.atom.language * item.atom.language∗

/-- The words of a sequence of items: a word of the first, then one of the second, and so on. -/
def Item.languageOf (items : List Item) : Language Char :=
  (items.map Item.language).prod

/-- The run of operators at the front of some tokens. -/
def Token.leadingOperators : List Token → List Operator
  | .operator op :: tokens => op :: leadingOperators tokens
  | _ => []

/-- The words an atom takes when the given tokens stand behind it. -/
def Atom.repeated (a : Atom) (behind : List Token) : Language Char :=
  match (Token.leadingOperators behind).getLast? with
  | none => a.language
  | some .star => a.language∗
  | some .plus => a.language * a.language∗

/-- The words that a sequence of tokens matches. Operators take nothing themselves, and those in
front of the first atom repeat nothing either. -/
def Pattern.language : List Token → Language Char
  | [] => 1
  | .operator _ :: tokens => language tokens
  | .atom a :: tokens => a.repeated tokens * language tokens

/-- The matcher looks for the characters of an entry. -/
theorem ClassItem.contains_iff {item : ClassItem} {d : Char} :
    item.contains d = true ↔ d ∈ item.chars := by
  cases item with
  | single c => exact beq_iff_eq.trans eq_comm
  | range lo hi =>
    rw [contains, Bool.and_eq_true, decide_eq_true_iff, decide_eq_true_iff]
    rfl

/-- The matcher looks for the characters of a class. -/
theorem CharClass.contains_iff {items : CharClass} {d : Char} :
    items.contains d = true ↔ d ∈ items.chars := by
  rw [contains, List.any_eq_true]
  exact exists_congr fun item => and_congr_right fun _ => ClassItem.contains_iff

namespace Item

/-- An item that is taken once has the words of its atom. -/
theorem language_once {item : Item} (h : item.repetition = .once) :
    item.language = item.atom.language := by
  simp only [language, h]

/-- An item that is taken any number of times. -/
theorem language_zeroOrMore {item : Item} (h : item.repetition = .zeroOrMore) :
    item.language = item.atom.language∗ := by
  simp only [language, h]

/-- An item that is taken at least once. -/
theorem language_oneOrMore {item : Item} (h : item.repetition = .oneOrMore) :
    item.language = item.atom.language * item.atom.language∗ := by
  simp only [language, h]

@[simp] theorem languageOf_nil : languageOf [] = 1 :=
  rfl

@[simp] theorem languageOf_cons (item : Item) (items : List Item) :
    languageOf (item :: items) = item.language * languageOf items := by
  simp [languageOf]

@[simp] theorem languageOf_append (items items' : List Item) :
    languageOf (items ++ items') = languageOf items * languageOf items' := by
  simp [languageOf]

/-- The last of the leading operators decides. -/
theorem repetitionAfter_eq (current : Repetition) (tokens : List Token) :
    repetitionAfter current tokens =
      ((Token.leadingOperators tokens).getLast?.map Operator.repetition).getD current := by
  induction tokens generalizing current with
  | nil => rfl
  | cons t tokens ih =>
    cases t with
    | atom a => rfl
    | operator op =>
      rw [repetitionAfter, ih, Token.leadingOperators, List.getLast?_cons]
      cases (Token.leadingOperators tokens).getLast? with
      | none => rfl
      | some last => rfl

/-- An item has the words that its atom takes in front of the tokens behind it. -/
theorem language_repetitionAfter (a : Atom) (behind : List Token) :
    language ⟨a, repetitionAfter .once behind⟩ = a.repeated behind := by
  rw [repetitionAfter_eq, Atom.repeated]
  rcases (Token.leadingOperators behind).getLast? with _ | _ | _
  · rfl
  · rfl
  · rfl

end Item

/-- The words of some tokens are those of the items read off them. -/
theorem Pattern.language_eq (tokens : List Token) :
    language tokens = Item.languageOf (Item.ofTokens tokens) := by
  induction tokens with
  | nil => rfl
  | cons t tokens ih =>
    cases t with
    | operator op => exact ih
    | atom a =>
      rw [language, Item.ofTokens, Item.languageOf_cons, Item.language_repetitionAfter, ih]

namespace Atom

@[simp] theorem mem_language_literal {c : Char} {w : Word} :
    w ∈ (literal c).language ↔ w = [c] :=
  Iff.rfl

@[simp] theorem mem_language_group {alternatives : List Word} {w : Word} :
    w ∈ (group alternatives).language ↔ w ∈ alternatives ∧ w ≠ [] :=
  Iff.rfl

@[simp] theorem mem_language_charClass {items : CharClass} {w : Word} :
    w ∈ (charClass items).language ↔ ∃ c ∈ items.chars, w = [c] :=
  Iff.rfl

/-- The pieces an atom takes from the front of a text are its words that the text starts with. -/
theorem mem_pieces_iff {a : Atom} {w piece : Word} :
    piece ∈ a.pieces w ↔ piece ∈ a.language ∧ piece <+: w := by
  cases a with
  | literal c =>
    rw [mem_language_literal]
    cases w with
    | nil =>
      refine ⟨fun h => by simp [pieces] at h, ?_⟩
      rintro ⟨rfl, hpre⟩
      simp at hpre
    | cons d w =>
      rw [pieces]
      split
      · next h => subst h; constructor <;> simp +contextual
      · next h =>
        refine ⟨fun hp => by simp at hp, ?_⟩
        rintro ⟨rfl, hpre⟩
        simp [List.cons_prefix_cons, h] at hpre
  | charClass items =>
    rw [mem_language_charClass]
    cases w with
    | nil =>
      refine ⟨fun h => by simp [pieces] at h, ?_⟩
      rintro ⟨⟨c, -, rfl⟩, hpre⟩
      simp at hpre
    | cons d w =>
      rw [pieces]
      split
      · next h =>
        constructor
        · intro hp
          rw [List.mem_singleton] at hp
          exact ⟨⟨d, CharClass.contains_iff.1 h, hp⟩, by simp [hp]⟩
        · rintro ⟨⟨c, -, rfl⟩, hpre⟩
          simpa [List.cons_prefix_cons] using hpre
      · next h =>
        refine ⟨fun hp => by simp at hp, ?_⟩
        rintro ⟨⟨c, hc, rfl⟩, hpre⟩
        obtain ⟨rfl, -⟩ := List.cons_prefix_cons.1 hpre
        exact absurd (CharClass.contains_iff.2 hc) h
  | group alternatives =>
    simp only [pieces, mem_language_group, List.mem_filter, Bool.and_eq_true, Bool.not_eq_true',
      List.isEmpty_eq_false_iff, List.isPrefixOf_iff_prefix]
    exact and_assoc.symm

end Atom

end StringMachines
