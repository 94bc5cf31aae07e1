import Mathlib.Order.CompletePartialOrder
import StringMachines.Pattern.Language
import StringMachines.Pattern.Validation

/-!
# The shape of a pattern

The tokens that pass the validation are those of a sequence of items, written one after the other:
an atom, or an atom and its operator (`Pattern.tokens_eq`). A beginning of such a sequence ends
with a whole item or between an item's atom and its operator (`Item.take_flatMap_tokens`). No atom
of a pattern is without a word (`Pattern.exists_mem_atom_language`), so that whatever matches a
beginning can be completed (`Item.exists_mem_languageOf`).
-/

open Computability

namespace StringMachines

/-! ## The tokens of an item -/

namespace Item

/-- The tokens that an item is written with. -/
def tokens (item : Item) : List Token :=
  match item.repetition with
  | .once => [.atom item.atom]
  | .zeroOrMore => [.atom item.atom, .operator .star]
  | .oneOrMore => [.atom item.atom, .operator .plus]

/-- The item taken once. -/
def onceOnly (item : Item) : Item :=
  { item with repetition := .once }

/-- An item is written with its atom, and with an operator unless it is taken once. -/
theorem tokens_cases (item : Item) :
    item.repetition = .once ∧ item.tokens = [.atom item.atom] ∨
      ∃ op : Operator, item.repetition = op.repetition ∧
        item.tokens = [.atom item.atom, .operator op] := by
  unfold tokens
  cases hrep : item.repetition with
  | once => exact .inl ⟨rfl, rfl⟩
  | zeroOrMore => exact .inr ⟨.star, rfl, rfl⟩
  | oneOrMore => exact .inr ⟨.plus, rfl, rfl⟩

/-- Operators in front are told apart from what follows by the next atom. -/
theorem repetitionAfter_append_atom (current : Repetition) (ts ts' : List Token) (a : Atom) :
    repetitionAfter current (ts ++ .atom a :: ts') = repetitionAfter current ts := by
  induction ts generalizing current with
  | nil => rfl
  | cons t ts ih =>
    cases t with
    | atom b => rfl
    | operator op => exact ih op.repetition

/-- Where an atom begins, the items before it and those from it on are read apart. -/
theorem ofTokens_append_atom (ts ts' : List Token) (a : Atom) :
    ofTokens (ts ++ .atom a :: ts') = ofTokens ts ++ ofTokens (.atom a :: ts') := by
  induction ts with
  | nil => rfl
  | cons t ts ih =>
    cases t with
    | atom b =>
      rw [List.cons_append, ofTokens, ofTokens, repetitionAfter_append_atom, ih, List.cons_append]
    | operator op =>
      rw [List.cons_append, ofTokens, ofTokens, ih]

/-- The tokens of an item read back as that item. -/
@[simp] theorem ofTokens_tokens (item : Item) : ofTokens item.tokens = [item] := by
  obtain ⟨a, repetition⟩ := item
  cases repetition <;> rfl

/-- Tokens in front of those of an item are read apart from them. -/
theorem ofTokens_append_tokens (ts : List Token) (item : Item) :
    ofTokens (ts ++ item.tokens) = ofTokens ts ++ [item] := by
  rw [← ofTokens_tokens item]
  rcases item.tokens_cases with ⟨-, h⟩ | ⟨op, -, h⟩
  · rw [h]
    exact ofTokens_append_atom ts [] item.atom
  · rw [h]
    exact ofTokens_append_atom ts [.operator op] item.atom

/-- The tokens of some items read back as those items. -/
@[simp] theorem ofTokens_flatMap_tokens (items : List Item) :
    ofTokens (items.flatMap tokens) = items := by
  induction items using List.reverseRecOn with
  | nil => rfl
  | append_singleton items item ih =>
    rw [List.flatMap_append, List.flatMap_singleton, ofTokens_append_tokens, ih]

/-- A beginning of the tokens of some items, unless it is empty, ends with a whole item or with
the atom of an item that has an operator. -/
theorem take_flatMap_tokens {items : List Item} {n : Nat} (hpos : 0 < n)
    (hle : n ≤ (items.flatMap tokens).length) :
    ∃ before item later, items = before ++ item :: later ∧
      ((items.flatMap tokens).take n = before.flatMap tokens ++ item.tokens ∨
        (items.flatMap tokens).take n = before.flatMap tokens ++ item.onceOnly.tokens) := by
  induction items generalizing n with
  | nil => exact absurd hle (Nat.not_le.2 hpos)
  | cons item items ih =>
    rw [List.flatMap_cons, List.length_append] at hle
    rw [List.flatMap_cons]
    rcases Nat.lt_or_ge item.tokens.length n with hlt | hge
    · obtain ⟨before, item', later, rfl, h⟩ :=
        ih (n := n - item.tokens.length) (by omega) (by omega)
      refine ⟨item :: before, item', later, rfl, ?_⟩
      rw [List.take_append, List.take_of_length_le (Nat.le_of_lt hlt), List.flatMap_cons,
        List.append_assoc, List.append_assoc, List.append_right_inj, List.append_right_inj]
      exact h
    · refine ⟨[], item, items, rfl, ?_⟩
      rw [List.take_append_of_le_length hge]
      rcases item.tokens_cases with ⟨-, h⟩ | ⟨op, -, h⟩
      · rw [h, List.length_singleton] at hge
        obtain rfl : n = 1 := by omega
        exact .inl (by rw [h]; rfl)
      · rw [h] at hge
        simp only [List.length_cons, List.length_nil] at hge
        obtain rfl | rfl : n = 1 ∨ n = 2 := by omega
        · exact .inr (by rw [h]; rfl)
        · exact .inl (by rw [h]; rfl)

end Item

/-! ## What the validation lets pass -/

namespace Pattern

@[simp] theorem checkTokens_operator_iff {repeatable : Bool} {op : Operator} {ts : List Token} :
    checkTokens repeatable (.operator op :: ts) = .ok () ↔
      repeatable = true ∧ checkTokens false ts = .ok () := by
  cases repeatable <;> simp [checkTokens]

@[simp] theorem checkTokens_atom_iff {repeatable : Bool} {a : Atom} {ts : List Token} :
    checkTokens repeatable (.atom a :: ts) = .ok () ↔
      checkAtom a = .ok () ∧ checkTokens (mayRepeat (.atom a)) ts = .ok () := by
  rw [checkTokens]
  cases checkAtom a <;> simp

/-- Where no operator may come first, none is read into what stands in front. -/
theorem repetitionAfter_of_checkTokens {ts : List Token} (h : checkTokens false ts = .ok ())
    (current : Repetition) : Item.repetitionAfter current ts = current := by
  cases ts with
  | nil => rfl
  | cons t ts =>
    cases t with
    | atom a => rfl
    | operator op => exact absurd (checkTokens_operator_iff.1 h).1 (by simp)

/-- Tokens that pass when no operator may come first are those of their items. -/
theorem eq_flatMap_of_checkTokens : ∀ {ts : List Token}, checkTokens false ts = .ok () →
    ts = (Item.ofTokens ts).flatMap Item.tokens
  | [], _ => rfl
  | .operator op :: _, h => absurd (checkTokens_operator_iff.1 h).1 (by simp)
  | [.atom a], _ => rfl
  | .atom a :: .atom b :: ts, h => by
    have hrest : checkTokens false (.atom b :: ts) = .ok () :=
      checkTokens_atom_iff.2 (checkTokens_atom_iff.1 (checkTokens_atom_iff.1 h).2)
    rw [Item.ofTokens, List.flatMap_cons, ← eq_flatMap_of_checkTokens hrest]
    rfl
  | .atom a :: .operator op :: ts, h => by
    have hrest := (checkTokens_operator_iff.1 (checkTokens_atom_iff.1 h).2).2
    rw [Item.ofTokens, Item.ofTokens, List.flatMap_cons, ← eq_flatMap_of_checkTokens hrest,
      Item.repetitionAfter, repetitionAfter_of_checkTokens hrest]
    cases op <;> rfl

/-- Every atom that passes has passed on its own. -/
theorem checkAtom_of_mem {a : Atom} {ts : List Token} {repeatable : Bool}
    (hmem : .atom a ∈ ts) (h : checkTokens repeatable ts = .ok ()) : checkAtom a = .ok () := by
  induction ts generalizing repeatable with
  | nil => cases hmem
  | cons t ts ih =>
    cases t with
    | atom b =>
      obtain ⟨hb, hrest⟩ := checkTokens_atom_iff.1 h
      rcases List.mem_cons.1 hmem with heq | hmem
      · cases heq
        exact hb
      · exact ih hmem hrest
    | operator op =>
      rcases List.mem_cons.1 hmem with heq | hmem
      · cases heq
      · exact ih hmem (checkTokens_operator_iff.1 h).2

/-- The checks that a valid text passes. -/
theorem validate_eq_ok_iff {text : Word} : validate text = .ok () ↔
    (∃ c ∈ text.head?, ¬ (c = '*' ∨ c = '+' ∨ c = '|')) ∧
      (∀ s ∈ forbiddenSequences, ¬ s.occursIn text = true) ∧ checkBrackets none text = .ok () ∧
      checkTokens false (Token.read text) = .ok () := by
  cases text with
  | nil => exact ⟨fun h => (by cases h), fun ⟨⟨_, hc, _⟩, _⟩ => (by cases hc)⟩
  | cons c w =>
    have hhead : (∃ d ∈ (c :: w).head?, ¬ (d = '*' ∨ d = '+' ∨ d = '|')) ↔
        ¬ (c = '*' ∨ c = '+' ∨ c = '|') := by simp
    rw [hhead, validate, ← List.filter_eq_nil_iff]
    by_cases hc : c = '*' ∨ c = '+' ∨ c = '|'
    · rw [if_pos hc]
      exact ⟨fun h => (by cases h), fun h => absurd hc h.1⟩
    · rw [if_neg hc]
      cases forbiddenSequences.filter (·.occursIn (c :: w)) with
      | cons s ss => exact ⟨fun h => (by cases h), fun h => (by cases h.2.1)⟩
      | nil =>
        cases checkBrackets none (c :: w) with
        | error e => exact ⟨fun h => (by cases h), fun h => (by cases h.2.2.1)⟩
        | ok => exact ⟨fun h => ⟨hc, rfl, rfl, h⟩, fun h => h.2.2.2⟩

/-- A group that has passed has no empty alternative. -/
theorem ne_nil_of_checkAtom {alternatives : List Word}
    (h : checkAtom (.group alternatives) = .ok ()) : ∀ w ∈ alternatives, w ≠ [] := by
  rw [checkAtom] at h
  split at h
  · cases h
  split at h
  · cases h
  · next hany =>
    intro w hw hnil
    exact hany (List.any_eq_true.2 ⟨w, hw, by rw [hnil]; rfl⟩)

/-- A class that has passed has an entry, and its ranges are the right way round. -/
theorem isReversed_eq_false_of_checkAtom {items : CharClass}
    (h : checkAtom (.charClass items) = .ok ()) :
    items ≠ [] ∧ ∀ item ∈ items, item.isReversed = false := by
  rw [checkAtom] at h
  split at h
  · cases h
  next hempty =>
  split at h
  · cases h
  · next hfind =>
    have hnone : items.find? ClassItem.isReversed = none := by
      cases hfound : items.find? ClassItem.isReversed with
      | none => rfl
      | some found =>
        cases found with
        | single c => exact absurd (List.find?_some hfound) (by simp [ClassItem.isReversed])
        | range lo hi => exact (hfind lo hi hfound).elim
    refine ⟨fun hnil => hempty (by rw [hnil]; rfl), fun item hitem => ?_⟩
    exact Bool.eq_false_iff.2 (List.find?_eq_none.1 hnone item hitem)

end Pattern

/-- An entry that is not a range the wrong way round has a character. -/
theorem ClassItem.exists_mem_chars {item : ClassItem} (h : item.isReversed = false) :
    ∃ c, c ∈ item.chars := by
  cases item with
  | single c => exact ⟨c, rfl⟩
  | range lo hi => exact ⟨lo, Char.le_refl lo, by simpa [isReversed] using h⟩

/-- A group that is read has an alternative. -/
theorem Token.alternatives_ne_nil_of_mem_read {alternatives : List Word} {text : Word}
    (h : .atom (.group alternatives) ∈ read text) : alternatives ≠ [] := by
  fun_induction read text with
  | case1 => cases h
  | case2 w ih =>
    rcases List.mem_cons.1 h with heq | h
    · cases heq
      exact List.splitOn_ne_nil _ _
    · exact ih h
  | case3 w ih | case4 w ih | case5 w ih | case6 c w _ _ _ _ ih =>
    rcases List.mem_cons.1 h with heq | h
    · cases heq
    · exact ih h

/-- An item's atom is one of the tokens that the item is read from. -/
theorem Item.atom_mem_of_mem_ofTokens {item : Item} {ts : List Token} (h : item ∈ ofTokens ts) :
    .atom item.atom ∈ ts := by
  induction ts with
  | nil => cases h
  | cons t ts ih =>
    cases t with
    | operator op => exact List.mem_cons_of_mem _ (ih h)
    | atom a =>
      rcases List.mem_cons.1 h with rfl | h
      · exact List.mem_cons_self
      · exact List.mem_cons_of_mem _ (ih h)

/-! ## Patterns -/

namespace Pattern

/-- Parsing gives the tokens of a valid text. -/
theorem parse_eq_ok_iff {text : Word} {p : Pattern} :
    parse text = .ok p ↔ validate text = .ok () ∧ p.tokens = Token.read text := by
  rw [parse]
  split
  · next e h => simp [h]
  · next h =>
    rw [Except.ok.injEq]
    constructor
    · rintro rfl
      exact ⟨h, rfl⟩
    · rintro ⟨-, htokens⟩
      obtain ⟨tokens, valid⟩ := p
      cases htokens
      rfl

/-- A valid text is parsed as the tokens that are read from it. -/
theorem exists_parse_of_validate {text : Word} (h : validate text = .ok ()) :
    ∃ p, parse text = .ok p ∧ p.tokens = Token.read text :=
  ⟨⟨Token.read text, text, h, rfl⟩, parse_eq_ok_iff.2 ⟨h, rfl⟩, rfl⟩

/-- A text whose tokens are known is parsed as them when it passes the checks. -/
theorem exists_parse_of_read {text : Word} {tokens : List Token} (hread : Token.read text = tokens)
    (hhead : ∃ c ∈ text.head?, ¬ (c = '*' ∨ c = '+' ∨ c = '|'))
    (hforbidden : ∀ s ∈ forbiddenSequences, ¬ s.occursIn text = true)
    (hbrackets : checkBrackets none text = .ok ()) (htokens : checkTokens false tokens = .ok ()) :
    ∃ p, parse text = .ok p ∧ p.tokens = tokens := by
  have hvalid : validate text = .ok () := by
    refine validate_eq_ok_iff.2 ⟨hhead, hforbidden, hbrackets, ?_⟩
    rw [hread]
    exact htokens
  rw [← hread]
  exact exists_parse_of_validate hvalid

/-- The tokens of a pattern pass the check of tokens. -/
theorem checkTokens_tokens (p : Pattern) : checkTokens false p.tokens = .ok () := by
  obtain ⟨text, hvalid, htokens⟩ := p.of_valid_text
  rw [htokens]
  exact (validate_eq_ok_iff.1 hvalid).2.2.2

/-- A pattern does not begin with an operator. -/
theorem head_not_isOperator (p : Pattern) : ¬ p.tokens[0]?.any Token.isOperator = true := by
  have hcheck := p.checkTokens_tokens
  cases htokens : p.tokens with
  | nil => simp
  | cons t ts =>
    rw [htokens] at hcheck
    cases t with
    | atom a => simp [Token.isOperator]
    | operator op => exact absurd (checkTokens_operator_iff.1 hcheck).1 Bool.false_ne_true

/-- The tokens of a pattern are those of its items. -/
theorem tokens_eq (p : Pattern) : p.tokens = (Item.ofTokens p.tokens).flatMap Item.tokens :=
  eq_flatMap_of_checkTokens p.checkTokens_tokens

/-- Every atom of a pattern has a word. -/
theorem exists_mem_atom_language (p : Pattern) {a : Atom} (ha : .atom a ∈ p.tokens) :
    ∃ w, w ∈ a.language := by
  have hcheck := checkAtom_of_mem ha p.checkTokens_tokens
  cases a with
  | literal c => exact ⟨[c], rfl⟩
  | group alternatives =>
    obtain ⟨text, -, htokens⟩ := p.of_valid_text
    obtain ⟨w, hw⟩ :=
      List.exists_mem_of_ne_nil _ (Token.alternatives_ne_nil_of_mem_read (htokens ▸ ha))
    exact ⟨w, hw, ne_nil_of_checkAtom hcheck w hw⟩
  | charClass items =>
    obtain ⟨hne, hforward⟩ := isReversed_eq_false_of_checkAtom hcheck
    obtain ⟨item, hitem⟩ := List.exists_mem_of_ne_nil items hne
    obtain ⟨c, hc⟩ := ClassItem.exists_mem_chars (hforward item hitem)
    exact ⟨[c], c, ⟨item, hitem, hc⟩, rfl⟩

end Pattern

/-- A word of its atom is a word of an item. -/
theorem Item.atom_language_le (item : Item) : item.atom.language ≤ item.language := by
  cases hrep : item.repetition with
  | once => exact (language_once hrep).ge
  | zeroOrMore => exact (language_zeroOrMore hrep).ge.trans' le_kstar
  | oneOrMore =>
    rw [language_oneOrMore hrep]
    exact le_mul_of_one_le_right' one_le_kstar

/-- Items whose atoms have words have a word. -/
theorem Item.exists_mem_languageOf {items : List Item}
    (h : ∀ item ∈ items, ∃ w, w ∈ item.atom.language) : ∃ w, w ∈ languageOf items := by
  induction items with
  | nil => exact ⟨[], rfl⟩
  | cons item items ih =>
    obtain ⟨u, hu⟩ := h item List.mem_cons_self
    obtain ⟨v, hv⟩ := ih fun item hitem => h item (List.mem_cons_of_mem _ hitem)
    rw [languageOf_cons]
    exact ⟨u ++ v, Language.append_mem_mul (item.atom_language_le hu) hv⟩

end StringMachines
