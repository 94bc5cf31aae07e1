import StringMachines.Proofs.Pattern.FullMatch
import StringMachines.Proofs.Pattern.Grammar

/-!
# Patterns concatenate

A pattern is a sequence of elements, and two such sequences written one behind the other are one
again (`Pattern.Elements.append`): nothing that the validation looks for can arise at the seam. No
pattern begins with an operator, so the items of both are read as they are read apart
(`Item.ofTokens_append`), and the language of the two together is the product of their languages
(`Pattern.language_append`).
-/

namespace StringMachines

/-- Where the second of two sequences of tokens does not begin with an operator, their items are
read apart. -/
theorem Item.ofTokens_append {ts ts' : List Token}
    (h : ¬ ts'[0]?.any Token.isOperator = true) :
    ofTokens (ts ++ ts') = ofTokens ts ++ ofTokens ts' := by
  cases ts' with
  | nil => simp [ofTokens]
  | cons t ts' =>
    cases t with
    | atom a => exact ofTokens_append_atom ts ts' a
    | operator op => exact absurd rfl h

namespace Pattern

/-- Two sequences of elements, one behind the other, are a sequence of elements. -/
theorem Elements.append {s t : Word} {ts ts' : List Token} (hs : Elements s ts)
    (ht : Elements t ts') : Elements (s ++ t) (ts ++ ts') := by
  induction hs with
  | nil => exact ht
  | cons hw _ ih =>
    rw [List.append_assoc, List.append_assoc]
    exact .cons hw ih

/-- A text that is parsed is a sequence of elements with the tokens of the pattern. -/
theorem elements_of_parse {text : Word} {p : Pattern} (h : parse text = .ok p) :
    text ≠ [] ∧ Elements text p.tokens := by
  obtain ⟨hvalid, htokens⟩ := parse_eq_ok_iff.1 h
  obtain ⟨hne, hpasses⟩ := validate_iff_passes.1 hvalid
  rw [htokens]
  exact ⟨hne, (elements_of_passes text).1 hpasses⟩

/-- A sequence of elements is parsed as their tokens. -/
theorem Elements.exists_parse {text : Word} {tokens : List Token} (h : Elements text tokens)
    (hne : text ≠ []) : ∃ p, parse text = .ok p ∧ p.tokens = tokens := by
  obtain ⟨hpasses, hread⟩ := h.passes
  rw [← hread]
  exact exists_parse_of_validate (validate_iff_passes.2 ⟨hne, hpasses⟩)

/-- The language of tokens in front of those of a pattern is the product of the two languages. -/
theorem language_append (tokens : List Token) (q : Pattern) :
    language (tokens ++ q.tokens) = language tokens * language q.tokens := by
  rw [language_eq, language_eq, language_eq, Item.ofTokens_append q.head_not_isOperator,
    Item.languageOf_append]

/-- **Patterns concatenate.** Two texts that are patterns make a pattern when one is written behind
the other. Its tokens are those of the first and then those of the second, and it matches what can
be cut into a word of the first and a word of the second. -/
theorem parse_append {s t : Word} {p q : Pattern} (hs : parse s = .ok p) (ht : parse t = .ok q) :
    ∃ r, parse (s ++ t) = .ok r ∧ r.tokens = p.tokens ++ q.tokens ∧
      ∀ w, r.accepts w = true ↔
        ∃ u v, w = u ++ v ∧ p.accepts u = true ∧ q.accepts v = true := by
  obtain ⟨hne, helements⟩ := elements_of_parse hs
  obtain ⟨-, helements'⟩ := elements_of_parse ht
  obtain ⟨r, hparse, htokens⟩ :=
    (helements.append helements').exists_parse (List.append_ne_nil_of_left_ne_nil hne t)
  refine ⟨r, hparse, htokens, fun w => ?_⟩
  unfold accepts
  rw [isFullMatch_iff, htokens, language_append, Language.mem_mul]
  constructor
  · intro h
    obtain ⟨u, hu, v, hv, rfl⟩ := h
    exact ⟨u, v, rfl, isFullMatch_iff.2 hu, isFullMatch_iff.2 hv⟩
  · intro h
    obtain ⟨u, v, rfl, hu, hv⟩ := h
    exact ⟨u, isFullMatch_iff.1 hu, v, isFullMatch_iff.1 hv, rfl⟩

/-- Behind `(ab)*`, the class of `[ab]+` has to be left a character, and the first pattern gives
back the last pair for it. -/
theorem parse_append_abab : ∃ p q r : Pattern, parse "(ab)*".toList = .ok p ∧
    parse "[ab]+".toList = .ok q ∧ parse "(ab)*[ab]+".toList = .ok r ∧
    r.accepts "abab".toList = true := by
  have hread : Token.read "(ab)*".toList = [.atom (.group [['a', 'b']]), .operator .star] := by
    simp [Token.read, Word.upTo, Word.beyond, List.splitOn_cons_eq_if_modifyHead]
  have hread' : Token.read "[ab]+".toList =
      [.atom (.charClass [.single 'a', .single 'b']), .operator .plus] := by
    simp [Token.read, Word.upTo, Word.beyond, CharClass.ofBody]
  obtain ⟨p, hparse, htokens⟩ := exists_parse_of_read hread ⟨'(', by simp, by decide⟩ (by decide)
    (by decide) (by decide)
  obtain ⟨q, hparse', htokens'⟩ := exists_parse_of_read hread' ⟨'[', by simp, by decide⟩
    (by decide) (by decide) (by decide)
  obtain ⟨r, hparse'', -, haccepts⟩ := parse_append hparse hparse'
  refine ⟨p, q, r, hparse, hparse', hparse'', (haccepts _).2 ⟨['a', 'b'], ['a', 'b'], rfl, ?_, ?_⟩⟩
  · rw [accepts, htokens]
    decide
  · rw [accepts, htokens']
    decide

end Pattern

end StringMachines
