import StringMachines.Pattern.Levels
import StringMachines.Proofs.Pattern.FullMatch
import StringMachines.Proofs.Pattern.Shape

/-!
# Candidates that can still grow into a word

A candidate that can grow into a word of a pattern ends inside some item or at its end: it has
taken a word of the items before, and then a word of the item (`Item.language`) or what stands
partway through one (`Item.partway`). This is what comparing it with the beginning of the pattern
up to that item finds out (`Pattern.possibleMatch?_isSome_iff`), fully or by way of the extension
of the last group. Both ways of shortening the pattern, greedy and lazy, come to the end of every
item (`Pattern.levels?_isSome_iff`), and beginnings that part an atom from its operator fit
nothing more. So a candidate has levels exactly when it can grow
(`Pattern.levels?_isSome_iff_viable`).
-/

open Computability

namespace StringMachines

/-! ## Partway through an atom -/

/-- The proper prefixes of a word leave something on either side. -/
theorem Word.mem_properPrefixes_iff {r w : Word} :
    r ∈ properPrefixes w ↔ r ≠ [] ∧ ∃ s, s ≠ [] ∧ r ++ s = w := by
  rw [properPrefixes, List.mem_map]
  constructor
  · rintro ⟨n, hn, rfl⟩
    rw [List.mem_range'_1] at hn
    refine ⟨?_, w.drop n, ?_, List.take_append_drop n w⟩
    · exact List.length_pos_iff.1 (by rw [List.length_take]; omega)
    · exact List.length_pos_iff.1 (by rw [List.length_drop]; omega)
  · rintro ⟨hr, s, hs, rfl⟩
    have := List.length_pos_iff.2 hr
    have := List.length_pos_iff.2 hs
    refine ⟨r.length, ?_, List.take_left⟩
    rw [List.mem_range'_1, List.length_append]
    omega

namespace Atom

/-- What stands partway through a word of the atom. -/
def partway (a : Atom) : Language Char :=
  {r | r ≠ [] ∧ ∃ s, s ≠ [] ∧ r ++ s ∈ a.language}

/-- Nothing stands partway through single characters. -/
theorem notMem_partway {a : Atom} (h : ∀ w ∈ a.language, w.length = 1) (r : Word) :
    r ∉ a.partway := by
  rintro ⟨hr, s, hs, hmem⟩
  have hlength := h _ hmem
  have := List.length_pos_iff.2 hr
  have := List.length_pos_iff.2 hs
  rw [List.length_append] at hlength
  omega

/-- The extension of an atom has the words that stand partway through the atom. -/
theorem exists_extension?_iff {a : Atom} {r : Word} :
    (∃ b, a.extension? = some b ∧ r ∈ b.language) ↔ r ∈ a.partway := by
  cases a with
  | literal c =>
    refine ⟨fun ⟨b, hb, _⟩ => (by cases hb), fun hr => absurd hr (notMem_partway ?_ r)⟩
    rintro w rfl
    rfl
  | charClass items =>
    refine ⟨fun ⟨b, hb, _⟩ => (by cases hb), fun hr => absurd hr (notMem_partway ?_ r)⟩
    rintro w ⟨c, -, rfl⟩
    rfl
  | group alternatives =>
    have hprefix : r ∈ alternatives.flatMap Word.properPrefixes ↔
        r ∈ (group alternatives).partway := by
      rw [List.mem_flatMap]
      constructor
      · rintro ⟨w, hw, hr⟩
        obtain ⟨hne, s, hs, rfl⟩ := Word.mem_properPrefixes_iff.1 hr
        exact ⟨hne, s, hs, hw, by simp [hne]⟩
      · rintro ⟨hne, s, hs, hw, -⟩
        exact ⟨r ++ s, hw, Word.mem_properPrefixes_iff.2 ⟨hne, s, hs, rfl⟩⟩
    rw [← hprefix, extension?]
    cases hflat : alternatives.flatMap Word.properPrefixes with
    | nil => simp
    | cons x xs =>
      constructor
      · rintro ⟨b, hb, hr⟩
        cases hb
        exact hr.1
      · intro hr
        refine ⟨_, rfl, hr, ?_⟩
        rw [← hflat, hprefix] at hr
        exact hr.1

/-- The beginning of a word of the atom is empty, the whole word, or partway. -/
theorem mem_or_mem_partway_of_append {a : Atom} {w x : Word} (h : w ++ x ∈ a.language) :
    w = [] ∨ w ∈ a.language ∨ w ∈ a.partway := by
  rcases eq_or_ne w [] with hw | hw
  · exact .inl hw
  rcases eq_or_ne x [] with rfl | hx
  · rw [List.append_nil] at h
    exact .inr (.inl h)
  · exact .inr (.inr ⟨hw, x, hx, h⟩)

/-- The beginning of repeated words of the atom consists of whole words, and possibly ends partway
through one more. -/
theorem mem_kstar_or_of_append {a : Atom} {w x : Word} (h : w ++ x ∈ a.language∗) :
    w ∈ a.language∗ ∨ w ∈ a.language∗ * a.partway := by
  obtain ⟨words, heq, hwords⟩ := Language.mem_kstar.1 h
  clear h
  induction words generalizing w with
  | nil =>
    obtain ⟨rfl, -⟩ := List.append_eq_nil_iff.1 heq
    exact .inl (Language.nil_mem_kstar _)
  | cons word words ih =>
    have hword := hwords word List.mem_cons_self
    rw [List.flatten_cons] at heq
    rcases List.append_eq_append_iff.1 heq with ⟨y, rfl, -⟩ | ⟨w', rfl, heq'⟩
    · -- The beginning ends within the first word.
      rcases mem_or_mem_partway_of_append hword with rfl | hw | hw
      · exact .inl (Language.nil_mem_kstar _)
      · exact .inl (le_kstar (a := a.language) hw)
      · exact .inr (Language.append_mem_mul (Language.nil_mem_kstar _) hw)
    · have hstep : word ∈ a.language∗ := le_kstar (a := a.language) hword
      rcases ih heq'.symm fun v hv => hwords v (List.mem_cons_of_mem _ hv) with hw | hw
      · exact .inl (kstar_mul_kstar a.language ▸ Language.append_mem_mul hstep hw)
      · refine .inr ?_
        rw [← kstar_mul_kstar, mul_assoc]
        exact Language.append_mem_mul hstep hw

end Atom

/-! ## Partway through an item -/

namespace Item

/-- What may have been taken before a word of the item's atom: a repeated item any number of
times, also where it has to be taken once. -/
def completed (item : Item) : List Item :=
  match item.repetition with
  | .once => []
  | _ => [⟨item.atom, .zeroOrMore⟩]

/-- What stands partway through an item. -/
def partway (item : Item) : Language Char :=
  languageOf item.completed * item.atom.partway

/-- An item that is taken once has nothing completed before its word. -/
theorem languageOf_completed_once {item : Item} (h : item.repetition = .once) :
    languageOf item.completed = 1 := by
  simp [completed, h]

/-- An item with an operator may have any number of words completed. -/
theorem languageOf_completed_repeated {item : Item} (op : Operator)
    (h : item.repetition = op.repetition) :
    languageOf item.completed = item.atom.language∗ := by
  cases op <;> simp [completed, h, Operator.repetition, language]

/-- What the item taken once takes, wholly or partway, the item itself takes too. -/
theorem onceOnly_le (item : Item) :
    item.onceOnly.language + item.onceOnly.partway ≤ item.language + item.partway := by
  refine add_le_add item.atom_language_le ?_
  rcases item.tokens_cases with ⟨hrep, -⟩ | ⟨op, hrep, -⟩
  · rw [partway, partway, languageOf_completed_once hrep]
    exact le_rfl
  · rw [partway, partway, languageOf_completed_repeated op hrep, languageOf_completed_once rfl]
    exact mul_le_mul_left one_le_kstar _

/-- Behind what may have been completed, a word of the atom completes the item. -/
theorem languageOf_completed_mul_le (item : Item) :
    languageOf item.completed * item.atom.language ≤ item.language := by
  cases hrep : item.repetition with
  | once => rw [languageOf_completed_once hrep, one_mul, language_once hrep]
  | zeroOrMore =>
    rw [languageOf_completed_repeated .star hrep, language_zeroOrMore hrep]
    exact kstar_mul_le_kstar
  | oneOrMore =>
    rw [languageOf_completed_repeated .plus hrep, language_oneOrMore hrep,
      Language.mul_self_kstar_comm]

/-- What has been taken of an item, wholly or partway, is the beginning of a word of the item. -/
theorem exists_append_mem_language {item : Item} {w : Word}
    (h : w ∈ item.language + item.partway) : ∃ x, w ++ x ∈ item.language := by
  rcases h with h | ⟨u, hu, r, ⟨-, s, -, hs⟩, rfl⟩
  · exact ⟨[], by rwa [List.append_nil]⟩
  · refine ⟨s, item.languageOf_completed_mul_le ?_⟩
    rw [List.append_assoc]
    exact Language.append_mem_mul hu hs

/-- The beginning of a word of an item is empty, or the item has been taken wholly or partway. -/
theorem eq_nil_or_mem_of_append {item : Item} {w x : Word} (h : w ++ x ∈ item.language) :
    w = [] ∨ w ∈ item.language + item.partway := by
  rw [Language.mem_add, partway]
  cases hrep : item.repetition with
  | once =>
    rw [language_once hrep] at h ⊢
    rw [languageOf_completed_once hrep, one_mul]
    exact Atom.mem_or_mem_partway_of_append h
  | zeroOrMore =>
    rw [language_zeroOrMore hrep] at h ⊢
    rw [languageOf_completed_repeated .star hrep]
    exact .inr (Atom.mem_kstar_or_of_append h)
  | oneOrMore =>
    rw [language_oneOrMore hrep] at h ⊢
    rw [languageOf_completed_repeated .plus hrep]
    rcases Atom.mem_kstar_or_of_append (mul_kstar_le_kstar (a := item.atom.language) h) with hw | hw
    · rw [← Language.one_add_self_mul_kstar_eq_kstar, Language.mem_add, Language.mem_one] at hw
      exact hw.imp_right .inl
    · exact .inr (.inr hw)

/-- The beginning of a word of some items, unless it is empty, has taken some of the items and then
one more wholly or partway. -/
theorem exists_of_append_mem_languageOf {items : List Item} {w x : Word} (hw : w ≠ [])
    (h : w ++ x ∈ languageOf items) :
    ∃ before item later, items = before ++ item :: later ∧
      w ∈ languageOf before * (item.language + item.partway) := by
  induction items generalizing w with
  | nil =>
    rw [languageOf_nil, Language.mem_one] at h
    exact absurd (List.append_eq_nil_iff.1 h).1 hw
  | cons item items ih =>
    rw [languageOf_cons] at h
    obtain ⟨u, hu, v, hv, heq⟩ := h
    rcases List.append_eq_append_iff.1 heq with ⟨w', rfl, rfl⟩ | ⟨y, rfl, -⟩
    · -- The first item is taken wholly; the beginning ends there or further on.
      rcases eq_or_ne w' [] with rfl | hw'
      · refine ⟨[], item, items, rfl, ?_⟩
        rw [languageOf_nil, one_mul, List.append_nil]
        exact .inl hu
      · obtain ⟨before, item', later, rfl, hmem⟩ := ih hw' hv
        refine ⟨item :: before, item', later, rfl, ?_⟩
        rw [languageOf_cons, mul_assoc]
        exact Language.append_mem_mul hu hmem
    · refine ⟨[], item, items, rfl, ?_⟩
      rw [languageOf_nil, one_mul]
      exact (eq_nil_or_mem_of_append hu).resolve_left hw

end Item

/-! ## Comparing a candidate with a beginning -/

namespace Pattern

/-- The extension of tokens that end with an item puts the extension of its atom in the place of
the item, behind what may have been completed of it. -/
theorem extended?_append_tokens (ts : List Token) (item : Item) :
    extended? (ts ++ item.tokens) =
      item.atom.extension?.map fun b => ts ++ item.completed.flatMap Item.tokens ++ [.atom b] := by
  obtain ⟨a, repetition⟩ := item
  cases repetition <;> cases a <;>
    simp [extended?, Item.tokens, Item.completed, Atom.extension?]

/-- The language of whole items and one more atom. -/
theorem language_flatMap_concat (items : List Item) (a : Atom) :
    language (items.flatMap Item.tokens ++ [.atom a]) = Item.languageOf items * a.language := by
  rw [language_eq, Item.ofTokens_append_atom, Item.ofTokens_flatMap_tokens, Item.languageOf_append,
    Item.ofTokens, Item.ofTokens, Item.languageOf_cons, Item.languageOf_nil, mul_one]
  rfl

/-- A candidate matches the extension exactly when it stands partway through the last item. -/
theorem exists_extended?_iff {before : List Item} {item : Item} {w : Word} :
    (∃ ts, extended? (before.flatMap Item.tokens ++ item.tokens) = some ts ∧ w ∈ language ts) ↔
      w ∈ Item.languageOf before * item.partway := by
  have hlanguage (b : Atom) : language (before.flatMap Item.tokens ++
      item.completed.flatMap Item.tokens ++ [.atom b]) =
        Item.languageOf before * Item.languageOf item.completed * b.language := by
    rw [← List.flatMap_append, language_flatMap_concat, Item.languageOf_append]
  rw [extended?_append_tokens, Item.partway, ← mul_assoc]
  constructor
  · rintro ⟨ts, hts, hw⟩
    obtain ⟨b, hb, rfl⟩ := Option.map_eq_some_iff.1 hts
    rw [hlanguage] at hw
    obtain ⟨u, hu, r, hr, rfl⟩ := hw
    exact Language.append_mem_mul hu (Atom.exists_extension?_iff.1 ⟨b, hb, hr⟩)
  · rintro ⟨u, hu, r, hr, rfl⟩
    obtain ⟨b, hb, hrb⟩ := Atom.exists_extension?_iff.2 hr
    refine ⟨_, Option.map_eq_some_iff.2 ⟨b, hb, rfl⟩, ?_⟩
    rw [hlanguage]
    exact Language.append_mem_mul hu hrb

/-- A candidate fits the beginning that ends with an item exactly when it has taken the items
before, and then the item wholly or partway. -/
theorem possibleMatch?_isSome_iff {before : List Item} {item : Item} {w : Word} :
    (possibleMatch? (before.flatMap Item.tokens ++ item.tokens) w).isSome = true ↔
      w ∈ Item.languageOf before * (item.language + item.partway) := by
  have hlanguage : language (before.flatMap Item.tokens ++ item.tokens) =
      Item.languageOf before * item.language := by
    rw [language_eq, Item.ofTokens_append_tokens, Item.ofTokens_flatMap_tokens,
      Item.languageOf_append, Item.languageOf_cons, Item.languageOf_nil, mul_one]
  rw [mul_add, Language.mem_add, ← hlanguage, ← exists_extended?_iff, ← fullMatch?_isSome_iff]
  simp only [possibleMatch?, Option.isSome_map, Option.orElse_eq_or, Option.isSome_or,
    Bool.or_eq_true, Option.isSome_bind, Option.any_eq_true, fullMatch?_isSome_iff]

/-! ## The beginnings that are compared -/

/-- A beginning that is compared is neither empty nor longer than the pattern. -/
theorem le_of_mem_cutsFromBack {ts : List Token} {n k : Nat} (h : k ∈ cutsFromBack ts n) :
    0 < k ∧ k ≤ n := by
  fun_induction cutsFromBack ts n with
  | case1 => cases h
  | case2 => simp_all
  | case3 n ih₁ ih₂ =>
    rcases List.mem_cons.1 h with rfl | h
    · omega
    split at h
    · have := ih₁ h
      omega
    · have := ih₂ h
      omega

/-- From the end of an item, the next shorter beginning is the one without that item. -/
theorem cutsFromBack_append_tokens (before later : List Token) (item : Item) :
    cutsFromBack (before ++ item.tokens ++ later) (before ++ item.tokens).length =
      (before ++ item.tokens).length ::
        cutsFromBack (before ++ item.tokens ++ later) before.length := by
  rcases item.tokens_cases with ⟨-, h⟩ | ⟨op, -, h⟩
  · rw [h, List.length_append, List.length_singleton]
    cases hlength : before.length with
    | zero => rfl
    | succ n =>
      rw [cutsFromBack, ← hlength]
      simpa [Token.isOperator] using hlength.symm
  · rw [h, List.length_append]
    simp [cutsFromBack, Token.isOperator]

/-- Shortening from the back comes to the end of every item. -/
theorem length_mem_cutsFromBack (before ts : List Token) (item : Item) (later : List Item) :
    (before ++ item.tokens).length ∈
      cutsFromBack (before ++ item.tokens ++ later.flatMap Item.tokens ++ ts)
        (before ++ item.tokens ++ later.flatMap Item.tokens).length := by
  induction later using List.reverseRecOn generalizing ts with
  | nil =>
    rw [List.flatMap_nil, List.append_nil, cutsFromBack_append_tokens]
    exact List.mem_cons_self
  | append_singleton later last ih =>
    rw [List.flatMap_append, List.flatMap_singleton, ← List.append_assoc,
      cutsFromBack_append_tokens, List.append_assoc _ last.tokens ts]
    exact List.mem_cons_of_mem _ (ih (last.tokens ++ ts))

/-- The end of every item is among the beginnings that are compared. -/
theorem length_mem_cuts (before : List Item) (item : Item) (later : List Item)
    (quantifier : Quantifier) :
    (before.flatMap Item.tokens ++ item.tokens).length ∈
      cuts ((before ++ item :: later).flatMap Item.tokens) quantifier := by
  have htokens : (before ++ item :: later).flatMap Item.tokens =
      before.flatMap Item.tokens ++ item.tokens ++ later.flatMap Item.tokens := by simp
  rw [htokens]
  cases quantifier with
  | greedy =>
    have hpos : 0 < item.tokens.length := by
      rcases item.tokens_cases with ⟨-, h⟩ | ⟨op, -, h⟩ <;> simp [h]
    rw [cuts, List.mem_range'_1]
    simp only [List.length_append]
    omega
  | lazy =>
    have hmem := length_mem_cutsFromBack (before.flatMap Item.tokens) [] item later
    rwa [List.append_nil] at hmem

/-- A beginning that is compared is neither empty nor longer than the pattern. -/
theorem le_of_mem_cuts {ts : List Token} {quantifier : Quantifier} {n : Nat}
    (h : n ∈ cuts ts quantifier) : 0 < n ∧ n ≤ ts.length := by
  cases quantifier with
  | greedy =>
    rw [cuts, List.mem_range'_1] at h
    omega
  | lazy => exact le_of_mem_cutsFromBack h

/-- Whichever way the pattern is shortened, a candidate has levels exactly when it has taken some
items and then one more item wholly or partway. -/
theorem levels?_isSome_iff (p : Pattern) (quantifier : Quantifier) (w : Word) :
    (levels? p.tokens quantifier w).isSome = true ↔
      ∃ before item later, Item.ofTokens p.tokens = before ++ item :: later ∧
        w ∈ Item.languageOf before * (item.language + item.partway) := by
  rw [levels?, List.findSome?_isSome_iff]
  constructor
  · rintro ⟨n, hn, hfits⟩
    obtain ⟨hpos, hle⟩ := le_of_mem_cuts hn
    rw [p.tokens_eq] at hle hfits
    obtain ⟨before, item, later, hitems, htake⟩ := Item.take_flatMap_tokens hpos hle
    refine ⟨before, item, later, hitems, ?_⟩
    rcases htake with htake | htake
    · rw [htake] at hfits
      exact possibleMatch?_isSome_iff.1 hfits
    · -- Parted from its operator, the last item takes no more than with it.
      rw [htake] at hfits
      exact mul_le_mul_right item.onceOnly_le _ (possibleMatch?_isSome_iff.1 hfits)
  · rintro ⟨before, item, later, hitems, hw⟩
    have hcut := length_mem_cuts before item later quantifier
    rw [← hitems, ← p.tokens_eq] at hcut
    refine ⟨_, hcut, ?_⟩
    rw [p.tokens_eq, hitems, List.flatMap_append, List.flatMap_cons, ← List.append_assoc,
      List.take_left]
    exact possibleMatch?_isSome_iff.2 hw

/-! ## Levels and viable prefixes -/

/-- A candidate that is not empty has levels exactly when it can grow into a word. -/
theorem levels?_isSome_iff_exists_append (p : Pattern) (quantifier : Quantifier) {w : Word}
    (hw : w ≠ []) :
    (levels? p.tokens quantifier w).isSome = true ↔ ∃ x, w ++ x ∈ language p.tokens := by
  rw [levels?_isSome_iff]
  constructor
  · rintro ⟨before, item, later, hitems, u, hu, v, hv, rfl⟩
    obtain ⟨x, hx⟩ := Item.exists_append_mem_language hv
    obtain ⟨y, hy⟩ : ∃ y, y ∈ Item.languageOf later := by
      refine Item.exists_mem_languageOf fun item' hitem' => ?_
      refine p.exists_mem_atom_language (Item.atom_mem_of_mem_ofTokens ?_)
      rw [hitems]
      exact List.mem_append_right _ (List.mem_cons_of_mem _ hitem')
    refine ⟨x ++ y, ?_⟩
    rw [language_eq, hitems, Item.languageOf_append, Item.languageOf_cons, List.append_assoc,
      ← List.append_assoc v]
    exact Language.append_mem_mul hu (Language.append_mem_mul hx hy)
  · rintro ⟨x, hx⟩
    rw [language_eq] at hx
    exact Item.exists_of_append_mem_languageOf hw hx

/-- **Partial matching recognises the viable prefixes.** The greedy and the lazy comparison of a
candidate with a pattern give levels together, and for a candidate that is not empty they do so
exactly when some text behind the candidate makes it a word of the pattern. -/
theorem levels?_isSome_iff_viable (p : Pattern) (w : Word) :
    ((levels? p.tokens .greedy w).isSome = true ↔ (levels? p.tokens .lazy w).isSome = true) ∧
      (w ≠ [] →
        ((levels? p.tokens .greedy w).isSome = true ↔ ∃ x, w ++ x ∈ language p.tokens)) := by
  refine ⟨?_, p.levels?_isSome_iff_exists_append .greedy⟩
  rw [levels?_isSome_iff, levels?_isSome_iff]

/-- Partway through the second repetition of `(cd)+ab`, with `dab` still to come. -/
theorem levels?_isSome_cdc : ∃ p : Pattern, parse "(cd)+ab".toList = .ok p ∧
    "cdc".toList ≠ [] ∧ (levels? p.tokens .greedy "cdc".toList).isSome = true := by
  have hread : Token.read "(cd)+ab".toList =
      [.atom (.group [['c', 'd']]), .operator .plus, .atom (.literal 'a'),
        .atom (.literal 'b')] := by
    simp [Token.read, Word.upTo, Word.beyond, List.splitOn_cons_eq_if_modifyHead]
  obtain ⟨p, hparse, htokens⟩ := exists_parse_of_read hread ⟨'(', by simp, by decide⟩ (by decide)
    (by decide) (by decide)
  have hmatch : isFullMatch p.tokens ("cdc".toList ++ "dab".toList) = true := by
    rw [htokens]
    decide
  refine ⟨p, hparse, by decide, ?_⟩
  exact ((levels?_isSome_iff_viable _ _).2 (by decide)).2 ⟨_, isFullMatch_iff.1 hmatch⟩

end Pattern

end StringMachines
