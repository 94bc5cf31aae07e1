import Mathlib.Data.List.Chain
import StringMachines.Proofs.Pattern.Display
import StringMachines.Proofs.Word.Removal

/-!
# The grammar of patterns

The grammar says what a pattern is without reference to how it is checked: a sequence of elements
(`Pattern.Elements`), each a literal, or a group or a class that an operator may follow
(`Pattern.Element`), together with the tokens that they stand for. The validation checks the text
as a whole and then its tokens; its checks can be made chunk by chunk instead
(`Pattern.passes_bracket_iff` and its neighbours), because nothing that is forbidden can arise where
two chunks meet. So the validation accepts the texts of the grammar, and what is parsed are their
tokens (`Pattern.validate_accepts_grammar`).
-/

namespace StringMachines

namespace Pattern

/-! ## The grammar -/

/-- The characters that are kept for richer pattern languages. -/
def reserved : List Char :=
  "\x7b\x7d<>\\.^$?#:!=".toList

/-- The characters that give a pattern its structure. -/
def structural : List Char :=
  ['(', ')', '[', ']', '*', '+', '|']

/-- The structure of a pattern is made by brackets, operators and bars. -/
theorem notMem_structural_iff {c : Char} :
    c ∉ structural ↔ c ∉ brackets ∧ c ≠ '*' ∧ c ≠ '+' ∧ c ≠ '|' := by
  simp only [structural, brackets, List.mem_cons, List.not_mem_nil]
  grind

/-- The body of a class, read from left to right: a character, a dash and a character are a range,
with its ends the right way round, and every other character stands for itself. -/
inductive ClassBody : Word → CharClass → Prop
  | nil : ClassBody [] []
  | range {lo hi : Char} {rest : Word} {items : CharClass} : lo ≤ hi → ClassBody rest items →
      ClassBody (lo :: '-' :: hi :: rest) (.range lo hi :: items)
  | single {c : Char} {rest : Word} {items : CharClass} :
      (∀ hi rest', rest ≠ '-' :: hi :: rest') → ClassBody rest items →
      ClassBody (c :: rest) (.single c :: items)

/-- A text in brackets and the atom it stands for. -/
inductive Bracketed : Word → Atom → Prop
  /-- One or more alternatives, none of them empty. -/
  | group {alternatives : List Word} : alternatives ≠ [] →
      (∀ w ∈ alternatives, w ≠ [] ∧ ∀ c ∈ w, c ∉ structural ∧ c ∉ reserved) →
      Bracketed ('(' :: (List.intercalate ['|'] alternatives ++ [')'])) (.group alternatives)
  /-- One or more entries; a body may hold operators and bars. -/
  | charClass {body : Word} {items : CharClass} : body ≠ [] →
      (∀ c ∈ body, c ∉ brackets ∧ c ∉ reserved) →
      ¬ ['*', '+'] <:+: body → ¬ ['+', '+'] <:+: body → ClassBody body items →
      Bracketed ('[' :: (body ++ [']'])) (.charClass items)

/-- An element of a pattern: its text and its tokens. -/
inductive Element : Word → List Token → Prop
  | literal {c : Char} : c ∉ structural → c ∉ reserved → Element [c] [.atom (.literal c)]
  | once {w : Word} {a : Atom} : Bracketed w a → Element w [.atom a]
  | repeated {w : Word} {a : Atom} (op : Operator) : Bracketed w a →
      Element (w ++ [op.symbol]) [.atom a, .operator op]

/-- A sequence of elements: its text and its tokens. -/
inductive Elements : Word → List Token → Prop
  | nil : Elements [] []
  | cons {w w' : Word} {ts ts' : List Token} : Element w ts → Elements w' ts' →
      Elements (w ++ w') (ts ++ ts')

/-! ## Forbidden sequences -/

/-- The two characters may stand next to each other. -/
def Separable (a b : Char) : Prop :=
  b = '+' → a ≠ '*' ∧ a ≠ '+'

/-- No two characters that may not stand next to each other do so, when neither pair of operators
occurs. -/
theorem isChain_separable_iff {w : Word} :
    w.IsChain Separable ↔ ¬ ['*', '+'] <:+: w ∧ ¬ ['+', '+'] <:+: w := by
  rw [List.isChain_iff_forall_rel_of_append_cons_cons]
  constructor
  · intro h
    refine ⟨?_, ?_⟩
    · rintro ⟨u, v, huv⟩
      have hw : w = u ++ '*' :: '+' :: v := by simpa using huv.symm
      exact (h hw rfl).1 rfl
    · rintro ⟨u, v, huv⟩
      have hw : w = u ++ '+' :: '+' :: v := by simpa using huv.symm
      exact (h hw rfl).2 rfl
  · rintro ⟨hstar, hplus⟩ a b u v rfl rfl
    refine ⟨?_, ?_⟩
    · rintro rfl
      exact hstar ⟨u, v, by simp⟩
    · rintro rfl
      exact hplus ⟨u, v, by simp⟩

/-- No forbidden sequence occurs when there is no reserved character and no pair of operators. -/
theorem forall_not_occursIn_iff {w : Word} :
    (∀ s ∈ forbiddenSequences, ¬ s.occursIn w = true) ↔
      (∀ c ∈ w, c ∉ reserved) ∧ w.IsChain Separable := by
  have hforbidden : forbiddenSequences = reserved.map ([·]) ++ [['*', '+'], ['+', '+']] := rfl
  have hsingle (c : Char) : [c] <:+: w ↔ c ∈ w := by
    refine ⟨fun h => h.subset List.mem_cons_self, fun h => ?_⟩
    obtain ⟨u, v, rfl⟩ := List.append_of_mem h
    exact ⟨u, v, by simp⟩
  have hreserved : (∀ c ∈ reserved, c ∉ w) ↔ ∀ c ∈ w, c ∉ reserved :=
    ⟨fun h c hw hc => h c hc hw, fun h c hc hw => h c hw hc⟩
  rw [hforbidden, List.forall_mem_append, List.forall_mem_map, isChain_separable_iff, ← hreserved]
  simp only [Word.occursIn_iff, hsingle, List.forall_mem_cons, List.not_mem_nil, false_implies,
    implies_true, and_true]

/-- A character that is no operator may stand in front of every character. -/
theorem isChain_separable_cons_iff {c : Char} (h : c ≠ '*' ∧ c ≠ '+') {w : Word} :
    (c :: w).IsChain Separable ↔ w.IsChain Separable := by
  rw [List.isChain_cons]
  exact and_iff_right fun d _ _ => h

/-- What stands on either side of a character that is no operator is apart. -/
theorem isChain_separable_append_iff {c : Char} (h : c ≠ '*' ∧ c ≠ '+') {u v : Word} :
    (u ++ c :: v).IsChain Separable ↔ u.IsChain Separable ∧ v.IsChain Separable := by
  have hmiddle : ∀ a ∈ u.getLast?, ∀ d ∈ (c :: v).head?, Separable a d := by
    intro a _ d hd hplus
    obtain rfl : c = d := by simpa using hd
    exact absurd hplus h.2
  rw [List.isChain_append, isChain_separable_cons_iff h]
  exact ⟨fun hchain => ⟨hchain.1, hchain.2.1⟩, fun hchain => ⟨hchain.1, hchain.2, hmiddle⟩⟩

/-! ## Bodies of brackets -/

/-- A group passes when no alternative is empty or has an operator in it. -/
theorem checkAtom_group_iff {alternatives : List Word} :
    checkAtom (.group alternatives) = .ok () ↔
      ∀ w ∈ alternatives, w ≠ [] ∧ ∀ c ∈ w, c ≠ '*' ∧ c ≠ '+' := by
  constructor
  · intro h w hw
    refine ⟨ne_nil_of_checkAtom h w hw, fun c hc => ?_⟩
    rw [checkAtom] at h
    split at h
    · cases h
    split at h
    · cases h
    split at h
    · cases h
    · next hfind =>
      have hnone := List.find?_eq_none.1 hfind c (List.mem_flatten.2 ⟨w, hw, hc⟩)
      simpa using hnone
  · intro h
    have hsingle : alternatives ≠ [[]] := by
      rintro rfl
      exact (h [] List.mem_cons_self).1 rfl
    have hempty : ¬ alternatives.any List.isEmpty = true := by
      intro hany
      obtain ⟨w, hw, hnil⟩ := List.any_eq_true.1 hany
      exact (h w hw).1 (List.isEmpty_iff.1 hnil)
    have hfind : alternatives.flatten.find? (fun c => c = '*' ∨ c = '+') = none := by
      refine List.find?_eq_none.2 fun c hc => ?_
      obtain ⟨w, hw, hcw⟩ := List.mem_flatten.1 hc
      simpa using (h w hw).2 c hcw
    rw [checkAtom, if_neg hsingle, if_neg hempty, hfind]

/-- A class passes when it has an entry and no range is the wrong way round. -/
theorem checkAtom_charClass_iff {items : CharClass} :
    checkAtom (.charClass items) = .ok () ↔
      items ≠ [] ∧ ∀ item ∈ items, item.isReversed = false := by
  refine ⟨isReversed_eq_false_of_checkAtom, fun ⟨hne, hitems⟩ => ?_⟩
  have hempty : ¬ items.isEmpty = true := fun h => hne (List.isEmpty_iff.1 h)
  have hfind : items.find? ClassItem.isReversed = none := by
    refine List.find?_eq_none.2 fun item hitem => ?_
    rw [hitems item hitem]
    exact Bool.false_ne_true
  rw [checkAtom, if_neg hempty, hfind]

/-- A body is read as the entries of a class in one way, when no range is the wrong way round. -/
theorem classBody_iff {w : Word} {items : CharClass} :
    ClassBody w items ↔
      items = CharClass.ofBody w ∧ ∀ item ∈ CharClass.ofBody w, item.isReversed = false := by
  constructor
  · intro h
    induction h with
    | nil => exact ⟨rfl, fun item hitem => nomatch hitem⟩
    | @range lo hi rest items hle _ ih =>
      obtain ⟨rfl, hitems⟩ := ih
      refine ⟨rfl, List.forall_mem_cons.2 ⟨?_, hitems⟩⟩
      simpa [ClassItem.isReversed] using hle
    | @single c rest items hdash _ ih =>
      obtain ⟨rfl, hitems⟩ := ih
      rw [CharClass.ofBody.eq_2 c rest hdash]
      exact ⟨rfl, List.forall_mem_cons.2 ⟨rfl, hitems⟩⟩
  · rintro ⟨rfl, hitems⟩
    fun_induction CharClass.ofBody w with
    | case1 lo hi rest ih =>
      obtain ⟨hrange, hrest⟩ := List.forall_mem_cons.1 hitems
      refine .range ?_ (ih hrest)
      simpa [ClassItem.isReversed] using hrange
    | case2 c rest hdash ih => exact .single hdash (ih (List.forall_mem_cons.1 hitems).2)
    | case3 => exact .nil

/-- What is checked of the body of a bracket. -/
structure BodyPasses (b : Bracket) (body : Word) : Prop where
  brackets : ∀ c ∈ body, c ∉ brackets
  reserved : ∀ c ∈ body, c ∉ reserved
  separable : body.IsChain Separable
  atom : checkAtom (b.atom body) = .ok ()

/-- The closing bracket is not in a body that passes. -/
theorem BodyPasses.closing_notMem {b : Bracket} {body : Word} (h : BodyPasses b body) :
    b.closing ∉ body := by
  intro hmem
  refine h.brackets _ hmem ?_
  cases b <;> decide

/-- The bodies of groups are those that pass between round brackets. -/
theorem bodyPasses_round_iff {body : Word} :
    BodyPasses .round body ↔ ∀ w ∈ body.splitOn '|',
      w ≠ [] ∧ ∀ c ∈ w, c ∉ structural ∧ c ∉ reserved := by
  constructor
  · intro h w hw
    obtain ⟨hne, hoperators⟩ := checkAtom_group_iff.1 h.atom w hw
    refine ⟨hne, fun c hc => ?_⟩
    obtain ⟨hbody, hbar⟩ := Word.exists_mem_splitOn_iff.1 ⟨w, hw, hc⟩
    obtain ⟨hstar, hplus⟩ := hoperators c hc
    exact ⟨notMem_structural_iff.2 ⟨h.brackets c hbody, hstar, hplus, hbar⟩, h.reserved c hbody⟩
  · intro h
    -- A character of the body is a bar or a character of an alternative.
    have hchars : ∀ c ∈ body, (c ∉ brackets ∧ c ≠ '*' ∧ c ≠ '+') ∧ c ∉ reserved := by
      intro c hc
      by_cases hbar : c = '|'
      · subst hbar
        decide
      · obtain ⟨w, hw, hcw⟩ := Word.exists_mem_splitOn_iff.2 ⟨hc, hbar⟩
        obtain ⟨hout, hreserved⟩ := (h w hw).2 c hcw
        obtain ⟨hbrackets, hstar, hplus, -⟩ := notMem_structural_iff.1 hout
        exact ⟨⟨hbrackets, hstar, hplus⟩, hreserved⟩
    refine ⟨fun c hc => (hchars c hc).1.1, fun c hc => (hchars c hc).2, ?_, ?_⟩
    · refine List.isChain_iff_forall_rel_of_append_cons_cons.2 fun a d u v hbody hplus => ?_
      exact (hchars a (by simp [hbody])).1.2
    · refine checkAtom_group_iff.2 fun w hw => ⟨(h w hw).1, fun c hc => ?_⟩
      exact (hchars c (Word.exists_mem_splitOn_iff.1 ⟨w, hw, hc⟩).1).1.2

/-- The bodies of classes are those that pass between square brackets. -/
theorem bodyPasses_square_iff {body : Word} :
    BodyPasses .square body ↔ body ≠ [] ∧ (∀ c ∈ body, c ∉ brackets ∧ c ∉ reserved) ∧
      ¬ ['*', '+'] <:+: body ∧ ¬ ['+', '+'] <:+: body ∧ ClassBody body (.ofBody body) := by
  have hnil : CharClass.ofBody body ≠ [] ↔ body ≠ [] := by
    rw [not_iff_not]
    constructor
    · intro h
      rw [← CharClass.body_ofBody body, h]
      rfl
    · rintro rfl
      rfl
  constructor
  · intro h
    obtain ⟨hne, hitems⟩ := checkAtom_charClass_iff.1 h.atom
    obtain ⟨hstar, hplus⟩ := isChain_separable_iff.1 h.separable
    exact ⟨hnil.1 hne, fun c hc => ⟨h.brackets c hc, h.reserved c hc⟩, hstar, hplus,
      classBody_iff.2 ⟨rfl, hitems⟩⟩
  · rintro ⟨hne, hchars, hstar, hplus, hbody⟩
    exact ⟨fun c hc => (hchars c hc).1, fun c hc => (hchars c hc).2,
      isChain_separable_iff.2 ⟨hstar, hplus⟩,
      checkAtom_charClass_iff.2 ⟨hnil.2 hne, (classBody_iff.1 hbody).2⟩⟩

/-- A text in brackets is a body that passes, in its brackets. -/
theorem bracketed_iff {w : Word} {a : Atom} :
    Bracketed w a ↔ ∃ b body, BodyPasses b body ∧ w = b.opening :: (body ++ [b.closing]) ∧
      a = b.atom body := by
  constructor
  · intro h
    cases h with
    | @group alternatives hne halternatives =>
      have hpieces : (List.intercalate ['|'] alternatives).splitOn '|' = alternatives := by
        refine List.splitOn_intercalate '|' (fun w hw hbar => ?_) hne
        exact ((halternatives w hw).2 '|' hbar).1 (by decide)
      refine ⟨.round, List.intercalate ['|'] alternatives, ?_, rfl, ?_⟩
      · rw [bodyPasses_round_iff, hpieces]
        exact halternatives
      · rw [Bracket.atom, hpieces]
    | @charClass body items hne hchars hstar hplus hbody =>
      obtain ⟨rfl, -⟩ := classBody_iff.1 hbody
      exact ⟨.square, body, bodyPasses_square_iff.2 ⟨hne, hchars, hstar, hplus, hbody⟩, rfl, rfl⟩
  · rintro ⟨b, body, hpasses, rfl, rfl⟩
    cases b with
    | round =>
      have h := Bracketed.group (List.splitOn_ne_nil '|' body) (bodyPasses_round_iff.1 hpasses)
      rwa [List.intercalate_splitOn] at h
    | square =>
      obtain ⟨hne, hchars, hstar, hplus, hbody⟩ := bodyPasses_square_iff.1 hpasses
      exact .charClass hne hchars hstar hplus hbody

/-! ## The checks, chunk by chunk -/

/-- What is checked of a text, at a place where an operator may come or not. -/
structure Passes (repeatable : Bool) (w : Word) : Prop where
  reserved : ∀ c ∈ w, c ∉ reserved
  separable : w.IsChain Separable
  brackets : checkBrackets none w = .ok ()
  tokens : checkTokens repeatable (Token.read w) = .ok ()

/-- A bracket passes with its body, and an operator may follow. -/
theorem passes_bracket_iff {repeatable : Bool} {b : Bracket} {u v : Word} (h : b.closing ∉ u) :
    Passes repeatable (b.opening :: (u ++ b.closing :: v)) ↔ BodyPasses b u ∧ Passes true v := by
  have hopening : (b.opening ≠ '*' ∧ b.opening ≠ '+') ∧ b.opening ∉ Pattern.reserved := by
    cases b <;> decide
  have hclosing : (b.closing ≠ '*' ∧ b.closing ≠ '+') ∧ b.closing ∉ Pattern.reserved := by
    cases b <;> decide
  have hrepeat : mayRepeat (.atom (b.atom u)) = true := by
    cases b <;> rfl
  have hreserved : (∀ c ∈ b.opening :: (u ++ b.closing :: v), c ∉ Pattern.reserved) ↔
      (∀ c ∈ u, c ∉ Pattern.reserved) ∧ ∀ c ∈ v, c ∉ Pattern.reserved := by
    rw [List.forall_mem_cons, List.forall_mem_append, List.forall_mem_cons]
    exact ⟨fun hall => ⟨hall.2.1, hall.2.2.2⟩,
      fun hall => ⟨hopening.2, hall.1, hclosing.2, hall.2⟩⟩
  have hchain : (b.opening :: (u ++ b.closing :: v)).IsChain Separable ↔
      u.IsChain Separable ∧ v.IsChain Separable := by
    rw [isChain_separable_cons_iff hopening.1, isChain_separable_append_iff hclosing.1]
  have hbrackets := checkBrackets_body_iff (v := v) h
  rw [← checkBrackets_opening] at hbrackets
  have htokens : checkTokens repeatable (Token.read (b.opening :: (u ++ b.closing :: v))) = .ok () ↔
      checkAtom (b.atom u) = .ok () ∧ checkTokens true (Token.read v) = .ok () := by
    rw [Token.read_bracket b h, checkTokens_atom_iff, hrepeat]
  constructor
  · intro hp
    obtain ⟨hru, hrv⟩ := hreserved.1 hp.reserved
    obtain ⟨hcu, hcv⟩ := hchain.1 hp.separable
    obtain ⟨hbu, hbv⟩ := hbrackets.1 hp.brackets
    obtain ⟨htu, htv⟩ := htokens.1 hp.tokens
    exact ⟨⟨hbu, hru, hcu, htu⟩, hrv, hcv, hbv, htv⟩
  · rintro ⟨hu, hv⟩
    exact ⟨hreserved.2 ⟨hu.reserved, hv.reserved⟩, hchain.2 ⟨hu.separable, hv.separable⟩,
      hbrackets.2 ⟨hu.brackets, hv.brackets⟩, htokens.2 ⟨hu.atom, hv.tokens⟩⟩

/-- A bracket that is not closed does not pass. -/
theorem not_passes_unclosed {repeatable : Bool} {b : Bracket} {u : Word} (h : b.closing ∉ u) :
    ¬ Passes repeatable (b.opening :: u) := by
  intro hp
  have hbrackets := hp.brackets
  rw [checkBrackets_opening] at hbrackets
  exact h (closing_mem_of_checkBrackets hbrackets)

/-- An operator passes where one may come, and no other may follow. -/
theorem passes_operator_iff {repeatable : Bool} (op : Operator) {w : Word} :
    Passes repeatable (op.symbol :: w) ↔ repeatable = true ∧ Passes false w := by
  have hsymbol : (op.symbol ≠ '(' ∧ op.symbol ≠ '[') ∧ op.symbol ∉ Pattern.brackets ∧
      op.symbol ∉ Pattern.reserved := by
    cases op <;> decide
  have hbrackets := checkBrackets_cons_iff hsymbol.1.1 hsymbol.1.2 (w := w)
  have htokens : checkTokens repeatable (Token.read (op.symbol :: w)) = .ok () ↔
      repeatable = true ∧ checkTokens false (Token.read w) = .ok () := by
    rw [Token.read_operator, checkTokens_operator_iff]
  constructor
  · intro hp
    obtain ⟨hrepeatable, hw⟩ := htokens.1 hp.tokens
    exact ⟨hrepeatable, (List.forall_mem_cons.1 hp.reserved).2, hp.separable.tail,
      (hbrackets.1 hp.brackets).2, hw⟩
  · rintro ⟨hrepeatable, hw⟩
    -- A plus directly behind the operator would be an operator where none may come.
    have hnext : ∀ d ∈ w.head?, Separable op.symbol d := by
      rintro d hd rfl
      obtain ⟨rest, rfl⟩ : ∃ rest, w = '+' :: rest := by
        cases w with
        | nil => cases hd
        | cons e rest => exact ⟨rest, by simpa using hd⟩
      have hread : Token.read ('+' :: rest) = .operator .plus :: Token.read rest :=
        Token.read_operator .plus rest
      have htail := hw.tokens
      rw [hread, checkTokens_operator_iff] at htail
      exact absurd htail.1 Bool.false_ne_true
    exact ⟨List.forall_mem_cons.2 ⟨hsymbol.2.2, hw.reserved⟩,
      List.isChain_cons.2 ⟨hnext, hw.separable⟩, hbrackets.2 ⟨hsymbol.2.1, hw.brackets⟩,
      htokens.2 ⟨hrepeatable, hw.tokens⟩⟩

/-- A literal passes when it has no meaning of its own, and no operator may follow. -/
theorem passes_literal_iff {repeatable : Bool} {c : Char} (h : c ∉ Token.special) {w : Word} :
    Passes repeatable (c :: w) ↔
      (c ∉ structural ∧ c ∉ Pattern.reserved) ∧ Passes false w := by
  have hne := Token.notMem_special_iff.1 h
  have hstructural : c ∉ structural ↔ c ∉ Pattern.brackets ∧ c ≠ '|' := by
    simp only [notMem_structural_iff, ne_eq, hne.2.2, not_false_eq_true, true_and]
  have hchain := isChain_separable_cons_iff hne.2.2 (w := w)
  have hbrackets := checkBrackets_cons_iff hne.1 hne.2.1 (w := w)
  have htokens : checkTokens repeatable (Token.read (c :: w)) = .ok () ↔
      c ≠ '|' ∧ checkTokens false (Token.read w) = .ok () := by
    rw [Token.read_literal h, checkTokens_atom_iff]
    refine and_congr_left' ?_
    by_cases hbar : c = '|' <;> simp [checkAtom, hbar]
  constructor
  · intro hp
    obtain ⟨hreserved, hrest⟩ := List.forall_mem_cons.1 hp.reserved
    obtain ⟨hbracket, hbrest⟩ := hbrackets.1 hp.brackets
    obtain ⟨hbar, htrest⟩ := htokens.1 hp.tokens
    exact ⟨⟨hstructural.2 ⟨hbracket, hbar⟩, hreserved⟩, hrest, hchain.1 hp.separable, hbrest,
      htrest⟩
  · rintro ⟨⟨hout, hreserved⟩, hw⟩
    obtain ⟨hbracket, hbar⟩ := hstructural.1 hout
    exact ⟨List.forall_mem_cons.2 ⟨hreserved, hw.reserved⟩, hchain.2 hw.separable,
      hbrackets.2 ⟨hbracket, hw.brackets⟩, htokens.2 ⟨hbar, hw.tokens⟩⟩

/-- What passes where no operator may come passes where one may come. -/
theorem Passes.repeatable {w : Word} (h : Passes false w) : Passes true w := by
  refine ⟨h.reserved, h.separable, h.brackets, ?_⟩
  have htokens := h.tokens
  cases hread : Token.read w with
  | nil => rfl
  | cons t ts =>
    rw [hread] at htokens
    cases t with
    | atom a => exact checkTokens_atom_iff.2 (checkTokens_atom_iff.1 htokens)
    | operator op => exact absurd (checkTokens_operator_iff.1 htokens).1 Bool.false_ne_true

/-- The empty text passes. -/
theorem passes_nil (repeatable : Bool) : Passes repeatable [] := by
  refine ⟨fun c hc => absurd hc List.not_mem_nil, .nil, rfl, ?_⟩
  rw [Token.read]
  rfl

/-- A text is valid when it passes and is not empty: what passes does not start with an operator or
a bar. -/
theorem validate_iff_passes {text : Word} :
    validate text = .ok () ↔ text ≠ [] ∧ Passes false text := by
  rw [validate_eq_ok_iff, forall_not_occursIn_iff]
  constructor
  · rintro ⟨⟨c, hc, -⟩, ⟨hreserved, hchain⟩, hbrackets, htokens⟩
    refine ⟨?_, hreserved, hchain, hbrackets, htokens⟩
    rintro rfl
    cases hc
  · rintro ⟨hne, hp⟩
    refine ⟨?_, ⟨hp.reserved, hp.separable⟩, hp.brackets, hp.tokens⟩
    cases text with
    | nil => exact absurd rfl hne
    | cons c w =>
      refine ⟨c, rfl, ?_⟩
      rintro (rfl | rfl | rfl)
      · exact Bool.false_ne_true ((passes_operator_iff .star).1 hp).1
      · exact Bool.false_ne_true ((passes_operator_iff .plus).1 hp).1
      · exact ((passes_literal_iff (by decide)).1 hp).1.1 (by decide)

/-! ## The validation and the grammar -/

/-- A text in brackets passes together with what follows it, and is read as its atom. -/
theorem Bracketed.passes {w v : Word} {a : Atom} (h : Bracketed w a) (hv : Passes true v)
    (repeatable : Bool) :
    Passes repeatable (w ++ v) ∧ Token.read (w ++ v) = .atom a :: Token.read v := by
  obtain ⟨b, body, hbody, rfl, rfl⟩ := bracketed_iff.1 h
  have hclosing := hbody.closing_notMem
  have hassoc : b.opening :: (body ++ [b.closing]) ++ v =
      b.opening :: (body ++ b.closing :: v) := by simp
  rw [hassoc]
  exact ⟨(passes_bracket_iff hclosing).2 ⟨hbody, hv⟩, Token.read_bracket b hclosing v⟩

/-- An element passes in front of what passes, and is read as its tokens. -/
theorem Element.passes {w v : Word} {ts : List Token} (h : Element w ts) (hv : Passes false v) :
    Passes false (w ++ v) ∧ Token.read (w ++ v) = ts ++ Token.read v := by
  cases h with
  | @literal c hstructural hreserved =>
    have hsubset : Token.special ⊆ structural := by decide
    have hc : c ∉ Token.special := fun hspecial => hstructural (hsubset hspecial)
    exact ⟨(passes_literal_iff hc).2 ⟨⟨hstructural, hreserved⟩, hv⟩, Token.read_literal hc v⟩
  | once hw => exact hw.passes hv.repeatable false
  | @repeated w a op hw =>
    have hop : Passes true (op.symbol :: v) := (passes_operator_iff op).2 ⟨rfl, hv⟩
    obtain ⟨hp, hread⟩ := hw.passes hop false
    rw [List.append_assoc]
    refine ⟨hp, hread.trans ?_⟩
    rw [Token.read_operator]
    rfl

/-- Elements pass, and are read as their tokens. -/
theorem Elements.passes {w : Word} {ts : List Token} (h : Elements w ts) :
    Passes false w ∧ Token.read w = ts := by
  induction h with
  | nil => exact ⟨passes_nil false, by rw [Token.read]⟩
  | cons hw _ ih =>
    obtain ⟨hp, hread⟩ := hw.passes ih.1
    exact ⟨hp, by rw [hread, ih.2]⟩

/-- An operator, unless there is none, and then elements. -/
def OperatorThenElements (w : Word) (ts : List Token) : Prop :=
  Elements w ts ∨ ∃ op w' ts', w = op.symbol :: w' ∧ ts = .operator op :: ts' ∧ Elements w' ts'

/-- A text in brackets, with the operator that may follow it, is an element. -/
theorem Bracketed.cons {w v : Word} {a : Atom} {ts : List Token} (h : Bracketed w a)
    (hv : OperatorThenElements v ts) : Elements (w ++ v) (.atom a :: ts) := by
  rcases hv with hv | ⟨op, v', ts', rfl, rfl, hv⟩
  · exact .cons (.once h) hv
  · have hcons := Elements.cons (.repeated op h) hv
    rwa [List.append_assoc] at hcons

/-- What passes is a sequence of elements, with an operator in front only where one may come. -/
theorem elements_of_passes (w : Word) :
    (Passes false w → Elements w (Token.read w)) ∧
      (Passes true w → OperatorThenElements w (Token.read w)) := by
  induction w using Token.chunk_induction with
  | nil =>
    have hnil : Elements [] (Token.read []) := by
      rw [Token.read]
      exact .nil
    exact ⟨fun _ => hnil, fun _ => .inl hnil⟩
  | bracket b u v hu ih =>
    have helements {repeatable : Bool}
        (h : Passes repeatable (b.opening :: (u ++ b.closing :: v))) :
        Elements (b.opening :: (u ++ b.closing :: v))
          (Token.read (b.opening :: (u ++ b.closing :: v))) := by
      obtain ⟨hbody, hv⟩ := (passes_bracket_iff hu).1 h
      have hcons := (bracketed_iff.2 ⟨b, u, hbody, rfl, rfl⟩).cons (ih.2 hv)
      rw [Token.read_bracket b hu]
      simpa using hcons
    exact ⟨helements, fun h => .inl (helements h)⟩
  | unclosed b u hu =>
    exact ⟨fun h => absurd h (not_passes_unclosed hu), fun h => absurd h (not_passes_unclosed hu)⟩
  | operator op w ih =>
    refine ⟨fun h => absurd ((passes_operator_iff op).1 h).1 Bool.false_ne_true, fun h => .inr ?_⟩
    have hw : Passes false w := ((passes_operator_iff op).1 h).2
    exact ⟨op, w, Token.read w, rfl, Token.read_operator op w, ih.1 hw⟩
  | literal c w hc ih =>
    have helements {repeatable : Bool} (h : Passes repeatable (c :: w)) :
        Elements (c :: w) (Token.read (c :: w)) := by
      obtain ⟨⟨hstructural, hreserved⟩, hw⟩ := (passes_literal_iff hc).1 h
      rw [Token.read_literal hc]
      exact .cons (.literal hstructural hreserved) (ih.1 hw)
    exact ⟨helements, fun h => .inl (helements h)⟩

/-- A valid text is parsed as the tokens that are read from it. -/
theorem map_tokens_parse_iff {text : Word} {tokens : List Token} :
    (parse text).map (·.tokens) = .ok tokens ↔
      validate text = .ok () ∧ Token.read text = tokens := by
  rw [parse]
  split
  · next e h => simp [h, Except.map]
  · next h => simp [h, Except.map]

/-- **The validation accepts the grammar.** A text is valid exactly when it is a sequence of
elements and not empty, and it is parsed as the tokens of these elements, in order. -/
theorem validate_accepts_grammar (text : Word) :
    (validate text = .ok () ↔ text ≠ [] ∧ ∃ tokens, Elements text tokens) ∧
      ∀ tokens, (parse text).map (·.tokens) = .ok tokens ↔
        text ≠ [] ∧ Elements text tokens := by
  have hiff (tokens : List Token) :
      Passes false text ∧ Token.read text = tokens ↔ Elements text tokens := by
    refine ⟨?_, Elements.passes⟩
    rintro ⟨hp, rfl⟩
    exact (elements_of_passes text).1 hp
  refine ⟨?_, fun tokens => ?_⟩
  · rw [validate_iff_passes]
    refine and_congr_right fun _ => ⟨fun hp => ⟨_, (hiff _).1 ⟨hp, rfl⟩⟩, ?_⟩
    rintro ⟨tokens, h⟩
    exact ((hiff tokens).2 h).1
  · rw [map_tokens_parse_iff, validate_iff_passes, and_assoc, hiff]

end Pattern

end StringMachines
