import StringMachines.Proofs.Pattern.Shape

/-!
# Writing back what was read

A text is read in chunks: a bracket with everything up to its closing bracket, or a single
character (`Token.chunk_induction`). The tokens are written as the text they were read from, and
the closing bracket of the last chunk is written even when it was missing (`Token.textOf_read`).
With that bracket the text is read as before (`Token.read_append_missing`). A text that is a
pattern has its brackets in pairs, so nothing is missing from it, and a pattern determines its text
(`Pattern.text_undoes_reading`).
-/

namespace StringMachines

/-! ## Brackets -/

/-- The two pairs of brackets. -/
inductive Bracket where
  | round
  | square

namespace Bracket

/-- The bracket that opens the pair. -/
def opening : Bracket → Char
  | round => '('
  | square => '['

/-- The bracket that closes the pair. -/
def closing : Bracket → Char
  | round => ')'
  | square => ']'

/-- The atom that a body between the brackets is read as. -/
def atom : Bracket → Word → Atom
  | round, body => .group (body.splitOn '|')
  | square, body => .charClass (.ofBody body)

/-- The atom is written with the body it was read from. -/
theorem text_atom (b : Bracket) (body : Word) :
    (b.atom body).text = b.opening :: (body ++ [b.closing]) := by
  cases b with
  | round => simp [atom, Atom.text, List.intercalate_splitOn, opening, closing]
  | square => simp [atom, Atom.text, CharClass.body_ofBody, opening, closing]

end Bracket

/-! ## Chunks of a text -/

namespace Token

/-- A bracket and what stands before its closing bracket are read as one atom. -/
theorem read_opening (b : Bracket) (w : Word) :
    read (b.opening :: w) =
      .atom (b.atom (Word.upTo b.closing w)) :: read (Word.beyond b.closing w) := by
  cases b with
  | round => exact read.eq_2 w
  | square => exact read.eq_3 w

/-- A bracket takes everything up to its closing bracket. -/
theorem read_bracket (b : Bracket) {u : Word} (h : b.closing ∉ u) (v : Word) :
    read (b.opening :: (u ++ b.closing :: v)) = .atom (b.atom u) :: read v := by
  rw [read_opening, Word.upTo_append_cons h, Word.beyond_append_cons h]

/-- A bracket that is not closed takes everything. -/
theorem read_unclosed (b : Bracket) {u : Word} (h : b.closing ∉ u) :
    read (b.opening :: u) = [.atom (b.atom u)] := by
  obtain ⟨hupTo, hbeyond⟩ := Word.upTo_beyond_of_notMem h
  rw [read_opening, hupTo, hbeyond, read]

/-- An operator is read on its own. -/
theorem read_operator (op : Operator) (w : Word) :
    read (op.symbol :: w) = .operator op :: read w := by
  cases op with
  | star => exact read.eq_4 w
  | plus => exact read.eq_5 w

/-- The characters that do not stand for themselves. -/
def special : List Char :=
  ['(', '[', '*', '+']

theorem notMem_special_iff {c : Char} :
    c ∉ special ↔ c ≠ '(' ∧ c ≠ '[' ∧ c ≠ '*' ∧ c ≠ '+' := by
  simp [special]

/-- Every other character is read on its own. -/
theorem read_literal {c : Char} (h : c ∉ special) (w : Word) :
    read (c :: w) = .atom (.literal c) :: read w := by
  obtain ⟨hround, hsquare, hstar, hplus⟩ := notMem_special_iff.1 h
  exact read.eq_6 c w hround hsquare hstar hplus

/-- Induction along the chunks of a text. -/
@[elab_as_elim]
theorem chunk_induction {motive : Word → Prop} (nil : motive [])
    (bracket : ∀ (b : Bracket) (u v : Word), b.closing ∉ u → motive v →
      motive (b.opening :: (u ++ b.closing :: v)))
    (unclosed : ∀ (b : Bracket) (u : Word), b.closing ∉ u → motive (b.opening :: u))
    (operator : ∀ (op : Operator) (w : Word), motive w → motive (op.symbol :: w))
    (literal : ∀ (c : Char) (w : Word), c ∉ special → motive w → motive (c :: w))
    (w : Word) : motive w := by
  induction hlength : w.length using Nat.strong_induction_on generalizing w with
  | _ n ih =>
    subst hlength
    cases w with
    | nil => exact nil
    | cons c w =>
      have hw : motive w := ih w.length (by simp) w rfl
      have hbracket (b : Bracket) : motive (b.opening :: w) := by
        by_cases hmem : b.closing ∈ w
        · obtain ⟨u, v, rfl, hu⟩ := List.eq_append_cons_of_mem hmem
          have hlt : v.length < (b.opening :: (u ++ b.closing :: v)).length := by
            simp only [List.length_cons, List.length_append]
            omega
          exact bracket b u v hu (ih v.length hlt v rfl)
        · exact unclosed b w hmem
      by_cases hc : c ∈ special
      · simp only [special, List.mem_cons, List.not_mem_nil, or_false] at hc
        rcases hc with rfl | rfl | rfl | rfl
        · exact hbracket .round
        · exact hbracket .square
        · exact operator .star w hw
        · exact operator .plus w hw
      · exact literal c w hc hw

/-! ## Writing a text back -/

/-- The closing bracket that is awaited after one more character. Between brackets nothing but the
closing bracket counts. -/
def await (awaited : Option Char) (c : Char) : Option Char :=
  match awaited with
  | some closing => if c = closing then none else some closing
  | none => if c = '(' then some ')' else if c = '[' then some ']' else none

/-- The closing bracket that is missing at the end of a text, when a bracket was opened and not
closed again. -/
def missing (w : Word) : Option Char :=
  w.foldl await none

/-- An opening bracket awaits the closing one. -/
theorem await_opening (b : Bracket) : await none b.opening = some b.closing := by
  cases b <;> rfl

/-- The closing bracket is awaited as long as it does not come. -/
theorem foldl_await_of_notMem {closing : Char} {u : Word} (h : closing ∉ u) :
    u.foldl await (some closing) = some closing := by
  induction u with
  | nil => rfl
  | cons c u ih =>
    obtain ⟨hc, hu⟩ := List.ne_and_not_mem_of_not_mem_cons h
    rw [List.foldl_cons, await, if_neg (Ne.symm hc), ih hu]

theorem missing_bracket (b : Bracket) {u : Word} (h : b.closing ∉ u) (v : Word) :
    missing (b.opening :: (u ++ b.closing :: v)) = missing v := by
  have hclosed : await (some b.closing) b.closing = none := if_pos rfl
  rw [missing, List.foldl_cons, await_opening, List.foldl_append, foldl_await_of_notMem h,
    List.foldl_cons, hclosed, missing]

theorem missing_unclosed (b : Bracket) {u : Word} (h : b.closing ∉ u) :
    missing (b.opening :: u) = some b.closing := by
  rw [missing, List.foldl_cons, await_opening, foldl_await_of_notMem h]

theorem missing_operator (op : Operator) (w : Word) : missing (op.symbol :: w) = missing w := by
  cases op <;> rfl

theorem missing_literal {c : Char} (h : c ∉ special) (w : Word) :
    missing (c :: w) = missing w := by
  obtain ⟨hround, hsquare, -⟩ := notMem_special_iff.1 h
  have hawait : await none c = none := by rw [await, if_neg hround, if_neg hsquare]
  rw [missing, List.foldl_cons, hawait, missing]

/-- The tokens of a text are written as that text, and with the closing bracket that is missing. -/
theorem textOf_read (w : Word) : textOf (read w) = w ++ (missing w).toList := by
  induction w using chunk_induction with
  | nil =>
    rw [read]
    rfl
  | bracket b u v hu ih =>
    rw [read_bracket b hu, missing_bracket b hu]
    show (b.atom u).text ++ textOf (read v) = _
    rw [b.text_atom, ih]
    simp
  | unclosed b u hu =>
    rw [read_unclosed b hu, missing_unclosed b hu]
    show (b.atom u).text ++ [] = _
    rw [b.text_atom]
    simp
  | operator op w ih =>
    rw [read_operator, missing_operator]
    show op.symbol :: textOf (read w) = _
    rw [ih]
    rfl
  | literal c w hc ih =>
    rw [read_literal hc, missing_literal hc]
    show c :: textOf (read w) = _
    rw [ih]
    rfl

/-- Adding the closing bracket that is missing changes none of the tokens. -/
theorem read_append_missing (w : Word) : read (w ++ (missing w).toList) = read w := by
  induction w using chunk_induction with
  | nil => rfl
  | bracket b u v hu ih =>
    rw [missing_bracket b hu, List.cons_append, List.append_assoc, List.cons_append,
      read_bracket b hu, read_bracket b hu, ih]
  | unclosed b u hu =>
    have hclosed := read_bracket b hu []
    rw [missing_unclosed b hu, read_unclosed b hu]
    exact hclosed.trans (by rw [read])
  | operator op w ih => rw [missing_operator, List.cons_append, read_operator, read_operator, ih]
  | literal c w hc ih =>
    rw [missing_literal hc, List.cons_append, read_literal hc, read_literal hc, ih]

end Token

/-! ## Patterns -/

namespace Pattern

/-- The characters that open or close a pair. -/
def brackets : List Char :=
  ['(', ')', '[', ']']

/-- Outside of brackets a bracket may be opened. -/
theorem checkBrackets_opening (b : Bracket) (w : Word) :
    checkBrackets none (b.opening :: w) = checkBrackets (some b.opening) w := by
  cases b <;> rfl

/-- Outside of brackets no bracket may be closed, and other characters do not count. -/
theorem checkBrackets_cons_iff {c : Char} (hround : c ≠ '(') (hsquare : c ≠ '[') {w : Word} :
    checkBrackets none (c :: w) = .ok () ↔ c ∉ brackets ∧ checkBrackets none w = .ok () := by
  rw [checkBrackets, if_neg (by simp [hround, hsquare])]
  by_cases hc : c = ')' ∨ c = ']'
  · simp only [hc, if_true, reduceCtorEq, if_false, false_iff, brackets]
    grind
  · rw [if_neg hc]
    simp only [brackets]
    grind

/-- Between brackets only the closing bracket may come, and other characters do not count. -/
theorem checkBrackets_some_cons_iff {b : Bracket} {c : Char} {w : Word} :
    checkBrackets (some b.opening) (c :: w) = .ok () ↔
      c = b.closing ∧ checkBrackets none w = .ok () ∨
        c ∉ brackets ∧ checkBrackets (some b.opening) w = .ok () := by
  cases b <;>
    simp only [checkBrackets, Bracket.opening, Bracket.closing, brackets, opening] <;> grind

/-- What is between brackets goes up to the closing bracket and has no bracket in it. -/
theorem checkBrackets_body_iff {b : Bracket} {u v : Word} (h : b.closing ∉ u) :
    checkBrackets (some b.opening) (u ++ b.closing :: v) = .ok () ↔
      (∀ c ∈ u, c ∉ brackets) ∧ checkBrackets none v = .ok () := by
  induction u with
  | nil =>
    have hclosing : b.closing ∈ brackets := by cases b <;> decide
    simp [checkBrackets_some_cons_iff, hclosing]
  | cons c u ih =>
    obtain ⟨hc, hu⟩ := List.ne_and_not_mem_of_not_mem_cons h
    simp [checkBrackets_some_cons_iff, Ne.symm hc, ih hu, and_assoc]

/-- A bracket that is open has to be closed. -/
theorem closing_mem_of_checkBrackets {b : Bracket} {w : Word}
    (h : checkBrackets (some b.opening) w = .ok ()) : b.closing ∈ w := by
  induction w with
  | nil => cases h
  | cons c w ih =>
    rcases checkBrackets_some_cons_iff.1 h with ⟨rfl, -⟩ | ⟨-, hw⟩
    · exact List.mem_cons_self
    · exact List.mem_cons_of_mem c (ih hw)

/-- Brackets that come in pairs leave none missing. -/
theorem missing_eq_none_of_checkBrackets {w : Word} (h : checkBrackets none w = .ok ()) :
    Token.missing w = none := by
  induction w using Token.chunk_induction with
  | nil => rfl
  | bracket b u v hu ih =>
    rw [checkBrackets_opening, checkBrackets_body_iff hu] at h
    rw [Token.missing_bracket b hu, ih h.2]
  | unclosed b u hu =>
    rw [checkBrackets_opening] at h
    exact absurd (closing_mem_of_checkBrackets h) hu
  | operator op w ih =>
    have hw : checkBrackets none w = .ok () := by
      cases op with
      | star => exact h
      | plus => exact h
    rw [Token.missing_operator, ih hw]
  | literal c w hc ih =>
    obtain ⟨hround, hsquare, -⟩ := Token.notMem_special_iff.1 hc
    have hw := ((checkBrackets_cons_iff hround hsquare).1 h).2
    rw [Token.missing_literal hc, ih hw]

/-- The text of a pattern is the text it was parsed from. -/
theorem text_of_parse {text : Word} {p : Pattern} (h : parse text = .ok p) : p.text = text := by
  obtain ⟨hvalid, htokens⟩ := parse_eq_ok_iff.1 h
  have hbrackets := (validate_eq_ok_iff.1 hvalid).2.2.1
  rw [Pattern.text, htokens, Token.textOf_read, missing_eq_none_of_checkBrackets hbrackets]
  exact List.append_nil text

/-- **Writing undoes reading.** The tokens of any text are written as that text, and with the
closing bracket that is missing when a bracket was opened and not closed again; read again, what is
written gives the same tokens. A pattern is written as the text it was parsed from, so no two texts
are parsed as the same pattern. -/
theorem text_undoes_reading (text : Word) :
    Token.textOf (Token.read text) = text ++ (Token.missing text).toList ∧
      Token.read (Token.textOf (Token.read text)) = Token.read text ∧
      ∀ p, parse text = .ok p → p.text = text ∧ ∀ text', parse text' = .ok p → text' = text := by
  refine ⟨Token.textOf_read text, ?_, fun p hp => ⟨text_of_parse hp, fun text' hp' => ?_⟩⟩
  · rw [Token.textOf_read, Token.read_append_missing]
  · rw [← text_of_parse hp', text_of_parse hp]

/-- A class that is not closed is written with its closing bracket, and a pattern with a stray dash
in a class as it stands. -/
theorem text_of_open_and_closed_class :
    Token.textOf (Token.read "x[a-f-".toList) = "x[a-f-]".toList ∧
      ∃ p, parse "(ab|c)*[a-f-]".toList = .ok p ∧ p.text = "(ab|c)*[a-f-]".toList := by
  have hopen := (text_undoes_reading "x[a-f-".toList).1
  have hread : Token.read "(ab|c)*[a-f-]".toList =
      [.atom (.group [['a', 'b'], ['c']]), .operator .star,
        .atom (.charClass [.range 'a' 'f', .single '-'])] := by
    simp [Token.read, Word.upTo, Word.beyond, List.splitOn_cons_eq_if_modifyHead, CharClass.ofBody]
  obtain ⟨p, hparse, -⟩ := exists_parse_of_read hread ⟨'(', by simp, by decide⟩ (by decide)
    (by decide) (by decide)
  exact ⟨hopen, p, hparse, ((text_undoes_reading _).2.2 p hparse).1⟩

end Pattern

end StringMachines
