import StringMachines.Pattern.Error
import StringMachines.Word.Occurrence

/-!
# Which texts are patterns

A text is checked as a whole first (its first character, the sequences that may not occur, the
brackets) and then token by token. `Pattern.validate` answers with the first reason to refuse it;
`Pattern.parse` gives the tokens of a text that there is no reason to refuse.
-/

namespace StringMachines

namespace Pattern

/-! ## The text as a whole -/

/-- The sequences that may not occur in a pattern: characters kept for richer pattern languages,
and the operator pairs that would have a meaning of their own there. -/
def forbiddenSequences : List Word :=
  ("\x7b\x7d<>\\.^$?#:!=".toList.map ([·])) ++ [['*', '+'], ['+', '+']]

/-- The bracket that a closing bracket closes. -/
def opening (close : Char) : Char :=
  if close = ')' then '(' else '['

/-- Checks that brackets come in pairs, one pair after the other; `opened` is the bracket that is
open, if any. -/
def checkBrackets (opened : Option Char) : Word → Except Error Unit
  | [] =>
    match opened with
    | some c => .error (.unbalancedBracket c)
    | none => .ok ()
  | c :: w =>
    if c = '(' ∨ c = '[' then
      if opened.isSome then .error (.nestedBracket c) else checkBrackets (some c) w
    else if c = ')' ∨ c = ']' then
      if opened = some (opening c) then checkBrackets none w else .error (.unbalancedBracket c)
    else checkBrackets opened w

/-! ## Token by token -/

/-- Checks one atom on its own. -/
def checkAtom : Atom → Except Error Unit
  | .literal c => if c = '|' then .error .topLevelAlternation else .ok ()
  | .group alternatives =>
    if alternatives = [[]] then .error (.emptyBracket '(')
    else if alternatives.any List.isEmpty then .error .emptyAlternative
    else
      match alternatives.flatten.find? (fun c => c = '*' ∨ c = '+') with
      | some op => .error (.operatorInGroup op)
      | none => .ok ()
  | .charClass items =>
    if items.isEmpty then .error (.emptyBracket '[')
    else
      match items.find? ClassItem.isReversed with
      | some (.range lo hi) => .error (.reversedRange lo hi)
      | _ => .ok ()

/-- Whether an operator may follow the token. -/
def mayRepeat : Token → Bool
  | .atom (.group _) | .atom (.charClass _) => true
  | _ => false

/-- Checks the tokens from left to right; `repeatable` says whether an operator may come first. -/
def checkTokens (repeatable : Bool) : List Token → Except Error Unit
  | [] => .ok ()
  | token :: rest =>
    match token with
    | .operator op =>
      if repeatable then checkTokens false rest else .error (.danglingOperator op)
    | .atom a =>
      match checkAtom a with
      | .error e => .error e
      | .ok () => checkTokens (mayRepeat token) rest

/-! ## Patterns -/

/-- Answers with the first reason to refuse the text. -/
def validate (text : Word) : Except Error Unit := do
  match text with
  | [] => throw .empty
  | c :: _ => if c = '*' ∨ c = '+' ∨ c = '|' then throw (.leadingOperator c)
  match forbiddenSequences.filter (·.occursIn text) with
  | [] => pure ()
  | found :: others => throw (.forbiddenSequences found others)
  checkBrackets none text
  checkTokens false (Token.read text)

end Pattern

/-- A pattern: the tokens of a text that the validation lets pass. -/
structure Pattern where
  tokens : List Token
  /-- The text that the tokens were read from. -/
  of_valid_text : ∃ text, Pattern.validate text = .ok () ∧ tokens = Token.read text

namespace Pattern

/-- The pattern that a text denotes. -/
def parse (text : Word) : Except Error Pattern :=
  match h : validate text with
  | .error e => .error e
  | .ok () => .ok ⟨Token.read text, text, h, rfl⟩

/-- The text of a pattern. -/
def text (p : Pattern) : Word :=
  Token.textOf p.tokens

end Pattern

end StringMachines
