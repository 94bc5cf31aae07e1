import StringMachines.Pattern.CharClass

/-!
# Tokens of a pattern

A pattern is a sequence of atoms (a literal character, a group of alternatives, a character
class) and operators, each operator repeating the atom before it. `Token.read` cuts a text into
tokens and never fails, whatever the text: what makes a text a pattern is said in
`StringMachines.Pattern.Validation`. `Token.text` writes a token back.
-/

namespace StringMachines

/-- A postfix operator of the pattern language. -/
inductive Operator where
  /-- Zero or more times, written `*`. -/
  | star
  /-- One or more times, written `+`. -/
  | plus
deriving DecidableEq, Repr

/-- The character that stands for an operator. -/
def Operator.symbol : Operator → Char
  | star => '*'
  | plus => '+'

/-- What an operator can follow. -/
inductive Atom where
  /-- One given character. -/
  | literal (c : Char)
  /-- Any one of the alternatives; the text matched last is captured. -/
  | group (alternatives : List Word)
  /-- Any one character of a class. -/
  | charClass (items : CharClass)
deriving DecidableEq, Repr

namespace Atom

/-- The text of an atom. -/
def text : Atom → Word
  | literal c => [c]
  | group alternatives => '(' :: List.intercalate ['|'] alternatives ++ [')']
  | charClass items => '[' :: items.body ++ [']']

/-- The group of everything that a word standing partway through an alternative of this group
can have matched: the proper prefixes of the alternatives, in order. Other atoms, and groups of
single characters, cannot be left partway. -/
def extension? : Atom → Option Atom
  | group alternatives =>
    match alternatives.flatMap Word.properPrefixes with
    | [] => none
    | prefixes => some (group prefixes)
  | _ => none

end Atom

/-- A unit of pattern text. -/
inductive Token where
  | atom (a : Atom)
  | operator (op : Operator)
deriving DecidableEq, Repr

namespace Token

/-- Whether the token is an operator. -/
def isOperator : Token → Bool
  | atom _ => false
  | operator _ => true

/-- The text of a token. -/
def text : Token → Word
  | atom a => a.text
  | operator op => [op.symbol]

/-- The extension of the token's atom. -/
def extension? : Token → Option Token
  | atom a => a.extension?.map atom
  | operator _ => none

/-- Cuts a text into tokens. An opening bracket takes everything up to its closing bracket, or to
the end of the text when that is missing; a parenthesised body is cut at each `|`. -/
def read : Word → List Token
  | [] => []
  | '(' :: w => atom (.group ((Word.upTo ')' w).splitOn '|')) :: read (Word.beyond ')' w)
  | '[' :: w => atom (.charClass (.ofBody (Word.upTo ']' w))) :: read (Word.beyond ']' w)
  | '*' :: w => operator .star :: read w
  | '+' :: w => operator .plus :: read w
  | c :: w => atom (.literal c) :: read w
termination_by w => w.length
decreasing_by
  all_goals simp only [List.length_cons]
  · exact Nat.lt_succ_of_le (Word.length_beyond_le ')' w)
  · exact Nat.lt_succ_of_le (Word.length_beyond_le ']' w)
  all_goals exact Nat.lt_succ_self _

/-- The text of a sequence of tokens. -/
def textOf (tokens : List Token) : Word :=
  tokens.flatMap text

end Token

end StringMachines
