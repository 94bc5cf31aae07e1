import StringMachines.Pattern.Match

/-!
# How far a candidate has got into a pattern

A candidate that is not yet a word of a pattern may still grow into one. It is compared with the
beginnings of the pattern: it has to match such a beginning fully, or to stand partway through an
alternative of the group that the beginning ends with (`Pattern.possibleMatch?`). What it has
matched is told by two kinds of numbers: how many atoms the beginning has, and how often each
group repeats in the candidate.

A greedy comparison lets the beginning grow until the candidate fits; a lazy one starts from the
whole pattern and lets it shrink.
-/

namespace StringMachines

/-- How far a candidate has got into a pattern. -/
structure Levels where
  /-- How many atoms the compared beginning of the pattern has. -/
  matchLevel : Nat
  /-- For each group, how many copies of its last piece stand one after another from where the
  group began. -/
  quantifierLevels : List Nat
deriving DecidableEq, Repr

/-- From which end a pattern is compared with a candidate. -/
inductive Quantifier where
  | greedy
  | lazy
deriving DecidableEq, Repr

/-- The copies of the captured text from the beginning of the group's run. -/
def Capture.copies (capture : Capture) (subject : Word) : Nat :=
  Word.copies (capture.text subject) (subject.drop capture.runStart)

namespace Levels

/-- The levels of a subject with the given captures, found by comparing it with `compared`. -/
def ofCaptures (compared : List Token) (subject : Word) (captures : List (Option Capture)) :
    Levels where
  matchLevel := compared.countP (fun token => !token.isOperator)
  quantifierLevels := captures.map fun slot => slot.elim 0 (·.copies subject)

end Levels

namespace Pattern

/-- The tokens that match what stands partway through the last group: a group without operator is
replaced by its extension, and a repeated one may be completed any number of times before it. -/
def extended? (compared : List Token) : Option (List Token) :=
  match compared.reverse with
  | .operator _ :: .atom (.group alternatives) :: before =>
    (Atom.group alternatives).extension?.map fun partway =>
      before.reverse ++ [.atom (.group alternatives), .operator .star, .atom partway]
  | .atom (.group alternatives) :: before =>
    (Atom.group alternatives).extension?.map fun partway => before.reverse ++ [.atom partway]
  | _ => none

/-- Compares a candidate with a beginning of a pattern: a full match comes first, then a match
that ends partway through the last group. -/
def possibleMatch? (compared : List Token) (candidate : Word) : Option Levels :=
  let captures := (fullMatch? compared candidate).orElse fun _ =>
    (extended? compared).bind (fullMatch? · candidate)
  captures.map (Levels.ofCaptures compared candidate)

/-- The lengths at which `n` tokens are cut from the back, longest first. An operator goes
together with the token before it. -/
def cutsFromBack (tokens : List Token) : Nat → List Nat
  | 0 => []
  | 1 => [1]
  | n + 2 =>
    (n + 2) ::
      if tokens[n + 1]?.any Token.isOperator then cutsFromBack tokens n
      else cutsFromBack tokens (n + 1)

/-- The lengths of the beginnings that a candidate is compared with, in order. -/
def cuts (tokens : List Token) : Quantifier → List Nat
  | .greedy => List.range' 1 tokens.length
  | .lazy => cutsFromBack tokens tokens.length

/-- The levels of a candidate: those of the first beginning that it fits, or none when it cannot
grow into a word of the pattern. -/
def levels? (tokens : List Token) (quantifier : Quantifier) (candidate : Word) : Option Levels :=
  (cuts tokens quantifier).findSome? fun n => possibleMatch? (tokens.take n) candidate

end Pattern

end StringMachines
