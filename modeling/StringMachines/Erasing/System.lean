import StringMachines.Error
import StringMachines.Pattern.Levels
import StringMachines.SortedSet

/-!
# Erasing systems

An erasing system has a list of erasing strings and a pattern. It accepts an input when erasing
strings can be removed from it, one occurrence at a time, until nothing is left, and the strings
removed, read in order, form a word of the pattern. This module builds such systems; their runs
are in `StringMachines.Erasing.Run`.
-/

namespace StringMachines

/-- At which occurrences of an erasing string the search tries to remove it. -/
inductive PositionMode where
  | all
  | first
deriving DecidableEq, Repr

/-- How an erasing system is run. -/
structure Settings where
  quantifier : Quantifier := .greedy
  positions : PositionMode := .all
  /-- Whether runs are reported as information rather than as a trace. -/
  verbose : Bool := false
deriving DecidableEq, Repr

/-- Erasing strings, without repetition and none of them empty, and the pattern for what is
erased. -/
structure ErasingSystem where
  strings : List Word
  strings_nodup : strings.Nodup
  strings_ne_nil : ∀ e ∈ strings, e ≠ []
  pattern : Pattern
  settings : Settings

namespace ErasingSystem

/-- The symbols that may not occur in an erasing string. -/
def reservedSymbols : List Char :=
  "()[]\x7b\x7d<>\\.^$?#:!=".toList

/-- What is wrong with a word as an erasing string. -/
def stringFault? (e : Word) : Option Error :=
  if e = [] then some .emptyErasingString
  else (e.find? (· ∈ reservedSymbols)).map (.reservedSymbol e)

/-- Builds a system. Of equal strings the first stays; the strings are checked in order, then the
pattern. -/
def build (strings : List Word) (pattern : Word) (settings : Settings) :
    Except Error ErasingSystem :=
  match h : strings.eraseDups.findSome? stringFault? with
  | some fault => .error fault
  | none =>
    match Pattern.parse pattern with
    | .error cause => .error (.invalidPattern cause)
    | .ok pattern => .ok {
        strings := strings.eraseDups
        strings_nodup := Word.nodup_eraseDups strings
        strings_ne_nil := fun e he hnil => by
          have := List.findSome?_eq_none_iff.1 h e he
          simp [stringFault?, hnil] at this
        pattern
        settings }

/-- The characters of the erasing strings. -/
def alphabet (system : ErasingSystem) : Word :=
  SortedSet.ofList system.strings.flatten

/-- How far a trace has got into the pattern. -/
def levels? (system : ErasingSystem) (quantifier : Quantifier) (trace : Word) : Option Levels :=
  Pattern.levels? system.pattern.tokens quantifier trace

end ErasingSystem

end StringMachines
