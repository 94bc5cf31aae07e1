import StringMachines.Pattern.Token
import StringMachines.Text.Quoted

/-!
# Why a text is not a pattern

One constructor per reason for which a text is refused, and the wording of each reason.
-/

namespace StringMachines.Pattern

/-- A reason to refuse a text as a pattern. -/
inductive Error where
  | empty
  /-- The text starts with an operator or a bar. -/
  | leadingOperator (c : Char)
  /-- The sequences that may not occur in a pattern and do occur in the text: one of them, and
  the others. -/
  | forbiddenSequences (found : Word) (others : List Word)
  /-- A bracket opens inside another. -/
  | nestedBracket (c : Char)
  /-- A bracket closes what is not open, or is never closed. -/
  | unbalancedBracket (c : Char)
  /-- A pair of brackets with nothing inside, named by its opening bracket. -/
  | emptyBracket (c : Char)
  | emptyAlternative
  | operatorInGroup (op : Char)
  /-- An operator that does not directly follow a group or a class. -/
  | danglingOperator (op : Operator)
  /-- A bar outside of every group. -/
  | topLevelAlternation
  | reversedRange (lo hi : Char)
deriving DecidableEq, Repr

namespace Error

/-- Whether the message could name something else as well. -/
def isAmbiguous : Error → Bool
  | forbiddenSequences _ others => !others.isEmpty
  | _ => false

/-- The wording of an error. -/
def message : Error → String
  | empty => "Empty pattern"
  | leadingOperator c => s!"Pattern starts with operator {Text.quoteChar c}"
  | forbiddenSequences found _ => s!"Forbidden sequence {Text.quote found} in pattern"
  | nestedBracket c => s!"Nested bracket {Text.quoteChar c} in pattern"
  | unbalancedBracket c => s!"Unbalanced bracket {Text.quoteChar c} in pattern"
  | emptyBracket c => s!"Empty bracket {Text.quoteChar c} in pattern"
  | emptyAlternative => "Empty alternative in group"
  | operatorInGroup op => s!"Operator {Text.quoteChar op} inside group"
  | danglingOperator op =>
    s!"Operator {Text.quoteChar op.symbol} must follow a group or character class"
  | topLevelAlternation => "Alternation '|' outside of a group"
  | reversedRange lo hi => s!"Invalid character range {lo}-{hi}"

end Error

end StringMachines.Pattern
