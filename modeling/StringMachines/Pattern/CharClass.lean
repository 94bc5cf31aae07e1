import StringMachines.Word

/-!
# Character classes

A class is a list of single characters and inclusive ranges, written between square brackets in
a pattern. `CharClass.ofBody` reads the text between the brackets and `CharClass.body` writes it;
reading what was read gives the text back (`CharClass.body_ofBody`).
-/

namespace StringMachines

/-- One entry of a character class. -/
inductive ClassItem where
  /-- This character only. -/
  | single (c : Char)
  /-- Every character from `lo` to `hi`, both included; none when `hi` comes before `lo`. -/
  | range (lo hi : Char)
deriving DecidableEq, Repr

namespace ClassItem

/-- Membership in one entry. -/
def contains : ClassItem → Char → Bool
  | single c, d => c == d
  | range lo hi, d => lo ≤ d && d ≤ hi

/-- The text of one entry. -/
def text : ClassItem → Word
  | single c => [c]
  | range lo hi => [lo, '-', hi]

/-- A range whose ends are the wrong way round. -/
def isReversed : ClassItem → Bool
  | single _ => false
  | range lo hi => hi < lo

end ClassItem

/-- A character class: the union of its entries. -/
abbrev CharClass := List ClassItem

namespace CharClass

/-- Membership in the class. -/
def contains (items : CharClass) (c : Char) : Bool :=
  items.any (·.contains c)

/-- Reads the text between the brackets from left to right. A dash with a character on either
side of it makes a range; any other dash stands for itself. -/
def ofBody : Word → CharClass
  | lo :: '-' :: hi :: rest => .range lo hi :: ofBody rest
  | c :: rest => .single c :: ofBody rest
  | [] => []

/-- The text between the brackets. -/
def body (items : CharClass) : Word :=
  items.flatMap ClassItem.text

/-- Reading a body loses nothing of its text. -/
theorem body_ofBody (w : Word) : body (ofBody w) = w := by
  fun_induction ofBody w with
  | case1 lo hi rest ih => simpa [body, ClassItem.text] using ih
  | case2 c rest _ ih => simpa [body, ClassItem.text] using ih
  | case3 => rfl

end CharClass

end StringMachines
