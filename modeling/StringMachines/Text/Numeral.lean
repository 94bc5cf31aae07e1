import StringMachines.Word

/-!
# Numerals

A numeral is a sequence of decimal digits, with a plus sign in front or without. It is read from
left to right and refused at the first character that is no digit or makes the number too large.
-/

namespace StringMachines.Text.Numeral

/-- A reason to refuse a numeral. -/
inductive Error where
  | empty
  | invalidDigit
  | tooLarge
deriving DecidableEq, Repr

/-- The wording of a reason. -/
def Error.message : Error → String
  | empty => "cannot parse integer from empty string"
  | invalidDigit => "invalid digit found in string"
  | tooLarge => "number too large to fit in target type"

/-- Reads digits that continue the number `value`, which has to stay below `bound`. -/
def readDigits (bound value : Nat) : Word → Except Error Nat
  | [] => .ok value
  | c :: w =>
    if c.isDigit then
      let value := 10 * value + (c.toNat - '0'.toNat)
      if value < bound then readDigits bound value w else .error .tooLarge
    else .error .invalidDigit

/-- Reads a numeral below `bound`. A sign needs a digit after it. -/
def read (bound : Nat) : Word → Except Error Nat
  | [] => .error .empty
  | '+' :: [] => .error .invalidDigit
  | '+' :: w => readDigits bound 0 w
  | w => readDigits bound 0 w

end StringMachines.Text.Numeral
