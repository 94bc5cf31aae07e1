import StringMachines.Word

/-!
# Text for a terminal

Messages quote what a user has typed. Characters that a terminal takes as the beginning of a
control sequence are shown by their code instead, so that no message can control the terminal.
-/

namespace StringMachines.Text

/-- Escape, bell, backspace, form feed and delete. -/
def controlCharacters : List Char :=
  ['\x1b', '\x07', '\x08', '\x0c', '\x7f']

/-- How a character is shown: the controls by two hexadecimal digits, the controls from U+0080 to
U+009F by their code point, and the rest as they are. -/
def shown (c : Char) : Word :=
  let digits := Nat.toDigits 16 c.toNat
  if c ∈ controlCharacters then ['\\', 'x'] ++ List.replicate (2 - digits.length) '0' ++ digits
  else if 0x80 ≤ c.toNat ∧ c.toNat ≤ 0x9f then ['\\', 'u', '\x7b'] ++ digits ++ ['\x7d']
  else [c]

/-- A message without anything that could control a terminal. -/
def guarded (message : String) : String :=
  String.ofList (message.toList.flatMap shown)

end StringMachines.Text
