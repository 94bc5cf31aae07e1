import StringMachines.Text.GraphemeExtend
import StringMachines.Text.Unprintable
import StringMachines.Word

/-!
# Quoted text

Error messages show words and characters between quotation marks, with everything that would be
invisible or ambiguous on a line written as an escape. A word stands between double marks, a
character between single ones; only the enclosing mark is escaped. Since a mark or a backslash
inside the text is always preceded by a backslash, the closing mark is the first one that is not.
-/

namespace StringMachines.Text

/-- How one character is written between two copies of `mark`: the mark and the backslash behind
a backslash, the common controls by a letter, other characters without a visible form of their
own by their code point in hexadecimal, and the rest as they are. -/
def escape (mark c : Char) : Word :=
  if c = '\x00' then ['\\', '0']
  else if c = '\t' then ['\\', 't']
  else if c = '\r' then ['\\', 'r']
  else if c = '\n' then ['\\', 'n']
  else if c = '\\' ∨ c = mark then ['\\', c]
  else if extendsGrapheme c || isUnprintable c then
    ['\\', 'u', '\x7b'] ++ Nat.toDigits 16 c.toNat ++ ['\x7d']
  else [c]

/-- The word between two copies of `mark`. -/
def enclose (mark : Char) (w : Word) : Word :=
  mark :: w.flatMap (escape mark) ++ [mark]

/-- A word in double quotation marks. -/
def quote (w : Word) : String :=
  String.ofList (enclose '"' w)

/-- A character in single quotation marks. -/
def quoteChar (c : Char) : String :=
  String.ofList (enclose '\x27' [c])

/-- A list of words in square brackets, each quoted. -/
def quoteAll (ws : List Word) : String :=
  "[" ++ ", ".intercalate (ws.map quote) ++ "]"

end StringMachines.Text
