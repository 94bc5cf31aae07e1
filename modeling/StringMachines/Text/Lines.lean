import StringMachines.Word

/-!
# Lines of a text

A line ends with a newline, and a carriage return directly before it belongs to the ending. The
last line may lack its newline; then it ends with the text, and nothing is taken off it. There is
no line after a final newline.
-/

namespace StringMachines.Text

/-- A line without the carriage return that its ending may begin with. -/
def withoutReturn (line : Word) : Word :=
  if line.getLast? = some '\r' then line.dropLast else line

/-- The lines of a text. -/
def lines (text : Word) : List Word :=
  let pieces := text.splitOn '\n'
  pieces.dropLast.map withoutReturn ++ (pieces.getLast?.filter (· ≠ [])).toList

end StringMachines.Text
