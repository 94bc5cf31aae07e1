import StringMachines.Pattern.Item

/-!
# Segmenting a text among the items of a pattern

A pattern matches a text when the text can be cut into pieces and dealt out among the items, each
item taking as many pieces as its repetition allows. Of all ways to do so, `Segmentation.first?`
gives the one that comes first when, from left to right, an item tries its pieces in order and
takes another piece before it lets the next item begin.

Whether an item can go on depends only on the item and on what is left of the text. The answers
are therefore tabulated first, in columns with one answer per suffix of the text, from the last
item to the first (`Table.solve`). The segmentation is then read off the table from left to right
(`Segmentation.walk`): of the pieces that can be taken, the first whose rest the table marks.
-/

namespace StringMachines

/-- The pieces one item takes, in order. -/
abbrev Pieces := List Word

/-- The pieces of each item, item by item. -/
abbrev Segmentation := List Pieces

/-- Answers for a text and for each of its suffixes, the whole text first. -/
abbrev Column := List Bool

namespace Column

/-- The answer for what is left after `n` characters. -/
def after (column : Column) (n : Nat) : Bool :=
  column.getD n false

/-- One piece can be taken such that `next` holds of the rest. -/
def once (a : Atom) : Word → Column → Column
  | [], _ => [false]
  | c :: w, next =>
    (a.pieces (c :: w)).any (fun piece => next.after piece.length) :: once a w next.tail

/-- Some pieces, or none, can be taken such that `next` holds of the rest. -/
def many (a : Atom) : Word → Column → Column
  | [], next => [next.after 0]
  | c :: w, next =>
    let later := many a w next.tail
    ((a.pieces (c :: w)).any (fun piece => later.after (piece.length - 1)) || next.after 0) :: later

/-- The pieces taken from the front of a text as long as `again` holds of the rest, each time the
first such piece. -/
def iterate (a : Atom) (again : Column) (w : Word) : Pieces :=
  match _h : (a.pieces w).find? (again.after ·.length) with
  | none => []
  | some piece => piece :: iterate a (again.drop piece.length) (w.drop piece.length)
termination_by w.length
decreasing_by
  obtain ⟨hne, hpre⟩ := Atom.mem_pieces (List.mem_of_find?_eq_some ‹_›)
  have := List.length_pos_iff.2 hne
  have := hpre.length_le
  simp only [List.length_drop]
  omega

end Column

/-- What is tabulated about an item, for a text and its suffixes. -/
structure Row where
  item : Item
  /-- Whether the items after this one match. -/
  leave : Column
  /-- Whether some further pieces of this item, or none, and then the items after it match. -/
  again : Column
deriving DecidableEq, Repr

namespace Row

/-- Whether the item and the items after it match. -/
def enter (row : Row) (w : Word) : Column :=
  match row.item.repetition with
  | .once => .once row.item.atom w row.leave
  | .zeroOrMore => row.again
  | .oneOrMore => .once row.item.atom w row.again

/-- The row for what is left after `n` characters. -/
def drop (row : Row) (n : Nat) : Row :=
  { row with leave := row.leave.drop n, again := row.again.drop n }

/-- The pieces that the item takes from the front of a text when the row is followed; none when
it offers no first piece to an item that has to take one. -/
def pieces? (row : Row) (w : Word) : Option Pieces :=
  let a := row.item.atom
  match row.item.repetition with
  | .once => ((a.pieces w).find? (row.leave.after ·.length)).map ([·])
  | .zeroOrMore => some (Column.iterate a row.again w)
  | .oneOrMore =>
    ((a.pieces w).find? (row.again.after ·.length)).map fun piece =>
      piece :: Column.iterate a (row.again.drop piece.length) (w.drop piece.length)

end Row

/-- The rows of some items, and whether the items match a text and its suffixes. -/
structure Table where
  enter : Column
  rows : List Row
deriving DecidableEq, Repr

/-- The table of a list of items: without items, only the empty text is matched. -/
def Table.solve (w : Word) : List Item → Table
  | [] => ⟨w.map (fun _ => false) ++ [true], []⟩
  | item :: items =>
    let later := solve w items
    let row : Row := ⟨item, later.enter, .many item.atom w later.enter⟩
    ⟨row.enter w, row :: later.rows⟩

namespace Segmentation

/-- The segmentation of the text from `position` on that the rows lead to. -/
def walk (w : Word) (position : Nat) : List Row → Option Segmentation
  | [] => some []
  | row :: rows =>
    ((row.drop position).pieces? (w.drop position)).bind fun pieces =>
      (walk w (position + pieces.flatten.length) rows).map (pieces :: ·)

/-- The first segmentation of the text among the items. -/
def first? (items : List Item) (w : Word) : Option Segmentation :=
  let table := Table.solve w items
  if table.enter.after 0 then walk w 0 table.rows else none

end Segmentation

end StringMachines
