import StringMachines.Pattern.Language
import StringMachines.Pattern.Match

/-!
# What the table of a pattern decides

A column of the table holds one answer per suffix of a text. It decides a language when each
answer says whether that suffix is a word of the language (`Column.Decides`). Each way of filling a
column has its language: `Column.once` puts one word of the atom in front (`Column.Decides.once`),
`Column.many` any number of them (`Column.Decides.many`). So the table of a list of items decides
the language of the items (`Table.decides_solve`), and the tokens of a pattern match exactly the
words of its language (`Pattern.isFullMatch_iff`).
-/

open Computability

namespace StringMachines

/-! ## One word of an atom in front of a language -/

/-- A word has a word of the atom in front when one of the pieces leaves a word of the language. -/
theorem Atom.mem_language_mul_iff {a : Atom} {L : Language Char} {w : Word} :
    w ∈ a.language * L ↔ ∃ piece ∈ a.pieces w, w.drop piece.length ∈ L := by
  constructor
  · rintro ⟨piece, hpiece, rest, hrest, rfl⟩
    refine ⟨piece, mem_pieces_iff.2 ⟨hpiece, List.prefix_append _ _⟩, ?_⟩
    rw [List.drop_left]
    exact hrest
  · rintro ⟨piece, hpiece, hrest⟩
    obtain ⟨hmem, rest, rfl⟩ := mem_pieces_iff.1 hpiece
    exact Language.append_mem_mul hmem (by simpa using hrest)

/-- Words of an atom are not empty, so nothing can stand in front of the empty word. -/
theorem Atom.nil_notMem_language_mul (a : Atom) (L : Language Char) : [] ∉ a.language * L := by
  intro h
  obtain ⟨piece, hpiece, -⟩ := mem_language_mul_iff.1 h
  obtain ⟨hne, hpre⟩ := mem_pieces hpiece
  exact hne (List.prefix_nil.1 hpre)

/-- Any number of words of `A` in front of `L`: none, or one and then any number of them. -/
theorem kstar_mul_eq (A L : Language Char) : A∗ * L = L + A * (A∗ * L) := by
  calc A∗ * L = (1 + A * A∗) * L := by rw [Language.one_add_self_mul_kstar_eq_kstar]
    _ = L + A * (A∗ * L) := by rw [add_mul, one_mul, mul_assoc]

/-! ## Columns -/

namespace Column

@[simp] theorem after_cons_zero (b : Bool) (column : Column) : after (b :: column) 0 = b :=
  rfl

@[simp] theorem after_cons_succ (b : Bool) (column : Column) (n : Nat) :
    after (b :: column) (n + 1) = after column n :=
  rfl

/-- The answers of what is left of a column. -/
theorem after_drop (column : Column) (m n : Nat) :
    after (column.drop m) n = after column (m + n) := by
  simp [after, List.getD_eq_getElem?_getD]

/-- Every answer of the column says whether the suffix of `w` that it stands for is in `L`. -/
def Decides (column : Column) (w : Word) (L : Language Char) : Prop :=
  ∀ u v, u ++ v = w → (column.after u.length = true ↔ v ∈ L)

namespace Decides

variable {column : Column} {w : Word} {L : Language Char}

/-- The first answer is that for the whole text. -/
theorem head (h : column.Decides w L) : column.after 0 = true ↔ w ∈ L :=
  h [] w rfl

/-- The column of a text goes on as the column of what is left of the text. -/
theorem drop {u v : Word} (h : column.Decides (u ++ v) L) :
    Decides (column.drop u.length) v L := by
  rintro u' v' rfl
  rw [after_drop, ← List.length_append]
  exact h (u ++ u') v' (by simp)

/-- The column without its first answer is that of the text without its first character. -/
theorem tail {c : Char} (h : column.Decides (c :: w) L) : Decides column.tail w L := by
  rw [← List.drop_one]
  exact drop (u := [c]) h

/-- The answer after a piece is that for what the piece leaves. -/
theorem after_piece (h : column.Decides w L) {a : Atom} {piece : Word}
    (hpiece : piece ∈ a.pieces w) :
    column.after piece.length = true ↔ w.drop piece.length ∈ L := by
  obtain ⟨-, rest, rfl⟩ := Atom.mem_pieces hpiece
  simpa using h piece rest rfl

/-- Some piece has a positive answer after it when a word of the atom stands in front. -/
theorem any_pieces (h : column.Decides w L) (a : Atom) :
    (a.pieces w).any (fun piece => column.after piece.length) = true ↔ w ∈ a.language * L := by
  rw [List.any_eq_true, Atom.mem_language_mul_iff]
  refine exists_congr fun piece => and_congr_right fun hpiece => ?_
  exact h.after_piece hpiece

/-- A column is made of its first answer and the column for the rest of the text. -/
theorem cons {c : Char} {b : Bool} (hb : b = true ↔ c :: w ∈ L) (h : column.Decides w L) :
    Decides (b :: column) (c :: w) L := by
  intro u v huv
  cases u with
  | nil =>
    obtain rfl : v = c :: w := huv
    simpa using hb
  | cons d u =>
    obtain ⟨-, rfl⟩ := List.cons.inj huv
    simpa using h u v rfl

/-- The column of the empty text is its only answer. -/
theorem singleton {b : Bool} (hb : b = true ↔ [] ∈ L) : Decides [b] [] L := by
  intro u v huv
  obtain ⟨rfl, rfl⟩ := List.append_eq_nil_iff.1 huv
  simpa using hb

/-- Without items, only the empty text is matched. -/
theorem one (w : Word) : Decides (w.map (fun _ => false) ++ [true]) w 1 := by
  induction w with
  | nil => exact singleton (by simp)
  | cons c w ih => exact cons (by simp) ih

/-- Taking one piece puts a word of the atom in front. -/
theorem once (a : Atom) (h : column.Decides w L) :
    Decides (Column.once a w column) w (a.language * L) := by
  induction w generalizing column with
  | nil =>
    refine singleton ⟨fun hf => absurd hf (by simp), fun hmem => ?_⟩
    exact absurd hmem (a.nil_notMem_language_mul L)
  | cons c w ih => exact cons (h.any_pieces a) (ih h.tail)

/-- The answer for `w` after a piece of `c :: w`, which takes `c` and possibly more. -/
theorem any_pieces_tail {c : Char} (h : column.Decides w L) (a : Atom) :
    (a.pieces (c :: w)).any (fun piece => column.after (piece.length - 1)) = true ↔
      c :: w ∈ a.language * L := by
  rw [List.any_eq_true, Atom.mem_language_mul_iff]
  refine exists_congr fun piece => and_congr_right fun hpiece => ?_
  obtain ⟨hne, rest, heq⟩ := Atom.mem_pieces hpiece
  cases piece with
  | nil => exact absurd rfl hne
  | cons d piece =>
    obtain ⟨-, rfl⟩ := List.cons.inj heq
    simpa using h piece rest rfl

/-- Taking any number of pieces puts any number of words of the atom in front. -/
theorem many (a : Atom) (h : column.Decides w L) :
    Decides (Column.many a w column) w (a.language∗ * L) := by
  induction w generalizing column with
  | nil =>
    refine singleton ?_
    rw [h.head, kstar_mul_eq, Language.mem_add]
    exact ⟨Or.inl, fun hmem => hmem.resolve_right (a.nil_notMem_language_mul _)⟩
  | cons c w ih =>
    refine cons ?_ (ih h.tail)
    rw [Bool.or_eq_true, any_pieces_tail (ih h.tail) a, h.head, kstar_mul_eq, Language.mem_add,
      ← kstar_mul_eq, or_comm]

end Decides

end Column

/-! ## Rows and tables -/

/-- A row decides what comes after its item, and its item's repetition before that. -/
structure Row.Decides (row : Row) (w : Word) (L : Language Char) : Prop where
  leave : row.leave.Decides w L
  again : row.again.Decides w (row.item.atom.language∗ * L)

namespace Row.Decides

variable {row : Row} {w : Word} {L : Language Char}

/-- A row's first column decides the item's language in front. -/
theorem enter (h : row.Decides w L) : (row.enter w).Decides w (row.item.language * L) := by
  unfold Row.enter
  cases hrep : row.item.repetition with
  | once =>
    rw [Item.language_once hrep]
    exact h.leave.once row.item.atom
  | zeroOrMore =>
    rw [Item.language_zeroOrMore hrep]
    exact h.again
  | oneOrMore =>
    rw [Item.language_oneOrMore hrep, mul_assoc]
    exact h.again.once row.item.atom

/-- The row of a text goes on as the row of what is left of the text. -/
theorem drop {u v : Word} (h : row.Decides (u ++ v) L) : (row.drop u.length).Decides v L :=
  ⟨h.leave.drop, h.again.drop⟩

end Row.Decides

namespace Table

/-- The row of an item, given a column that decides what comes after it. -/
theorem decides_row {w : Word} {L : Language Char} {column : Column} (item : Item)
    (h : column.Decides w L) :
    Row.Decides ⟨item, column, .many item.atom w column⟩ w L :=
  ⟨h, h.many item.atom⟩

/-- The table of some items decides their language. -/
theorem decides_solve (w : Word) (items : List Item) :
    (solve w items).enter.Decides w (Item.languageOf items) := by
  induction items with
  | nil => exact .one w
  | cons item items ih =>
    rw [Item.languageOf_cons]
    exact (decides_row item ih).enter

end Table

/-- The tokens match exactly the words of their language. -/
theorem Pattern.isFullMatch_iff {tokens : List Token} {subject : Word} :
    isFullMatch tokens subject = true ↔ subject ∈ language tokens := by
  rw [language_eq]
  exact (Table.decides_solve subject (Item.ofTokens tokens)).head

end StringMachines
