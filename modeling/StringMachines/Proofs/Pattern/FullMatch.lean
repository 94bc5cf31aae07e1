import StringMachines.Proofs.Pattern.Table

/-!
# Reading a match off the table

A segmentation of a text gives each item as many words of its atom as its repetition allows, and
the words of all items together are the text (`Segments`). Where the table says that the items
match, following its rows never gets stuck, and what they lead to is a segmentation
(`Segmentation.exists_walk`): the first piece that the table marks leaves a text that the item, or
the items after it, match again. Hence a full match gives captures exactly when the table says
that there is one (`Pattern.matcher_decides_language`).
-/

open Computability

namespace StringMachines

/-! ## Segmentations -/

/-- How many pieces a repetition allows. -/
def Repetition.Allows : Repetition → Nat → Prop
  | once, n => n = 1
  | zeroOrMore, _ => True
  | oneOrMore, n => 1 ≤ n

/-- The pieces are words of the item's atom, as many as its repetition allows. -/
structure Item.Takes (item : Item) (pieces : Pieces) : Prop where
  words : ∀ piece ∈ pieces, piece ∈ item.atom.language
  count : item.repetition.Allows pieces.length

/-- The text is cut into the pieces that the items take, in order. -/
inductive Segments : List Item → Segmentation → Word → Prop
  | nil : Segments [] [] []
  | cons {item : Item} {items : List Item} {pieces : Pieces} {rest : Segmentation} {w : Word} :
      item.Takes pieces → Segments items rest w →
      Segments (item :: items) (pieces :: rest) (pieces.flatten ++ w)

/-! ## The pieces of one item -/

namespace Column.Decides

variable {column : Column} {w : Word} {L : Language Char} {a : Atom}

/-- A first piece with a positive answer is a word of the atom, and leaves a word of `L`. -/
theorem of_find? (h : column.Decides w L) {piece : Word}
    (hfind : (a.pieces w).find? (column.after ·.length) = some piece) :
    piece ∈ a.language ∧ ∃ rest ∈ L, w = piece ++ rest := by
  have hpiece := List.mem_of_find?_eq_some hfind
  have hafter : column.after piece.length = true := by simpa using List.find?_some hfind
  obtain ⟨hmem, rest, rfl⟩ := Atom.mem_pieces_iff.1 hpiece
  exact ⟨hmem, rest, (h piece rest rfl).1 hafter, rfl⟩

/-- There is a piece with a positive answer exactly when a word of the atom stands in front. -/
theorem find?_isSome_iff (h : column.Decides w L) :
    ((a.pieces w).find? (column.after ·.length)).isSome = true ↔ w ∈ a.language * L := by
  rw [List.find?_isSome, ← h.any_pieces a, List.any_eq_true]

/-- Where the repetition of an atom and then `L` match, iterating takes words of the atom and
leaves a word of `L`: it stops only where no further piece can be taken. -/
theorem iterate (h : column.Decides w (a.language∗ * L)) (hw : w ∈ a.language∗ * L) :
    (∀ piece ∈ Column.iterate a column w, piece ∈ a.language) ∧
      ∃ rest ∈ L, w = (Column.iterate a column w).flatten ++ rest := by
  fun_induction Column.iterate a column w with
  | case1 column w hfind =>
    have hnot : w ∉ a.language * (a.language∗ * L) := by
      rw [← h.find?_isSome_iff, hfind]
      simp
    rw [kstar_mul_eq, Language.mem_add] at hw
    exact ⟨by simp, w, hw.resolve_right hnot, rfl⟩
  | case2 column w piece hfind ih =>
    obtain ⟨hpiece, v, hv, rfl⟩ := h.of_find? hfind
    rw [List.drop_left] at ih ⊢
    obtain ⟨hwords, rest, hrest, hflat⟩ := ih h.drop hv
    refine ⟨?_, rest, hrest, ?_⟩
    · intro p hp
      rcases List.mem_cons.1 hp with rfl | hp
      · exact hpiece
      · exact hwords p hp
    · rw [List.flatten_cons, List.append_assoc, ← hflat]

end Column.Decides

/-- Where an item and then `L` match, the row gives pieces that the item takes and that leave a
word of `L`. -/
theorem Row.Decides.exists_pieces {row : Row} {w : Word} {L : Language Char}
    (h : row.Decides w L) (hw : w ∈ row.item.language * L) :
    ∃ pieces, row.pieces? w = some pieces ∧ row.item.Takes pieces ∧
      ∃ rest ∈ L, w = pieces.flatten ++ rest := by
  unfold Row.pieces?
  cases hrep : row.item.repetition with
  | once =>
    rw [Item.language_once hrep, ← h.leave.find?_isSome_iff] at hw
    obtain ⟨piece, hfind⟩ := Option.isSome_iff_exists.1 hw
    obtain ⟨hpiece, rest, hrest, heq⟩ := h.leave.of_find? hfind
    refine ⟨[piece], by simp [hfind], ⟨by simpa using hpiece, ?_⟩, rest, hrest, by simpa using heq⟩
    rw [hrep]
    rfl
  | zeroOrMore =>
    rw [Item.language_zeroOrMore hrep] at hw
    obtain ⟨hwords, hrest⟩ := h.again.iterate hw
    refine ⟨_, rfl, ⟨hwords, ?_⟩, hrest⟩
    rw [hrep]
    trivial
  | oneOrMore =>
    rw [Item.language_oneOrMore hrep, mul_assoc, ← h.again.find?_isSome_iff] at hw
    obtain ⟨piece, hfind⟩ := Option.isSome_iff_exists.1 hw
    obtain ⟨hpiece, v, hv, rfl⟩ := h.again.of_find? hfind
    obtain ⟨hwords, rest, hrest, hflat⟩ := h.again.drop.iterate hv
    simp only [hfind, Option.map_some, List.drop_left]
    refine ⟨_, rfl, ⟨?_, ?_⟩, rest, hrest, ?_⟩
    · intro p hp
      rcases List.mem_cons.1 hp with rfl | hp
      · exact hpiece
      · exact hwords p hp
    · rw [hrep]
      exact Nat.succ_le_succ (Nat.zero_le _)
    · rw [List.flatten_cons, List.append_assoc, ← hflat]

/-! ## The whole text -/

namespace Segmentation

/-- From a place where the items match what is left of the text, following the rows of the table
gives a segmentation of what is left. -/
theorem exists_walk {w : Word} {items : List Item} {u v : Word} (huv : u ++ v = w)
    (hv : v ∈ Item.languageOf items) :
    ∃ segmentation, walk w u.length (Table.solve w items).rows = some segmentation ∧
      Segments items segmentation v := by
  induction items generalizing u v with
  | nil =>
    obtain rfl : v = [] := hv
    exact ⟨[], rfl, .nil⟩
  | cons item items ih =>
    subst huv
    rw [Item.languageOf_cons] at hv
    have hrow := Table.decides_row item (Table.decides_solve (u ++ v) items)
    obtain ⟨pieces, hpieces, htakes, rest, hrest, rfl⟩ := hrow.drop.exists_pieces hv
    obtain ⟨segmentation, hwalk, hseg⟩ := ih (u := u ++ pieces.flatten) (by simp) hrest
    refine ⟨pieces :: segmentation, ?_, .cons htakes hseg⟩
    rw [List.length_append] at hwalk
    rw [Table.solve, walk, List.drop_left, hpieces, Option.bind_some, hwalk, Option.map_some]

/-- There is a first segmentation exactly when the items match the text. -/
theorem first?_isSome_iff {items : List Item} {w : Word} :
    (first? items w).isSome = true ↔ w ∈ Item.languageOf items := by
  have hdec := (Table.decides_solve w items).head
  unfold first?
  constructor
  · intro h
    by_contra hw
    rw [if_neg (mt hdec.1 hw)] at h
    cases h
  · intro hw
    obtain ⟨segmentation, hwalk, -⟩ := exists_walk (List.nil_append w) hw
    rw [if_pos (hdec.2 hw)]
    exact Option.isSome_iff_exists.2 ⟨segmentation, hwalk⟩

end Segmentation

namespace Pattern

/-- There are captures exactly when the subject is a word of the tokens' language. -/
theorem fullMatch?_isSome_iff {tokens : List Token} {subject : Word} :
    (fullMatch? tokens subject).isSome = true ↔ subject ∈ language tokens := by
  rw [fullMatch?, Option.isSome_map, Segmentation.first?_isSome_iff, language_eq]

/-- **The table decides the language.** For any tokens, validated or not, the table says that they
match the subject exactly when it is a word of their language, and following the table gives
captures exactly when the table says so. -/
theorem matcher_decides_language (tokens : List Token) (subject : Word) :
    (isFullMatch tokens subject = true ↔ subject ∈ language tokens) ∧
      ((fullMatch? tokens subject).isSome = true ↔ isFullMatch tokens subject = true) :=
  ⟨isFullMatch_iff, fullMatch?_isSome_iff.trans isFullMatch_iff.symm⟩

end Pattern

end StringMachines
