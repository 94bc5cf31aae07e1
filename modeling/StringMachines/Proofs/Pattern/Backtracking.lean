import StringMachines.Proofs.Pattern.FullMatch

/-!
# Matching by backtracking

The plain matcher has no table and reads the tokens as they stand. From left to right it tries what
an atom can take, the alternatives of a group as they are written (`Backtracking.tryAtom`), inside a
repetition another piece before the end of the repetition (`Backtracking.iterate`), writes what a
group takes into the group's slot, and goes back to the last choice when the rest does not match;
the slots written on the way to a failure are forgotten with it (`Backtracking.search`).

`Backtracking.search_eq_walk` says that the first success of this search is what the table leads
to. The search fails exactly where the table has a negative answer
(`Backtracking.search_isSome_iff`), so the first piece that does not fail is the first piece that
the table marks. Full matches therefore have the captures of the plain matcher
(`Pattern.fullMatch?_eq_backtracking`).
-/

open Computability

namespace StringMachines

/-- Whether the atom captures what it takes. -/
def Atom.captures : Atom → Bool
  | group _ => true
  | _ => false

/-- A group has a slot of its own. -/
theorem Capture.ofSegmentation_cons_of_captures {item : Item} (h : item.atom.captures = true)
    (position : Nat) (items : List Item) (pieces : Pieces) (rest : Segmentation) :
    ofSegmentation position (item :: items) (pieces :: rest) =
      ofPieces? position pieces ::
        ofSegmentation (position + pieces.flatten.length) items rest := by
  rw [ofSegmentation]
  cases hatom : item.atom with
  | group alternatives => rfl
  | literal c => simp [hatom, Atom.captures] at h
  | charClass items => simp [hatom, Atom.captures] at h

/-- Other atoms have no slot. -/
theorem Capture.ofSegmentation_cons_of_not_captures {item : Item}
    (h : ¬ item.atom.captures = true) (position : Nat) (items : List Item) (pieces : Pieces)
    (rest : Segmentation) :
    ofSegmentation position (item :: items) (pieces :: rest) =
      ofSegmentation (position + pieces.flatten.length) items rest := by
  rw [ofSegmentation]
  cases hatom : item.atom with
  | group alternatives => exact absurd (by rw [hatom]; rfl) h
  | literal c => rfl
  | charClass items => rfl

namespace Backtracking

/-- Where the search stands: the position in the text, what is left of the text, and a slot for
each group. -/
structure Point where
  position : Nat
  rest : Word
  slots : List (Option Capture)

/-- Takes a piece. The item that takes it began at `runStart`, and captures into `slot?`. -/
def Point.take (p : Point) (slot? : Option Nat) (runStart : Nat) (piece : Word) : Point where
  position := p.position + piece.length
  rest := p.rest.drop piece.length
  slots := match slot? with
    | some slot => p.slots.set slot (some ⟨runStart, p.position, p.position + piece.length⟩)
    | none => p.slots

@[simp] theorem Point.take_position (p : Point) (slot? : Option Nat) (runStart : Nat)
    (piece : Word) : (p.take slot? runStart piece).position = p.position + piece.length :=
  rfl

@[simp] theorem Point.take_rest (p : Point) (slot? : Option Nat) (runStart : Nat) (piece : Word) :
    (p.take slot? runStart piece).rest = p.rest.drop piece.length :=
  rfl

/-- Goes on with a piece if the text starts with it; an empty piece is never taken. -/
def offer {α : Type} (w : Word) (go : (piece : Word) → piece ≠ [] ∧ piece <+: w → Option α)
    (piece : Word) : Option α :=
  if h : piece ≠ [] ∧ piece <+: w then go piece h else none

/-- Tries what an atom can take from the front of a text until `go` has an answer: the alternatives
of a group in the order in which they are written. -/
def tryAtom {α : Type} (a : Atom) (w : Word)
    (go : (piece : Word) → piece ≠ [] ∧ piece <+: w → Option α) : Option α :=
  match a with
  | .literal c => offer w go [c]
  | .group alternatives => alternatives.findSome? (offer w go)
  | .charClass items => w.head?.bind fun c => if items.contains c then offer w go [c] else none

/-- What is tried are the pieces of the atom, in order. -/
theorem tryAtom_eq {α : Type} (a : Atom) (w : Word) (go : Word → Option α) :
    tryAtom a w (fun piece _ => go piece) = (a.pieces w).findSome? go := by
  cases a with
  | literal c =>
    cases w with
    | nil => simp [tryAtom, offer, Atom.pieces]
    | cons d w =>
      by_cases hc : c = d
      · simp [tryAtom, offer, Atom.pieces, hc]
      · simp [tryAtom, offer, Atom.pieces, hc]
  | charClass items =>
    cases w with
    | nil => simp [tryAtom, Atom.pieces]
    | cons d w =>
      by_cases hd : items.contains d = true
      · simp [tryAtom, offer, Atom.pieces, hd]
      · simp [tryAtom, Atom.pieces, hd]
  | group alternatives =>
    rw [tryAtom, Atom.pieces]
    induction alternatives with
    | nil => rfl
    | cons alternative alternatives ih =>
      rw [List.findSome?_cons, ih]
      by_cases h : alternative ≠ [] ∧ alternative <+: w
      · rw [offer, dif_pos h, List.filter_cons_of_pos (by simpa using h), List.findSome?_cons]
      · rw [offer, dif_neg h, List.filter_cons_of_neg (by simpa using h)]

/-- Inside a repetition: tries another piece before it goes on as `leave` says. -/
def iterate (a : Atom) (slot? : Option Nat) (runStart : Nat)
    (leave : Point → Option (List (Option Capture))) (p : Point) :
    Option (List (Option Capture)) :=
  (tryAtom a p.rest fun piece _ =>
    iterate a slot? runStart leave (p.take slot? runStart piece)).or (leave p)
termination_by p.rest.length
decreasing_by
  next h =>
  have := List.length_pos_iff.2 h.1
  have := h.2.length_le
  simp only [Point.take, List.length_drop]
  omega

/-- Inside a repetition, in terms of the pieces of the atom. -/
theorem iterate_eq (a : Atom) (slot? : Option Nat) (runStart : Nat)
    (leave : Point → Option (List (Option Capture))) (p : Point) :
    iterate a slot? runStart leave p =
      ((a.pieces p.rest).findSome? fun piece =>
        iterate a slot? runStart leave (p.take slot? runStart piece)).or (leave p) := by
  rw [iterate, tryAtom_eq]

/-- Tries the ways in which an item can take pieces, in order, and after each goes on as `leave`
says. -/
def attempt (item : Item) (slot? : Option Nat) (leave : Point → Option (List (Option Capture)))
    (p : Point) : Option (List (Option Capture)) :=
  match item.repetition with
  | .once => tryAtom item.atom p.rest fun piece _ => leave (p.take slot? p.position piece)
  | .zeroOrMore => iterate item.atom slot? p.position leave p
  | .oneOrMore => tryAtom item.atom p.rest fun piece _ =>
      iterate item.atom slot? p.position leave (p.take slot? p.position piece)

/-- An attempt, in terms of the pieces of the atom. -/
theorem attempt_eq (item : Item) (slot? : Option Nat)
    (leave : Point → Option (List (Option Capture))) (p : Point) :
    attempt item slot? leave p =
      match item.repetition with
      | .once =>
        (item.atom.pieces p.rest).findSome? fun piece => leave (p.take slot? p.position piece)
      | .zeroOrMore => iterate item.atom slot? p.position leave p
      | .oneOrMore => (item.atom.pieces p.rest).findSome? fun piece =>
          iterate item.atom slot? p.position leave (p.take slot? p.position piece) := by
  simp only [attempt, tryAtom_eq]

/-- An atom is repeated as the last of the operators directly behind it says. -/
def repetition (behind : List Token) : Repetition :=
  match (Token.leadingOperators behind).getLast? with
  | none => .once
  | some .star => .zeroOrMore
  | some .plus => .oneOrMore

/-- The slots of the first way in which the tokens take all that is left of the text; the groups
among them capture into the slots from `slot` on. -/
def search : List Token → Nat → Point → Option (List (Option Capture))
  | [], _, p => if p.rest = [] then some p.slots else none
  | .operator _ :: tokens, slot, p => search tokens slot p
  | .atom a :: tokens, slot, p =>
    if a.captures then attempt ⟨a, repetition tokens⟩ (some slot) (search tokens (slot + 1)) p
    else attempt ⟨a, repetition tokens⟩ none (search tokens slot) p

/-- How many of the tokens are groups. -/
def groups : List Token → Nat
  | [] => 0
  | .operator _ :: tokens => groups tokens
  | .atom a :: tokens => if a.captures then groups tokens + 1 else groups tokens

/-- The captures of the first full match that the search finds; at first no group has any. -/
def fullMatch? (tokens : List Token) (subject : Word) : Option (List (Option Capture)) :=
  search tokens 0 ⟨0, subject, List.replicate (groups tokens) none⟩

/-- Reading items off the tokens gives an atom the same repetition. -/
theorem repetitionAfter_eq_repetition (tokens : List Token) :
    Item.repetitionAfter .once tokens = repetition tokens := by
  rw [Item.repetitionAfter_eq, repetition]
  rcases (Token.leadingOperators tokens).getLast? with _ | _ | _
  · rfl
  · rfl
  · rfl

/-! ## When the search succeeds -/

section
variable {L : Language Char} {leave : Point → Option (List (Option Capture))} {slot? : Option Nat}

/-- Inside a repetition the search succeeds when the repetition and what comes after it match. -/
theorem iterate_isSome_iff (hleave : ∀ p, (leave p).isSome = true ↔ p.rest ∈ L) (a : Atom)
    (runStart : Nat) (p : Point) :
    (iterate a slot? runStart leave p).isSome = true ↔ p.rest ∈ a.language∗ * L := by
  fun_induction iterate a slot? runStart leave p with
  | case1 p ih =>
    rw [tryAtom_eq, Option.isSome_or, Bool.or_eq_true, hleave, List.findSome?_isSome_iff,
      kstar_mul_eq, Language.mem_add, Atom.mem_language_mul_iff, or_comm]
    refine or_congr_right (exists_congr fun piece => and_congr_right fun hpiece => ?_)
    exact ih piece (Atom.mem_pieces hpiece)

/-- An attempt succeeds when the item and what comes after it match. -/
theorem attempt_isSome_iff (hleave : ∀ p, (leave p).isSome = true ↔ p.rest ∈ L) (item : Item)
    (p : Point) :
    (attempt item slot? leave p).isSome = true ↔ p.rest ∈ item.language * L := by
  rw [attempt_eq]
  cases hrep : item.repetition with
  | once =>
    rw [Item.language_once hrep, Atom.mem_language_mul_iff, List.findSome?_isSome_iff]
    exact exists_congr fun piece => and_congr_right fun _ => hleave _
  | zeroOrMore =>
    rw [Item.language_zeroOrMore hrep]
    exact iterate_isSome_iff hleave _ _ p
  | oneOrMore =>
    rw [Item.language_oneOrMore hrep, mul_assoc, Atom.mem_language_mul_iff,
      List.findSome?_isSome_iff]
    exact exists_congr fun piece => and_congr_right fun _ => iterate_isSome_iff hleave _ _ _

end

/-- The search succeeds when what is left of the text is a word of the tokens. -/
theorem search_isSome_iff (tokens : List Token) (slot : Nat) (p : Point) :
    (search tokens slot p).isSome = true ↔ p.rest ∈ Pattern.language tokens := by
  induction tokens generalizing slot p with
  | nil =>
    rw [search, Pattern.language, Language.mem_one]
    split <;> simp [*]
  | cons token tokens ih =>
    cases token with
    | operator op => exact ih slot p
    | atom a =>
      rw [search, Pattern.language, ← Item.language_repetitionAfter, repetitionAfter_eq_repetition]
      split
      · exact attempt_isSome_iff (ih (slot + 1)) _ p
      · exact attempt_isSome_iff (ih slot) _ p

/-! ## The first success is what the table leads to -/

/-- Where exactly the marked members of a list succeed, the first success is that of the first
marked member. -/
theorem findSome?_eq_find?_bind {α β : Type} {xs : List α} {f : α → Option β} {marked : α → Bool}
    (h : ∀ x ∈ xs, ((f x).isSome = true ↔ marked x = true)) :
    xs.findSome? f = (xs.find? marked).bind f := by
  induction xs with
  | nil => rfl
  | cons x xs ih =>
    have hx := h x List.mem_cons_self
    rw [List.findSome?_cons, List.find?_cons]
    cases hfx : f x with
    | some y =>
      rw [hfx] at hx
      rw [hx.1 rfl, Option.bind_some, hfx]
    | none =>
      rw [hfx] at hx
      rw [Bool.eq_false_iff.2 (mt hx.2 (by simp))]
      exact ih fun y hy => h y (List.mem_cons_of_mem _ hy)

/-- Takes some pieces, one after the other. -/
def Point.takeAll (p : Point) (slot? : Option Nat) (runStart : Nat) (pieces : Pieces) : Point :=
  pieces.foldl (fun p piece => p.take slot? runStart piece) p

section
variable {L : Language Char} {leave : Point → Option (List (Option Capture))} {slot? : Option Nat}

/-- Inside a repetition, the pieces that succeed are those that the column marks. -/
theorem iterate_take_isSome_iff (hleave : ∀ p, (leave p).isSome = true ↔ p.rest ∈ L) {a : Atom}
    {runStart : Nat} {p : Point} {again : Column} (h : again.Decides p.rest (a.language∗ * L))
    {piece : Word} (hpiece : piece ∈ a.pieces p.rest) :
    (iterate a slot? runStart leave (p.take slot? runStart piece)).isSome = true ↔
      again.after piece.length = true := by
  rw [iterate_isSome_iff hleave, h.after_piece hpiece]
  rfl

/-- Inside a repetition, the first success comes after the pieces that the column gives. -/
theorem iterate_eq_leave (hleave : ∀ p, (leave p).isSome = true ↔ p.rest ∈ L) {a : Atom}
    {runStart : Nat} {p : Point} {again : Column}
    (h : again.Decides p.rest (a.language∗ * L)) :
    iterate a slot? runStart leave p =
      leave (p.takeAll slot? runStart (Column.iterate a again p.rest)) := by
  rw [iterate_eq, findSome?_eq_find?_bind fun _ => iterate_take_isSome_iff hleave h]
  generalize hw : p.rest = w at h ⊢
  -- The induction follows the pieces that the column gives.
  fun_induction Column.iterate a again w generalizing p with
  | case1 again w hfind =>
    rw [hfind]
    rfl
  | case2 again w piece hfind ih =>
    obtain ⟨-, v, hv, rfl⟩ := h.of_find? hfind
    have hrest : (p.take slot? runStart piece).rest = v := by
      rw [Point.take_rest, hw, List.drop_left]
    rw [List.drop_left] at ih ⊢
    have hagain := h.drop
    have hsome : (iterate a slot? runStart leave (p.take slot? runStart piece)).isSome = true := by
      rw [iterate_isSome_iff hleave, hrest]
      exact hv
    rw [hfind, Option.bind_some, Option.or_of_isSome hsome, iterate_eq,
      findSome?_eq_find?_bind fun _ => iterate_take_isSome_iff hleave (hrest ▸ hagain), hrest]
    exact ih hrest hagain

/-- An attempt goes on after the pieces that the row gives. -/
theorem attempt_eq_bind (hleave : ∀ p, (leave p).isSome = true ↔ p.rest ∈ L) {row : Row}
    {p : Point} (h : row.Decides p.rest L) :
    attempt row.item slot? leave p =
      (row.pieces? p.rest).bind fun pieces => leave (p.takeAll slot? p.position pieces) := by
  rw [attempt_eq, Row.pieces?]
  cases hrep : row.item.repetition with
  | once =>
    have hmarked : ∀ piece ∈ row.item.atom.pieces p.rest,
        ((leave (p.take slot? p.position piece)).isSome = true ↔
          row.leave.after piece.length = true) := by
      intro piece hpiece
      rw [hleave, h.leave.after_piece hpiece]
      rfl
    simp only [findSome?_eq_find?_bind hmarked, Option.bind_map]
    rfl
  | zeroOrMore => exact iterate_eq_leave hleave h.again
  | oneOrMore =>
    simp only [findSome?_eq_find?_bind fun _ => iterate_take_isSome_iff hleave h.again]
    cases hfind : (row.item.atom.pieces p.rest).find? (row.again.after ·.length) with
    | none => rfl
    | some piece =>
      obtain ⟨-, v, -, hv⟩ := h.again.of_find? hfind
      have hrest : (p.take slot? p.position piece).rest = v := by
        rw [Point.take_rest, hv, List.drop_left]
      have hagain := h.again
      rw [hv] at hagain
      simp only [Option.bind_some, Option.map_some]
      rw [iterate_eq_leave hleave (hrest ▸ hagain.drop), hrest, hv, List.drop_left]
      rfl

end

/-! ## The slots that the search fills -/

@[simp] theorem Point.takeAll_concat (p : Point) (slot? : Option Nat) (runStart : Nat)
    (pieces : Pieces) (piece : Word) :
    p.takeAll slot? runStart (pieces ++ [piece]) =
      (p.takeAll slot? runStart pieces).take slot? runStart piece := by
  simp [takeAll]

/-- Taking pieces moves the point over all of them. -/
theorem Point.takeAll_position_rest (p : Point) (slot? : Option Nat) (runStart : Nat)
    (pieces : Pieces) :
    (p.takeAll slot? runStart pieces).position = p.position + pieces.flatten.length ∧
      (p.takeAll slot? runStart pieces).rest = p.rest.drop pieces.flatten.length := by
  induction pieces using List.reverseRecOn with
  | nil => exact ⟨rfl, rfl⟩
  | append_singleton pieces piece ih =>
    simp only [takeAll_concat, take_position, take_rest, ih, List.flatten_append, List.flatten_cons,
      List.flatten_nil, List.append_nil, List.length_append, List.drop_drop, Nat.add_assoc,
      and_self]

/-- An item that captures nothing leaves the slots as they are. -/
theorem Point.takeAll_none_slots (p : Point) (runStart : Nat) (pieces : Pieces) :
    (p.takeAll none runStart pieces).slots = p.slots := by
  induction pieces using List.reverseRecOn with
  | nil => rfl
  | append_singleton pieces piece ih =>
    rw [takeAll_concat]
    exact ih

/-- A group leaves the capture of its last piece in its slot. -/
theorem Point.takeAll_some_slots {p : Point} {before after : List (Option Capture)}
    (hslots : p.slots = before ++ none :: after) (pieces : Pieces) :
    (p.takeAll (some before.length) p.position pieces).slots =
      before ++ Capture.ofPieces? p.position pieces :: after := by
  induction pieces using List.reverseRecOn with
  | nil => exact hslots
  | append_singleton pieces piece ih =>
    rw [takeAll_concat, take]
    simp only [ih, (p.takeAll_position_rest _ _ _).1]
    simp [Capture.ofPieces?, ← Nat.add_assoc]

/-- **The search finds what the table leads to.** From a place where the tokens match what is left
of the text, the first success fills the slots of the groups among the tokens with the captures of
the segmentation that the rows of the table lead to. -/
theorem search_eq_walk {w u : Word} (tokens : List Token) (p : Point)
    (before : List (Option Capture)) (hu : u ++ p.rest = w) (hposition : p.position = u.length)
    (hslots : p.slots = before ++ List.replicate (groups tokens) none)
    (hmem : p.rest ∈ Pattern.language tokens) :
    search tokens before.length p =
      (Segmentation.walk w u.length (Table.solve w (Item.ofTokens tokens)).rows).map
        fun segmentation =>
          before ++ Capture.ofSegmentation p.position (Item.ofTokens tokens) segmentation := by
  induction tokens generalizing p u before with
  | nil =>
    have hrest : p.rest = [] := hmem
    simp [search, Segmentation.walk, Table.solve, Item.ofTokens, Capture.ofSegmentation, groups,
      hrest, hslots]
  | cons token tokens ih =>
  cases token with
  | operator op => exact ih p before hu hposition hslots hmem
  | atom a =>
    subst hu
    have hleave (slot : Nat) (p : Point) : (search tokens slot p).isSome = true ↔
        p.rest ∈ Item.languageOf (Item.ofTokens tokens) := by
      rw [search_isSome_iff, Pattern.language_eq]
    rw [Pattern.language_eq] at hmem
    rw [search, ← repetitionAfter_eq_repetition]
    rw [Item.ofTokens] at hmem ⊢
    generalize hitem : (⟨a, Item.repetitionAfter .once tokens⟩ : Item) = item at hmem ⊢
    have hrow := (Table.decides_row item
      (Table.decides_solve (u ++ p.rest) (Item.ofTokens tokens))).drop
    obtain ⟨pieces, hpieces, -, rest, hrest, heq⟩ :=
      hrow.exists_pieces (Item.languageOf_cons item _ ▸ hmem)
    -- Whatever slot the item captures into, the search goes on behind the pieces of the row.
    have hgo (slot? : Option Nat) (slot : Nat) :
        attempt item slot? (search tokens slot) p =
          search tokens slot (p.takeAll slot? p.position pieces) := by
      have hattempt : attempt item slot? (search tokens slot) p = _ :=
        attempt_eq_bind (hleave slot) hrow
      rw [hattempt, hpieces, Option.bind_some]
    have hbehind (slot? : Option Nat) :
        (p.takeAll slot? p.position pieces).position = (u ++ pieces.flatten).length ∧
          (p.takeAll slot? p.position pieces).rest = rest := by
      obtain ⟨hposition', hrest'⟩ := p.takeAll_position_rest slot? p.position pieces
      rw [hposition', hrest', heq, hposition, List.length_append, List.drop_left]
      exact ⟨rfl, rfl⟩
    have hcut : u ++ pieces.flatten ++ rest = u ++ p.rest := by
      rw [heq, List.append_assoc]
    rw [← Pattern.language_eq] at hrest
    rw [Table.solve, Segmentation.walk, List.drop_left, hpieces, Option.bind_some, Option.map_map,
      ← List.length_append]
    have hatom : item.atom = a := by rw [← hitem]
    rw [← hatom] at hslots ⊢
    split
    · next hcaptures =>
      obtain ⟨hposition', hrest'⟩ := hbehind (some before.length)
      rw [groups, if_pos hcaptures, List.replicate_succ] at hslots
      have hslots' := Point.takeAll_some_slots hslots pieces
      rw [List.append_cons] at hslots'
      have hfound := ih _ _ (hrest' ▸ hcut) hposition' hslots' (hrest' ▸ hrest)
      rw [List.length_append, List.length_singleton] at hfound
      rw [hgo, hfound]
      refine congrArg (Option.map · _) (funext fun segmentation => ?_)
      rw [Function.comp_apply, Capture.ofSegmentation_cons_of_captures hcaptures, hposition',
        hposition, List.length_append, ← List.append_cons]
    · next hcaptures =>
      obtain ⟨hposition', hrest'⟩ := hbehind none
      rw [groups, if_neg hcaptures, ← p.takeAll_none_slots p.position pieces] at hslots
      rw [hgo, ih _ _ (hrest' ▸ hcut) hposition' hslots (hrest' ▸ hrest)]
      refine congrArg (Option.map · _) (funext fun segmentation => ?_)
      rw [Function.comp_apply, Capture.ofSegmentation_cons_of_not_captures hcaptures, hposition',
        hposition, List.length_append]

end Backtracking

/-- **Captures are those of the plain matcher.** For any tokens and any subject, following the
table gives what the search without a table finds first: no match, or the same slots. -/
theorem Pattern.fullMatch?_eq_backtracking (tokens : List Token) (subject : Word) :
    fullMatch? tokens subject = Backtracking.fullMatch? tokens subject := by
  by_cases hmem : subject ∈ language tokens
  · have hfirst : Segmentation.first? (Item.ofTokens tokens) subject =
        Segmentation.walk subject 0 (Table.solve subject (Item.ofTokens tokens)).rows :=
      if_pos (isFullMatch_iff.2 hmem)
    rw [fullMatch?, hfirst, Backtracking.fullMatch?]
    exact (Backtracking.search_eq_walk tokens ⟨0, subject, _⟩ [] (List.nil_append subject) rfl
      (List.nil_append _).symm hmem).symm
  · have hnone : fullMatch? tokens subject = none := by
      rw [← Option.not_isSome_iff_eq_none, fullMatch?_isSome_iff]
      exact hmem
    rw [hnone, eq_comm, ← Option.not_isSome_iff_eq_none, Backtracking.fullMatch?,
      Backtracking.search_isSome_iff]
    exact hmem

end StringMachines
