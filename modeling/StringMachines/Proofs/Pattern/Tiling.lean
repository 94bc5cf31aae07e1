import Mathlib.Data.List.ReduceOption
import StringMachines.Pattern.Levels
import StringMachines.Proofs.Pattern.Backtracking

/-!
# Captures tile the subject

A full match lays the subject out among the items, from left to right: an item that captures
nothing takes a word of its own, a group without a capture takes nothing, and a group with a
capture takes the text from where its run began to the end of its last piece (`Tiles`). That the
slots of a match describe such a layout is read off its segmentation (`tiles_of_segments`). From
the layout follows what single slots say (`Tiles.forall₂_slotFits`), that the runs come one after
another (`Tiles.pairwise_reduceOption`), and what stands around them (`Tiles.forall₂_gaps`).
-/

open Computability

namespace StringMachines

/-! ## Parts of a text -/

namespace Word

/-- Two parts of a text that meet are one part. -/
theorem extract_append_extract {w : Word} {i j k : Nat} (hij : i ≤ j) (hjk : j ≤ k) :
    w.extract i j ++ w.extract j k = w.extract i k := by
  have hlength : k - i = (j - i) + (k - j) := by omega
  have hdrop : i + (j - i) = j := by omega
  simp only [List.extract_eq_take_drop]
  rw [hlength, List.take_add, List.drop_drop, hdrop]

/-- The part of a text that stands between two others. -/
theorem extract_middle (u x v : Word) :
    (u ++ x ++ v).extract u.length (u.length + x.length) = x := by
  simp [List.extract_eq_take_drop]

/-- The copies that stand at the front of a text have room in it. -/
theorem copies_mul_length_le (unit w : Word) : copies unit w * unit.length ≤ w.length := by
  fun_induction copies unit w with
  | case1 w h ih =>
    have hle := h.2.length_le
    rw [List.length_drop] at ih
    rw [Nat.add_mul]
    omega
  | case2 => simp

end Word

/-! ## What a slot says about its group -/

/-- Whether the token is a group. -/
def Token.captures : Token → Bool
  | atom a => a.captures
  | operator _ => false

/-- The items that capture are the groups among the tokens, in order. -/
theorem Item.map_atom_filter_captures (tokens : List Token) :
    ((ofTokens tokens).filter (·.atom.captures)).map (fun item => Token.atom item.atom) =
      tokens.filter Token.captures := by
  induction tokens with
  | nil => rfl
  | cons t tokens ih =>
    cases t with
    | operator op => exact ih
    | atom a =>
      rw [ofTokens]
      by_cases h : a.captures = true
      · simp [Token.captures, h, ih]
      · simp [Token.captures, h, ih]

namespace Capture

/-- What a capture says about its group: where the run and the last piece lie in the subject, that
the last piece is a word of the group, and that the run in front of it consists of such words. -/
structure Fits (subject : Word) (item : Item) (c : Capture) : Prop where
  runStart_le_start : c.runStart ≤ c.start
  start_lt_stop : c.start < c.stop
  stop_le_length : c.stop ≤ subject.length
  text_mem : c.text subject ∈ item.atom.language
  before_mem : subject.extract c.runStart c.start ∈ item.atom.language∗
  start_of_once : item.repetition = .once → c.start = c.runStart

/-- The run of a capture ends behind its beginning. -/
theorem Fits.runStart_le_stop {subject : Word} {item : Item} {c : Capture}
    (h : c.Fits subject item) : c.runStart ≤ c.stop :=
  h.runStart_le_start.trans (Nat.le_of_lt h.start_lt_stop)

/-- What a slot says about its group: without a capture, that the group may be left out. -/
def SlotFits (subject : Word) (item : Item) : Option Capture → Prop
  | none => item.repetition = .zeroOrMore
  | some c => c.Fits subject item

/-- The parts of the subject around some captures: from `position` to the first run, between a run
and the next, and behind the last run. -/
def gaps (subject : Word) (position : Nat) : List Capture → List Word
  | [] => [subject.extract position subject.length]
  | c :: captures => subject.extract position c.runStart :: gaps subject c.stop captures

/-- The items that capture nothing, in blocks: in front of the first group with a capture, between
such a group and the next, and behind the last one. -/
def blocks : List Item → List (Option Capture) → List (List Item)
  | [], _ => [[]]
  | item :: items, slots =>
    if item.atom.captures then
      match slots with
      | some _ :: slots => [] :: blocks items slots
      | slots => blocks items slots.tail
    else (blocks items slots).modifyHead (item :: ·)

end Capture

/-! ## Layouts -/

/-- Where the members of two lists are related, their first members may be changed together. -/
theorem forall₂_modifyHead {α β : Type} {R : α → β → Prop} {f : α → α} {g : β → β} {l : List α}
    {l' : List β} (hfg : ∀ a b, R a b → R (f a) (g b)) (h : List.Forall₂ R l l') :
    List.Forall₂ R (l.modifyHead f) (l'.modifyHead g) := by
  cases h with
  | nil => exact .nil
  | cons hhead htail => exact .cons (hfg _ _ hhead) htail

/-- The subject from `position` on is laid out among the items, with the given slots. -/
inductive Tiles (subject : Word) : Nat → List Item → List (Option Capture) → Prop
  | nil : Tiles subject subject.length [] []
  | plain {position stop : Nat} {item : Item} {items : List Item} {slots : List (Option Capture)} :
      ¬ item.atom.captures = true → position ≤ stop →
      subject.extract position stop ∈ item.language → Tiles subject stop items slots →
      Tiles subject position (item :: items) slots
  | absent {position : Nat} {item : Item} {items : List Item} {slots : List (Option Capture)} :
      item.atom.captures = true → item.repetition = .zeroOrMore →
      Tiles subject position items slots → Tiles subject position (item :: items) (none :: slots)
  | present {item : Item} {items : List Item} {slots : List (Option Capture)} {c : Capture} :
      item.atom.captures = true → c.Fits subject item → Tiles subject c.stop items slots →
      Tiles subject c.runStart (item :: items) (some c :: slots)

namespace Tiles

variable {subject : Word} {position : Nat} {items : List Item} {slots : List (Option Capture)}

/-- Each group has a slot that fits it. -/
theorem forall₂_slotFits (h : Tiles subject position items slots) :
    List.Forall₂ (Capture.SlotFits subject) (items.filter (·.atom.captures)) slots := by
  induction h with
  | nil => exact .nil
  | plain hitem _ _ _ ih =>
    rw [List.filter_cons, if_neg hitem]
    exact ih
  | absent hitem hrep _ ih =>
    rw [List.filter_cons, if_pos hitem]
    exact .cons hrep ih
  | present hitem hfits _ ih =>
    rw [List.filter_cons, if_pos hitem]
    exact .cons hfits ih

/-- Each capture fits a group. -/
theorem exists_fits (h : Tiles subject position items slots) {c : Capture}
    (hc : c ∈ slots.reduceOption) : ∃ item, c.Fits subject item := by
  induction h with
  | nil => cases hc
  | plain _ _ _ _ ih | absent _ _ _ ih => exact ih hc
  | present _ hfits _ ih =>
    rw [List.reduceOption_cons_of_some] at hc
    rcases List.mem_cons.1 hc with rfl | hc
    · exact ⟨_, hfits⟩
    · exact ih hc

/-- What is laid out from a position on lies behind it. -/
theorem le_runStart (h : Tiles subject position items slots) :
    position ≤ subject.length ∧ ∀ c ∈ slots.reduceOption, position ≤ c.runStart := by
  induction h with
  | nil => exact ⟨Nat.le_refl _, fun c hc => nomatch hc⟩
  | plain _ hle _ _ ih => exact ⟨hle.trans ih.1, fun c hc => hle.trans (ih.2 c hc)⟩
  | absent _ _ _ ih => exact ih
  | @present item items slots c _ hfits _ ih =>
    have hrun := hfits.runStart_le_stop
    refine ⟨hrun.trans ih.1, fun d hd => ?_⟩
    rw [List.reduceOption_cons_of_some] at hd
    rcases List.mem_cons.1 hd with rfl | hd
    · exact Nat.le_refl _
    · exact hrun.trans (ih.2 d hd)

/-- The runs come one after another. -/
theorem pairwise_reduceOption (h : Tiles subject position items slots) :
    slots.reduceOption.Pairwise fun c d => c.stop ≤ d.runStart := by
  induction h with
  | nil => exact .nil
  | plain _ _ _ _ ih | absent _ _ _ ih => exact ih
  | present _ _ hrest ih =>
    rw [List.reduceOption_cons_of_some]
    exact .cons hrest.le_runStart.2 ih

/-- What stands in front of a layout belongs to its first gap. -/
theorem gaps_eq_modifyHead (h : Tiles subject position items slots) {start : Nat}
    (hle : start ≤ position) :
    Capture.gaps subject start slots.reduceOption =
      (Capture.gaps subject position slots.reduceOption).modifyHead
        (subject.extract start position ++ ·) := by
  obtain ⟨hlength, hruns⟩ := h.le_runStart
  cases hcaptures : slots.reduceOption with
  | nil =>
    have hgap := Word.extract_append_extract (w := subject) hle hlength
    show [_] = [subject.extract start position ++ subject.extract position subject.length]
    rw [hgap]
  | cons c captures =>
    rw [hcaptures] at hruns
    have hgap := Word.extract_append_extract (w := subject) hle (hruns c List.mem_cons_self)
    show _ :: _ = (subject.extract start position ++ subject.extract position c.runStart) :: _
    rw [hgap]

/-- The gaps are matched by the blocks of items that stand there. -/
theorem forall₂_gaps (h : Tiles subject position items slots) :
    List.Forall₂ (fun gap block => gap ∈ Item.languageOf block)
      (Capture.gaps subject position slots.reduceOption) (Capture.blocks items slots) := by
  induction h with
  | nil => exact .cons (by simp [List.extract_eq_take_drop]) .nil
  | @plain position stop item items slots hitem hle hword hrest ih =>
    unfold Capture.blocks
    rw [hrest.gaps_eq_modifyHead hle, if_neg hitem]
    refine forall₂_modifyHead (fun gap block hgap => ?_) ih
    rw [Item.languageOf_cons]
    exact Language.append_mem_mul hword hgap
  | absent hitem _ _ ih =>
    unfold Capture.blocks
    rw [if_pos hitem]
    exact ih
  | @present item items slots c hitem _ _ ih =>
    unfold Capture.blocks
    rw [if_pos hitem, List.reduceOption_cons_of_some]
    refine .cons ?_ ih
    simp [List.extract_eq_take_drop]

end Tiles

/-! ## From the segmentation to the layout -/

/-- The words of an atom are not empty. -/
theorem Atom.ne_nil_of_mem_language {a : Atom} {w : Word} (h : w ∈ a.language) : w ≠ [] :=
  (mem_pieces (mem_pieces_iff.2 ⟨h, List.prefix_rfl⟩)).1

/-- The pieces that an item takes make up a word of the item. -/
theorem Item.Takes.flatten_mem {item : Item} {pieces : Pieces} (h : item.Takes pieces) :
    pieces.flatten ∈ item.language := by
  have hcount := h.count
  cases hrep : item.repetition with
  | once =>
    rw [hrep] at hcount
    obtain ⟨piece, rfl⟩ := List.length_eq_one_iff.1 hcount
    rw [language_once hrep, List.flatten_singleton]
    exact h.words piece List.mem_cons_self
  | zeroOrMore =>
    rw [language_zeroOrMore hrep]
    exact Language.mem_kstar.2 ⟨pieces, rfl, h.words⟩
  | oneOrMore =>
    rw [hrep] at hcount
    cases pieces with
    | nil => exact absurd hcount (by simp [Repetition.Allows])
    | cons piece pieces =>
      rw [language_oneOrMore hrep, List.flatten_cons]
      refine Language.append_mem_mul (h.words piece List.mem_cons_self) ?_
      exact Language.mem_kstar.2
        ⟨pieces, rfl, fun p hp => h.words p (List.mem_cons_of_mem piece hp)⟩

/-- An item that takes no piece may be left out. -/
theorem Item.Takes.zeroOrMore_of_nil {item : Item} (h : item.Takes []) :
    item.repetition = .zeroOrMore := by
  have hcount := h.count
  cases hrep : item.repetition with
  | zeroOrMore => rfl
  | once => simp [hrep, Repetition.Allows] at hcount
  | oneOrMore => simp [hrep, Repetition.Allows] at hcount

/-- The capture of a group ends with its last piece. -/
theorem Capture.ofPieces?_concat (position : Nat) (pieces : Pieces) (last : Word) :
    ofPieces? position (pieces ++ [last]) =
      some ⟨position, position + pieces.flatten.length,
        position + (pieces ++ [last]).flatten.length⟩ := by
  simp only [ofPieces?, List.getLast?_append, List.getLast?_singleton, Option.some_or,
    Option.map_some, List.flatten_append, List.flatten_singleton, List.length_append]
  congr 2
  omega

/-- The capture of a group that takes some pieces fits it, wherever they stand. -/
theorem Capture.fits_of_takes {item : Item} {pieces : Pieces} {last : Word}
    (h : item.Takes (pieces ++ [last])) (u v : Word) :
    Fits (u ++ (pieces ++ [last]).flatten ++ v) item
      ⟨u.length, u.length + pieces.flatten.length,
        u.length + (pieces ++ [last]).flatten.length⟩ := by
  have hlast : last ∈ item.atom.language := h.words last (by simp)
  have hpos : 0 < last.length := List.length_pos_iff.2 (Atom.ne_nil_of_mem_language hlast)
  have hflat : (pieces ++ [last]).flatten = pieces.flatten ++ last := by simp
  refine ⟨Nat.le_add_right _ _, ?_, ?_, ?_, ?_, fun honce => ?_⟩
  · show u.length + pieces.flatten.length < u.length + (pieces ++ [last]).flatten.length
    rw [hflat, List.length_append]
    omega
  · show u.length + (pieces ++ [last]).flatten.length ≤ _
    rw [List.length_append, List.length_append]
    omega
  · have htext := Word.extract_middle (u ++ pieces.flatten) last v
    rw [List.length_append] at htext
    rw [hflat, ← List.append_assoc, List.length_append, ← Nat.add_assoc]
    show List.extract _ _ _ ∈ _
    rw [htext]
    exact hlast
  · have hbefore := Word.extract_middle u pieces.flatten (last ++ v)
    rw [hflat, ← List.append_assoc, List.append_assoc _ last v]
    show List.extract _ _ _ ∈ _
    rw [hbefore]
    exact Language.mem_kstar.2 ⟨pieces, rfl, fun p hp => h.words p (List.mem_append_left _ hp)⟩
  · have hcount := h.count
    rw [honce] at hcount
    have hnil : pieces = [] := by
      have : (pieces ++ [last]).length = 1 := hcount
      simpa using this
    show u.length + pieces.flatten.length = u.length
    rw [hnil]
    rfl

/-- The slots of a segmentation describe a layout of the subject. -/
theorem tiles_of_segments {items : List Item} {segmentation : Segmentation} {w : Word}
    (h : Segments items segmentation w) (u : Word) :
    Tiles (u ++ w) u.length items (Capture.ofSegmentation u.length items segmentation) := by
  induction h generalizing u with
  | nil =>
    rw [List.append_nil]
    exact .nil
  | @cons item items pieces rest w htakes _ ih =>
    have hrest := ih (u ++ pieces.flatten)
    rw [List.length_append] at hrest
    rw [← List.append_assoc]
    by_cases hitem : item.atom.captures = true
    · rw [Capture.ofSegmentation_cons_of_captures hitem]
      rcases List.eq_nil_or_concat pieces with rfl | ⟨pieces, last, rfl⟩
      · -- Without a piece the group leaves the position as it is.
        exact .absent hitem htakes.zeroOrMore_of_nil hrest
      · rw [List.concat_eq_append] at htakes hrest ⊢
        rw [Capture.ofPieces?_concat]
        exact .present hitem (Capture.fits_of_takes htakes u w) hrest
    · rw [Capture.ofSegmentation_cons_of_not_captures hitem]
      refine .plain hitem (Nat.le_add_right _ _) ?_ hrest
      rw [Word.extract_middle]
      exact htakes.flatten_mem

/-- The first segmentation is one. -/
theorem Segmentation.segments_of_first? {items : List Item} {w : Word}
    {segmentation : Segmentation} (h : first? items w = some segmentation) :
    Segments items segmentation w := by
  have hw : w ∈ Item.languageOf items := first?_isSome_iff.1 (by rw [h]; rfl)
  obtain ⟨segmentation', hwalk, hsegments⟩ := exists_walk (List.nil_append w) hw
  have hfirst : first? items w = walk w 0 (Table.solve w items).rows :=
    if_pos ((Table.decides_solve w items).head.2 hw)
  cases h.symm.trans (hfirst.trans hwalk)
  exact hsegments

namespace Pattern

/-- The slots of a full match describe a layout of the whole subject. -/
theorem tiles_of_fullMatch? {tokens : List Token} {subject : Word}
    {slots : List (Option Capture)} (h : fullMatch? tokens subject = some slots) :
    Tiles subject 0 (Item.ofTokens tokens) slots := by
  obtain ⟨segmentation, hfirst, rfl⟩ := Option.map_eq_some_iff.1 h
  exact tiles_of_segments (Segmentation.segments_of_first? hfirst) []

/-- **Captures tile the subject.** A full match has one slot for each group among the tokens, in
order. A slot is empty only where the group may be left out; a capture lies within the subject, ends
with a word of its group and has such words in front of it, none when the group is taken once. The
runs of the captures come one after another, and the parts of the subject around them are matched by
the items that stand there and capture nothing. So counting the copies of a captured text never
leaves the subject. -/
theorem captures_tile_subject {tokens : List Token} {subject : Word}
    {slots : List (Option Capture)} (h : fullMatch? tokens subject = some slots) :
    ((Item.ofTokens tokens).filter (·.atom.captures)).map (fun item => Token.atom item.atom) =
        tokens.filter Token.captures ∧
      List.Forall₂ (Capture.SlotFits subject) ((Item.ofTokens tokens).filter (·.atom.captures))
        slots ∧
      (slots.reduceOption.Pairwise fun c d => c.stop ≤ d.runStart) ∧
      List.Forall₂ (fun gap block => gap ∈ Item.languageOf block)
        (Capture.gaps subject 0 slots.reduceOption)
        (Capture.blocks (Item.ofTokens tokens) slots) ∧
      ∀ c ∈ slots.reduceOption, ∀ n ≤ c.copies subject,
        c.runStart + n * (c.text subject).length ≤ subject.length := by
  have htiles := tiles_of_fullMatch? h
  refine ⟨Item.map_atom_filter_captures tokens, htiles.forall₂_slotFits,
    htiles.pairwise_reduceOption, htiles.forall₂_gaps, fun c hc n hn => ?_⟩
  obtain ⟨item, hfits⟩ := htiles.exists_fits hc
  have hrun : c.runStart ≤ subject.length := hfits.runStart_le_stop.trans hfits.stop_le_length
  have hroom := Word.copies_mul_length_le (c.text subject) (subject.drop c.runStart)
  have hle : n * (c.text subject).length ≤ c.copies subject * (c.text subject).length :=
    Nat.mul_le_mul_right _ hn
  rw [List.length_drop] at hroom
  unfold Capture.copies at hle
  omega

/-- In `xabcabde`, `(ab|c)+` takes three pieces behind the literal and captures the last, the class
takes what stands behind them, and `(gh)*` takes nothing. -/
theorem captures_tile_xabcabde :
    let tokens : List Token := [.atom (.literal 'x'), .atom (.group [['a', 'b'], ['c']]),
      .operator .plus, .atom (.charClass [.range 'd' 'e']), .operator .star,
      .atom (.group [['g', 'h']]), .operator .star]
    fullMatch? tokens "xabcabde".toList = some [some ⟨1, 4, 6⟩, none] ∧
      Capture.Fits "xabcabde".toList ⟨.group [['a', 'b'], ['c']], .oneOrMore⟩ ⟨1, 4, 6⟩ ∧
      List.Forall₂ (fun gap block => gap ∈ Item.languageOf block) [['x'], ['d', 'e']]
        [[⟨.literal 'x', .once⟩], [⟨.charClass [.range 'd' 'e'], .zeroOrMore⟩]] := by
  intro tokens
  have hmatch : fullMatch? tokens "xabcabde".toList = some [some ⟨1, 4, 6⟩, none] := by
    decide +kernel
  obtain ⟨-, hslots, -, hgaps, -⟩ := captures_tile_subject hmatch
  refine ⟨hmatch, ?_, hgaps⟩
  cases hslots with
  | cons hfits _ => exact hfits

end Pattern

end StringMachines
