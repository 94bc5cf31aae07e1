import Mathlib.Order.Bounds.Basic
import StringMachines.Proofs.Pattern.Shape
import StringMachines.Proofs.Pattern.Tiling

/-!
# What the levels count

The quantifier levels of a candidate are read off the captures of a match, one for each group. A
capture has the last piece of its group only, and the copies of this piece are counted from where
the group began, past its own run if they go on there (`Word.isGreatest_copies`). To say what such a
number means, the run of each group is taken from the segmentation, with all the pieces of the group
(`GroupRun.ofSegmentation`); the captures are what is left of the runs
(`GroupRun.map_slot_ofSegmentation`). Each level counts its run (`GroupRun.Counts`).

The tokens that are matched need not be the compared ones. When the candidate stands partway through
a last group with an operator, the extension of the group is matched behind it and has a level of
its own (`Pattern.Matched.countP_captures`).
-/

namespace StringMachines

/-! ## Copies of a word -/

namespace Word

/-- The copies of a word that are counted are those that stand in front. -/
theorem flatten_replicate_isPrefix_iff {unit w : Word} (hne : unit ≠ []) {n : Nat} :
    (List.replicate n unit).flatten <+: w ↔ n ≤ copies unit w := by
  induction n generalizing w with
  | zero => simp
  | succ n ih =>
    rw [List.replicate_succ, List.flatten_cons, copies]
    by_cases hunit : unit <+: w
    · obtain ⟨rest, rfl⟩ := hunit
      rw [dif_pos ⟨hne, List.prefix_append unit rest⟩, List.prefix_append_right_inj,
        List.drop_left, ih, Nat.succ_le_succ_iff]
    · rw [dif_neg fun h => hunit h.2]
      refine ⟨fun h => ?_, fun h => absurd h (Nat.not_succ_le_zero n)⟩
      exact absurd ((List.prefix_append unit _).trans h) hunit

/-- The number of copies is the greatest such that they stand in front. -/
theorem isGreatest_copies {unit w : Word} (hne : unit ≠ []) :
    IsGreatest {n | (List.replicate n unit).flatten <+: w} (copies unit w) :=
  ⟨(flatten_replicate_isPrefix_iff hne).2 (Nat.le_refl _),
    fun _ hn => (flatten_replicate_isPrefix_iff hne).1 hn⟩

end Word

/-! ## The runs of the groups -/

/-- What a group has taken: its item, where its first piece begins, and its pieces in order. -/
structure GroupRun where
  item : Item
  start : Nat
  pieces : Pieces
deriving DecidableEq, Repr

namespace GroupRun

/-- The runs of the groups, in order; the first item begins at `position`. -/
def ofSegmentation (position : Nat) : List Item → Segmentation → List GroupRun
  | item :: items, pieces :: rest =>
    let runs := ofSegmentation (position + pieces.flatten.length) items rest
    if item.atom.captures then ⟨item, position, pieces⟩ :: runs else runs
  | _, _ => []

/-- The slot of a group. -/
def slot (run : GroupRun) : Option Capture :=
  Capture.ofPieces? run.start run.pieces

/-- The level of a group. -/
def level (subject : Word) (run : GroupRun) : Nat :=
  run.slot.elim 0 (·.copies subject)

/-- The pieces of a run are taken by its item, and stand in the subject from its beginning on. -/
structure LiesIn (subject : Word) (run : GroupRun) : Prop where
  takes : run.item.Takes run.pieces
  stands : ∃ u v, subject = u ++ run.pieces.flatten ++ v ∧ run.start = u.length

/-- What the level of a run counts. -/
structure Counts (subject : Word) (run : GroupRun) (n : Nat) : Prop where
  /-- A group that took no piece has level 0. -/
  eq_zero : run.pieces = [] → n = 0
  /-- Otherwise it is the greatest number of copies of the last piece that stand one after another
  from where the run begins. -/
  isGreatest : ∀ last ∈ run.pieces.getLast?,
    IsGreatest {k | (List.replicate k last).flatten <+: subject.drop run.start} n
  /-- A group without operator has its piece in front. -/
  one_le_of_once : run.item.repetition = .once → 1 ≤ n
  /-- A group with a single alternative has all its pieces in front. -/
  length_le_of_single : ∀ alternative, run.item.atom = .group [alternative] →
    run.pieces.length ≤ n

/-- The slots of a segmentation are those of its runs. -/
theorem map_slot_ofSegmentation (position : Nat) (items : List Item)
    (segmentation : Segmentation) :
    (ofSegmentation position items segmentation).map slot =
      Capture.ofSegmentation position items segmentation := by
  induction items generalizing position segmentation with
  | nil => rfl
  | cons item items ih =>
    cases segmentation with
    | nil => rfl
    | cons pieces rest =>
      rw [ofSegmentation]
      by_cases hitem : item.atom.captures = true
      · rw [if_pos hitem, List.map_cons, ih, Capture.ofSegmentation_cons_of_captures hitem]
        rfl
      · rw [if_neg hitem, ih, Capture.ofSegmentation_cons_of_not_captures hitem]

/-- The runs of a segmentation lie in the text that it cuts. -/
theorem liesIn_of_segments {items : List Item} {segmentation : Segmentation} {w : Word}
    (h : Segments items segmentation w) (u : Word) :
    ∀ run ∈ ofSegmentation u.length items segmentation, run.LiesIn (u ++ w) := by
  induction h generalizing u with
  | nil => exact fun run hrun => nomatch hrun
  | @cons item items pieces rest w htakes _ ih =>
    have hrest := ih (u ++ pieces.flatten)
    rw [List.length_append] at hrest
    rw [← List.append_assoc, ofSegmentation]
    split
    · exact List.forall_mem_cons.2 ⟨⟨htakes, u, w, rfl, rfl⟩, hrest⟩
    · exact hrest

/-- A group of which no piece was taken has level 0. -/
theorem level_of_nil {run : GroupRun} (h : run.pieces = []) (subject : Word) :
    run.level subject = 0 := by
  rw [level, slot, h]
  rfl

variable {subject : Word} {run : GroupRun}

namespace LiesIn

/-- The pieces of a run are not empty. -/
theorem ne_nil (h : run.LiesIn subject) {piece : Word} (hpiece : piece ∈ run.pieces) :
    piece ≠ [] :=
  Atom.ne_nil_of_mem_language (h.takes.words piece hpiece)

/-- All the pieces of a run stand in front of what begins with it. -/
theorem isPrefix_drop (h : run.LiesIn subject) :
    run.pieces.flatten <+: subject.drop run.start := by
  obtain ⟨u, v, rfl, hstart⟩ := h.stands
  rw [hstart, List.append_assoc, List.drop_left]
  exact List.prefix_append _ v

/-- The level of a run counts the copies of its last piece. -/
theorem level_eq (h : run.LiesIn subject) {last : Word} (hlast : last ∈ run.pieces.getLast?) :
    run.level subject = Word.copies last (subject.drop run.start) := by
  obtain ⟨pieces, hpieces⟩ := List.getLast?_eq_some_iff.1 hlast
  obtain ⟨u, v, hsubject, hstart⟩ := h.stands
  have htext := Word.extract_middle (u ++ pieces.flatten) last v
  rw [List.length_append, List.extract_eq_take_drop] at htext
  rw [level, slot, hpieces, Capture.ofPieces?_concat, Option.elim_some, Capture.copies]
  congr 1
  rw [Capture.text, hsubject, hpieces, hstart, List.flatten_append, List.flatten_singleton,
    List.length_append, ← List.append_assoc, ← Nat.add_assoc]
  exact htext

/-- A run of equal pieces has no more of them than its level. -/
theorem length_le_level (h : run.LiesIn subject) (piece : Word)
    (hall : ∀ p ∈ run.pieces, p = piece) : run.pieces.length ≤ run.level subject := by
  rcases List.eq_nil_or_concat run.pieces with hnil | ⟨pieces, last, hpieces⟩
  · simp [hnil]
  · rw [List.concat_eq_append] at hpieces
    have hlast : last ∈ run.pieces.getLast? := by simp [hpieces]
    have hmem : last ∈ run.pieces := List.mem_of_getLast? hlast
    obtain rfl : last = piece := hall last hmem
    have hcopies : List.replicate run.pieces.length last = run.pieces :=
      (List.eq_replicate_iff.2 ⟨rfl, hall⟩).symm
    rw [h.level_eq hlast, ← Word.flatten_replicate_isPrefix_iff (h.ne_nil hmem), hcopies]
    exact h.isPrefix_drop

/-- The level of a run counts what it should. -/
theorem counts_level (h : run.LiesIn subject) : run.Counts subject (run.level subject) where
  eq_zero hnil := level_of_nil hnil subject
  isGreatest last hlast := by
    rw [h.level_eq hlast]
    exact Word.isGreatest_copies (h.ne_nil (List.mem_of_getLast? hlast))
  one_le_of_once honce := by
    have hcount := h.takes.count
    rw [honce] at hcount
    obtain ⟨piece, hpieces⟩ := List.length_eq_one_iff.1 hcount
    have hle := h.length_le_level piece (by simp [hpieces])
    rwa [hpieces] at hle
  length_le_of_single alternative hsingle := by
    refine h.length_le_level alternative fun piece hpiece => ?_
    have hword := h.takes.words piece hpiece
    rw [hsingle] at hword
    exact List.mem_singleton.1 (Atom.mem_language_group.1 hword).1

end LiesIn

end GroupRun

/-! ## The tokens that are matched -/

@[simp] theorem Token.captures_group (alternatives : List Word) :
    captures (.atom (.group alternatives)) = true :=
  rfl

@[simp] theorem Token.captures_operator (op : Operator) : captures (.operator op) = false :=
  rfl

/-- The extension of an atom is a group. -/
theorem Token.captures_of_extension? {a b : Atom} (h : a.extension? = some b) :
    captures (.atom b) = true := by
  cases a with
  | literal c => cases h
  | charClass items => cases h
  | group alternatives =>
    rw [Atom.extension?] at h
    split at h
    · cases h
    · cases h
      rfl

namespace Pattern

variable {compared matched : List Token} {candidate : Word}

/-- The tokens end with a group and its operator. -/
def EndsRepeated (tokens : List Token) : Prop :=
  ∃ before alternatives op, tokens = before ++ [.atom (.group alternatives), .operator op]

/-- The tokens whose match gives the levels of a candidate. -/
inductive Matched (compared : List Token) (candidate : Word) : List Token → Prop
  /-- The compared tokens, when they match the candidate. -/
  | whole : candidate ∈ language compared → Matched compared candidate compared
  /-- Their extension, when they do not. -/
  | partway {extended : List Token} : candidate ∉ language compared →
      extended? compared = some extended → Matched compared candidate extended

/-- The extension of a group has a group more than the compared tokens when the group has an
operator, and as many when it has none. -/
theorem countP_captures_of_extended? (h : extended? compared = some matched) :
    EndsRepeated compared ∧
        matched.countP Token.captures = compared.countP Token.captures + 1 ∨
      ¬ EndsRepeated compared ∧
        matched.countP Token.captures = compared.countP Token.captures := by
  -- The extension looks at the compared tokens from the back.
  rw [extended?] at h
  split at h
  · next op alternatives before hreverse =>
    obtain ⟨partway, hpartway, rfl⟩ := Option.map_eq_some_iff.1 h
    have hcompared : compared = before.reverse ++ [.atom (.group alternatives), .operator op] := by
      simpa using congrArg List.reverse hreverse
    have hcaptures := Token.captures_of_extension? hpartway
    refine .inl ⟨⟨_, _, _, hcompared⟩, ?_⟩
    simp [hcompared, List.countP_cons, hcaptures]
  · next alternatives before hreverse =>
    obtain ⟨partway, hpartway, rfl⟩ := Option.map_eq_some_iff.1 h
    have hcompared : compared = before.reverse ++ [.atom (.group alternatives)] := by
      simpa using congrArg List.reverse hreverse
    have hcaptures := Token.captures_of_extension? hpartway
    refine .inr ⟨?_, by simp [hcompared, hcaptures]⟩
    rintro ⟨_, _, op, hrepeated⟩
    rw [hrepeated] at hreverse
    simp at hreverse
  · cases h

/-- The tokens that are matched have a group more than the compared ones exactly when these end with
a group and its operator and do not match the candidate. -/
theorem Matched.countP_captures (h : Matched compared candidate matched) :
    (EndsRepeated compared ∧ candidate ∉ language compared →
        matched.countP Token.captures = compared.countP Token.captures + 1) ∧
      (¬ (EndsRepeated compared ∧ candidate ∉ language compared) →
        matched.countP Token.captures = compared.countP Token.captures) := by
  cases h with
  | whole hmem => exact ⟨fun h => absurd hmem h.2, fun _ => rfl⟩
  | partway hnot hextended =>
    rcases countP_captures_of_extended? hextended with ⟨hends, hcount⟩ | ⟨hends, hcount⟩
    · exact ⟨fun _ => hcount, fun h => absurd ⟨hends, hnot⟩ h⟩
    · exact ⟨fun h => absurd h.1 hends, fun _ => hcount⟩

/-- The levels of a candidate come from a match of the compared tokens when there is one, and of
their extension otherwise. -/
theorem exists_matched {levels : Levels} (h : possibleMatch? compared candidate = some levels) :
    ∃ matched captures, Matched compared candidate matched ∧
      fullMatch? matched candidate = some captures ∧
      levels = .ofCaptures compared candidate captures := by
  obtain ⟨captures, hcaptures, rfl⟩ := Option.map_eq_some_iff.1 h
  cases hfull : fullMatch? compared candidate with
  | some slots =>
    rw [hfull] at hcaptures
    obtain rfl : slots = captures := Option.some.inj hcaptures
    have hmem : candidate ∈ language compared := fullMatch?_isSome_iff.1 (by rw [hfull]; rfl)
    exact ⟨compared, slots, .whole hmem, hfull, rfl⟩
  | none =>
    rw [hfull] at hcaptures
    obtain ⟨matched, hmatched, hslots⟩ := Option.bind_eq_some_iff.1 hcaptures
    have hnot : candidate ∉ language compared := by
      rw [← fullMatch?_isSome_iff, hfull]
      exact Bool.false_ne_true
    exact ⟨matched, captures, .partway hnot hmatched, hslots, rfl⟩

/-- A full match has a slot for each group. -/
theorem length_of_fullMatch? {slots : List (Option Capture)}
    (h : fullMatch? matched candidate = some slots) :
    slots.length = matched.countP Token.captures := by
  have hslots := (tiles_of_fullMatch? h).forall₂_slotFits.length_eq
  have hgroups := congrArg List.length (Item.map_atom_filter_captures matched)
  rw [List.length_map] at hgroups
  rw [List.countP_eq_length_filter, ← hgroups, hslots]

/-- **Levels count atoms and repetitions.** The match level of a candidate is the number of atoms of
the tokens that it is compared with. The quantifier levels are one for each group among them, and
one more exactly when they end with a group and its operator and do not match the candidate. They
are those of the first match of the compared tokens, or of their extension when the compared tokens
do not match; it cuts the candidate into the pieces that the groups and the other items take. Each
level counts the run of its group: it is 0 when no piece was taken, and otherwise the greatest
number of copies of the last piece that stand one after another from where the run begins; so it is
at least 1 for a group without operator, and at least the number of pieces for a group with a single
alternative. -/
theorem levels_count_repeats {levels : Levels}
    (h : possibleMatch? compared candidate = some levels) :
    levels.matchLevel = compared.countP (fun token => !token.isOperator) ∧
      (EndsRepeated compared ∧ candidate ∉ language compared →
        levels.quantifierLevels.length = compared.countP Token.captures + 1) ∧
      (¬ (EndsRepeated compared ∧ candidate ∉ language compared) →
        levels.quantifierLevels.length = compared.countP Token.captures) ∧
      ∃ matched segmentation, Matched compared candidate matched ∧
        Segmentation.first? (Item.ofTokens matched) candidate = some segmentation ∧
        Segments (Item.ofTokens matched) segmentation candidate ∧
        List.Forall₂ (GroupRun.Counts candidate)
          (GroupRun.ofSegmentation 0 (Item.ofTokens matched) segmentation)
          levels.quantifierLevels := by
  obtain ⟨matched, captures, hmatched, hfull, rfl⟩ := exists_matched h
  have hlength : (Levels.ofCaptures compared candidate captures).quantifierLevels.length =
      matched.countP Token.captures :=
    (List.length_map _).trans (length_of_fullMatch? hfull)
  obtain ⟨hmore, hsame⟩ := hmatched.countP_captures
  rw [hlength]
  refine ⟨rfl, hmore, hsame, ?_⟩
  obtain ⟨segmentation, hfirst, rfl⟩ := Option.map_eq_some_iff.1 hfull
  have hsegments := Segmentation.segments_of_first? hfirst
  have hruns := GroupRun.liesIn_of_segments hsegments []
  refine ⟨matched, segmentation, hmatched, hfirst, hsegments, ?_⟩
  rw [Levels.ofCaptures, ← GroupRun.map_slot_ofSegmentation, List.map_map,
    List.forall₂_map_right_iff, List.forall₂_same]
  exact fun run hrun => (hruns run hrun).counts_level

/-- In `xababcdaba`, compared with `x(ab|cd)+` out of `x(ab|cd)+y`, the group takes four pieces, of
which two are copies of the last from the beginning on, and one more is taken partway. -/
theorem levels_count_repeats_xababcdaba : ∃ p : Pattern, parse "x(ab|cd)+y".toList = .ok p ∧
    possibleMatch? (p.tokens.take 3) "xababcdaba".toList = some ⟨2, [2, 1]⟩ ∧
    GroupRun.Counts "xababcdaba".toList ⟨⟨.group [['a', 'b'], ['c', 'd']], .zeroOrMore⟩, 1,
      [['a', 'b'], ['a', 'b'], ['c', 'd'], ['a', 'b']]⟩ 2 ∧
    GroupRun.Counts "xababcdaba".toList ⟨⟨.group [['a'], ['c']], .once⟩, 9, [['a']]⟩ 1 := by
  have hread : Token.read "x(ab|cd)+y".toList =
      [.atom (.literal 'x'), .atom (.group [['a', 'b'], ['c', 'd']]), .operator .plus,
        .atom (.literal 'y')] := by
    simp [Token.read, Word.upTo, Word.beyond, List.splitOn_cons_eq_if_modifyHead]
  obtain ⟨p, hparse, htokens⟩ := exists_parse_of_read hread ⟨'x', by simp, by decide⟩ (by decide)
    (by decide) (by decide)
  have hlevels : possibleMatch? (p.tokens.take 3) "xababcdaba".toList = some ⟨2, [2, 1]⟩ := by
    rw [htokens]
    decide +kernel
  obtain ⟨-, -, -, matched, segmentation, hmatched, hfirst, -, hcounts⟩ :=
    levels_count_repeats hlevels
  rw [htokens] at hmatched
  cases hmatched with
  | whole hmem => exact absurd (isFullMatch_iff.2 hmem) (by decide +kernel)
  | partway _ hextended =>
    cases hextended
    cases hfirst.symm.trans (show _ = some [[['x']],
      [['a', 'b'], ['a', 'b'], ['c', 'd'], ['a', 'b']], [['a']]] by decide +kernel)
    obtain ⟨hgroup, hrest⟩ := List.forall₂_cons.1 hcounts
    exact ⟨p, hparse, hlevels, hgroup, (List.forall₂_cons.1 hrest).1⟩

end Pattern

end StringMachines
