import StringMachines.Proofs.Erasing.Acceptance

/-!
# Erasing single characters

When every erasing string is one character, the tape can be emptied in any order: whatever character
is to come next, its leftmost occurrence can be removed (`Derives.first_of_perm`). Hence an input is
derivable, in either mode, exactly when its characters are erasing strings and can be rearranged to
a word of the pattern (`ErasingSystem.derivable_iff_exists_perm`). That is what the runs answer, and
the mode makes no difference (`ErasingSystem.runWith_decides_rearrangements`).
-/

namespace StringMachines

variable {strings : List Word} {mode : PositionMode}

/-- A character can be removed at the place where it stands first. -/
theorem Erases.first_of_notMem {c : Char} {u : Word} (hc : [c] ∈ strings) (hu : c ∉ u)
    (v trace : Word) : Erases strings .first ⟨u ++ [c] ++ v, trace⟩ ⟨u ++ v, trace ++ [c]⟩ := by
  refine .leftmost hc fun u' v' htape => ?_
  by_contra hlt
  have hlength : (u' ++ [c]).length ≤ u.length := by
    rw [List.length_append, List.length_singleton]
    omega
  -- Further left the character would be part of `u`.
  have hbefore : u' ++ [c] <+: u ++ ([c] ++ v) := by
    rw [← List.append_assoc, htape]
    exact List.prefix_append _ v'
  have hfront := List.prefix_of_prefix_length_le hbefore (List.prefix_append u _) hlength
  exact hu (hfront.subset (List.mem_append_right u' (List.mem_singleton_self c)))

/-- A tape of erasable characters can be emptied in any order, by leftmost erasures. -/
theorem Derives.first_of_perm {tape w : Word} (hstrings : ∀ c ∈ tape, [c] ∈ strings)
    (h : w.Perm tape) (trace : Word) :
    Derives strings .first ⟨tape, trace⟩ ⟨[], trace ++ w⟩ := by
  induction w generalizing tape trace with
  | nil =>
    rw [List.nil_perm.1 h, List.append_nil]
    exact .refl
  | cons c w ih =>
    have hc : c ∈ tape := h.subset List.mem_cons_self
    obtain ⟨u, v, rfl, hu⟩ := List.eq_append_cons_of_mem hc
    have hrest : w.Perm (u ++ v) := (h.trans List.perm_middle).cons_inv
    have hstep := Erases.first_of_notMem (hstrings c hc) hu v trace
    have hstrings' : ∀ d ∈ u ++ v, [d] ∈ strings := by
      intro d hd
      exact hstrings d (h.subset (List.mem_cons_of_mem c (hrest.symm.subset hd)))
    have hderives := ih hstrings' hrest (trace ++ [c])
    rw [List.append_assoc, List.singleton_append] at hstep hderives
    exact .head hstep hderives

/-- When every string is one character, an emptied tape held erasable characters only. -/
theorem Derives.mem_strings_of_mem_tape (hsingle : ∀ e ∈ strings, e.length = 1)
    {s s' : ErasingState} (h : Derives strings mode s s') (hempty : s'.tape = []) :
    ∀ c ∈ s.tape, [c] ∈ strings := by
  induction h using Relation.ReflTransGen.head_induction_on with
  | refl =>
    rw [hempty]
    exact fun c hc => nomatch hc
  | @head s s₁ hstep _ ih =>
    cases hstep.all with
    | @anywhere e u v trace he =>
      obtain ⟨d, rfl⟩ := List.length_eq_one_iff.1 (hsingle e he)
      intro c hc
      rw [List.append_assoc, List.mem_append, List.mem_append, List.mem_singleton] at hc
      rcases hc with hc | rfl | hc
      · exact ih c (List.mem_append_left v hc)
      · exact he
      · exact ih c (List.mem_append_right u hc)

namespace ErasingSystem

variable {system : ErasingSystem}

/-- When every erasing string is one character, an input is derivable in either mode exactly when
its characters are erasing strings and can be rearranged to a word of the pattern. -/
theorem derivable_iff_exists_perm (hsingle : ∀ e ∈ system.strings, e.length = 1) {input : Word} :
    system.Derivable mode ⟨input, []⟩ ↔
      (∀ c ∈ input, [c] ∈ system.strings) ∧
        ∃ w ∈ Pattern.language system.pattern.tokens, w.Perm input := by
  constructor
  · rintro ⟨trace, htrace, hderives⟩
    refine ⟨hderives.mem_strings_of_mem_tape hsingle rfl, trace, htrace, ?_⟩
    have hperm := hderives.perm
    rwa [List.nil_append, List.append_nil] at hperm
  · rintro ⟨hstrings, w, hw, hperm⟩
    have hfirst : system.Derivable .first ⟨input, []⟩ :=
      ⟨w, hw, Derives.first_of_perm hstrings hperm []⟩
    cases mode with
    | all => exact hfirst.all_of_first
    | first => exact hfirst

/-- **Single characters are erased up to rearrangement.** When every erasing string is one
character, there is one answer to every input of at most 1000 characters, under all settings:
whether its characters are erasing strings and can be rearranged to a word of the pattern. The runs
over first positions therefore answer every input as the runs over all positions do. -/
theorem runWith_decides_rearrangements (hsingle : ∀ e ∈ system.strings, e.length = 1)
    (input : Word) :
    (input.length ≤ 1000 →
      ∃ accepted : Bool,
        (accepted = true ↔ (∀ c ∈ input, [c] ∈ system.strings) ∧
          ∃ w ∈ Pattern.language system.pattern.tokens, w.Perm input) ∧
        ∀ settings, (system.runWith settings input).map (·.accepted) = .ok accepted) ∧
      ∀ quantifier verbose,
        (system.runWith ⟨quantifier, .first, verbose⟩ input).map (·.accepted) =
          (system.runWith ⟨quantifier, .all, verbose⟩ input).map (·.accepted) := by
  have hmodes (mode mode' : PositionMode) :
      system.Derivable mode ⟨input, []⟩ ↔ system.Derivable mode' ⟨input, []⟩ :=
    (derivable_iff_exists_perm hsingle).trans (derivable_iff_exists_perm hsingle).symm
  refine ⟨fun hinput => ?_, fun quantifier verbose => ?_⟩
  · obtain ⟨verdict, -, hverdict⟩ := system.exists_runWith_eq_ok {} hinput
    refine ⟨verdict.accepted, hverdict.trans (derivable_iff_exists_perm hsingle), ?_⟩
    intro settings
    exact runWith_map_accepted system settings hinput (hverdict.trans (hmodes _ _))
  · by_cases hinput : input.length ≤ maximumInputLength
    · obtain ⟨verdict, hrun, hverdict⟩ :=
        system.exists_runWith_eq_ok ⟨quantifier, .all, verbose⟩ hinput
      rw [hrun]
      exact runWith_map_accepted system _ hinput (hverdict.trans (hmodes _ _))
    · have hlong : input.length > maximumInputLength := Nat.not_le.1 hinput
      rw [runWith, runWith, if_pos hlong, if_pos hlong]

/-- The letters of `abc` are erased in the order of the pattern, wherever they stand. -/
theorem runWith_rearranges_cab : ∃ system : ErasingSystem,
    build [['a'], ['b'], ['c']] "(abc)*".toList {} = .ok system ∧
      (∀ e ∈ system.strings, e.length = 1) ∧ ['c', 'a', 'b'].length ≤ 1000 ∧
      ∀ settings, (system.runWith settings ['c', 'a', 'b']).map (·.accepted) = .ok true := by
  have hread : Token.read "(abc)*".toList =
      [.atom (.group [['a', 'b', 'c']]), .operator .star] := by
    simp [Token.read, Word.upTo, Word.beyond, List.splitOn_cons_eq_if_modifyHead]
  obtain ⟨system, hbuild, hdistinct, htokens⟩ := exists_build_of_read
    [['a'], ['b'], ['c']] {} hread (by decide) ⟨'(', by simp, by decide⟩ (by decide) (by decide)
    (by decide)
  have hstrings : system.strings = [['a'], ['b'], ['c']] := hdistinct.trans (by decide)
  have hsingle : ∀ e ∈ system.strings, e.length = 1 := by simp [hstrings]
  have hlength : ['c', 'a', 'b'].length ≤ 1000 := by decide
  obtain ⟨accepted, hiff, hruns⟩ := (runWith_decides_rearrangements hsingle _).1 hlength
  have hword : ['a', 'b', 'c'] ∈ Pattern.language system.pattern.tokens := by
    rw [htokens]
    exact Pattern.isFullMatch_iff.1 (by decide)
  obtain rfl : accepted = true := hiff.2 ⟨by simp [hstrings], _, hword, by decide⟩
  exact ⟨system, hbuild, hsingle, hlength, hruns⟩

end ErasingSystem

end StringMachines
