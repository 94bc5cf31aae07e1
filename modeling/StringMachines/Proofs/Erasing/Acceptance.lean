import StringMachines.Erasing.Derivation
import StringMachines.Proofs.Pattern.ViablePrefix
import StringMachines.Proofs.Ranking
import StringMachines.Proofs.Search
import StringMachines.Proofs.Word.Removal

/-!
# What an erasing system accepts

A run tries only some of the erasures of a state: those that keep the trace a possible beginning of
a word, and of those that leave the same tape only one. It loses no derivation by that. Every
erasure that a derivation can go on from is tried (`ErasingSystem.exists_mem_erasures_iff`), since
the trace of a state is a beginning of the trace that the derivation ends with
(`Derives.trace_prefix`). So the states from which the search accepts are the derivable ones
(`ErasingSystem.solvable_iff_derivable`), whatever the quantifier, and the answer of a run is
whether its input is derivable (`ErasingSystem.runWith_decides_derivations`). A run that removes
each string at its leftmost occurrence only answers whether the input has a derivation of such
erasures (`ErasingSystem.runWith_decides_leftmost_derivations`).
-/

namespace StringMachines

/-! ## The positions of an erasing string -/

/-- Erasing a string where it stands. -/
theorem ErasingState.erase_append (u e v trace : Word) :
    erase ⟨u ++ e ++ v, trace⟩ ⟨e, u.length⟩ = ⟨u ++ v, trace ++ e⟩ := by
  rw [erase, List.append_assoc, Word.removeAt_append, List.drop_left]

/-- A string that stands in a text has an occurrence there. -/
theorem Word.mem_occurrences_append (u e v : Word) :
    ⟨u.length, e ++ v⟩ ∈ occurrences e (u ++ e ++ v) := by
  rw [List.append_assoc]
  exact mem_occurrences_iff.2 ⟨⟨u, rfl, rfl⟩, List.prefix_append e v⟩

namespace ErasingSystem

/-- A string is removed at a place of the tape where it stands. -/
theorem exists_append_of_mem_positions {mode : PositionMode} {e tape : Word} {position : Nat}
    (h : position ∈ positions mode e tape) : ∃ u v, tape = u ++ e ++ v ∧ position = u.length := by
  obtain ⟨o, ho, rfl⟩ := exists_occurrence_of_mem_positions h
  obtain ⟨⟨u, rfl, hu⟩, v, hv⟩ := Word.mem_occurrences_iff.1 ho
  exact ⟨u, v, by rw [List.append_assoc, hv], hu⟩

/-- In the pruned mode a string is removed at its leftmost place. -/
theorem mem_positions_first_iff {e u v : Word} :
    u.length ∈ positions .first e (u ++ e ++ v) ↔
      ∀ u' v', u ++ e ++ v = u' ++ e ++ v' → u.length ≤ u'.length := by
  have hsorted := Word.occurrences_pairwise e (u ++ e ++ v)
  have hmem := Word.mem_occurrences_append u e v
  cases hos : e.occurrences (u ++ e ++ v) with
  | nil =>
    rw [hos] at hmem
    cases hmem
  | cons o os =>
    have hpositions : positions .first e (u ++ e ++ v) = [o.position] := by
      rw [positions, hos]
      rfl
    -- The first occurrence is not to the right of any other.
    have hfirst : ∀ u' v', u ++ e ++ v = u' ++ e ++ v' → o.position ≤ u'.length := by
      intro u' v' htape
      have hmem' := Word.mem_occurrences_append u' e v'
      rw [← htape, hos] at hmem'
      rw [hos] at hsorted
      rcases List.mem_cons.1 hmem' with rfl | hmem'
      · exact Nat.le_refl _
      · exact Nat.le_of_lt ((List.pairwise_cons.1 hsorted).1 _ hmem')
    rw [hpositions, List.mem_singleton]
    constructor
    · intro hposition
      rw [hposition]
      exact hfirst
    · intro hleast
      have hposition : o.position ∈ positions .first e (u ++ e ++ v) := by
        rw [hpositions]
        exact List.mem_singleton_self _
      obtain ⟨u', v', htape, hu'⟩ := exists_append_of_mem_positions hposition
      have hle := hleast u' v' htape
      have hge := hfirst u v rfl
      omega

end ErasingSystem

/-- The erasures of a state are the removals of a string of the list at one of its positions. -/
theorem erases_iff_exists_mem_positions {strings : List Word} {mode : PositionMode}
    {s s' : ErasingState} :
    Erases strings mode s s' ↔ ∃ e ∈ strings, ∃ position ∈ ErasingSystem.positions mode e s.tape,
      s.erase ⟨e, position⟩ = s' := by
  constructor
  · rintro (@⟨e, u, v, trace, he⟩ | @⟨e, u, v, trace, he, hleast⟩)
    · obtain ⟨o, ho, hremoval⟩ := Occurrence.exists_mem_distinct (Word.mem_occurrences_append u e v)
      refine ⟨e, he, o.position, List.mem_map_of_mem ho, ?_⟩
      rw [← ErasingState.erase_append, ErasingState.erase, ErasingState.erase]
      exact congrArg (ErasingState.mk · _) hremoval
    · exact ⟨e, he, u.length, ErasingSystem.mem_positions_first_iff.2 hleast,
        ErasingState.erase_append u e v trace⟩
  · rintro ⟨e, he, position, hposition, rfl⟩
    obtain ⟨tape, trace⟩ := s
    obtain ⟨u, v, rfl, rfl⟩ := ErasingSystem.exists_append_of_mem_positions hposition
    rw [ErasingState.erase_append]
    cases mode with
    | all => exact .anywhere he
    | first => exact .leftmost he (ErasingSystem.mem_positions_first_iff.1 hposition)

/-! ## The erasures that are tried -/

namespace ErasingSystem

variable {system : ErasingSystem} {settings : Settings} {s s' : ErasingState}

/-- The erasures that are tried are those at a position of a string that leaves the trace a possible
beginning; ranking the strings loses none. -/
theorem mem_erasures_iff {x : Erasure} :
    x ∈ system.erasures settings s ↔
      x.string ∈ system.strings ∧ x.position ∈ positions settings.positions x.string s.tape ∧
        (system.levels? settings.quantifier (s.trace ++ x.string)).isSome = true := by
  obtain ⟨e, position⟩ := x
  rw [erasures, List.mem_flatMap]
  simp only [(Candidate.ranked_perm _ _).mem_iff, candidates, List.mem_filterMap, List.mem_map,
    List.mem_filter, Option.map_eq_some_iff, Erasure.mk.injEq]
  constructor
  · rintro ⟨c, ⟨e', ⟨he', -⟩, levels, hlevels, rfl⟩, position', hposition, rfl, rfl⟩
    exact ⟨he', hposition, by rw [hlevels]; rfl⟩
  · rintro ⟨he, hposition, hlevels⟩
    obtain ⟨levels, hlevels⟩ := Option.isSome_iff_exists.1 hlevels
    obtain ⟨u, v, htape, -⟩ := exists_append_of_mem_positions hposition
    have hoccurs : e.occursIn s.tape = true := Word.occursIn_iff.2 ⟨u, v, htape.symm⟩
    exact ⟨⟨e, levels⟩, ⟨e, ⟨he, hoccurs⟩, levels, hlevels, rfl⟩, position, hposition, rfl, rfl⟩

/-- An erasure leads to a state that the search looks at exactly when the trace of that state is a
possible beginning. -/
theorem exists_mem_erasures_iff :
    (∃ x ∈ system.erasures settings s, s.erase x = s') ↔
      Erases system.strings settings.positions s s' ∧
        (system.levels? settings.quantifier s'.trace).isSome = true := by
  rw [erases_iff_exists_mem_positions]
  constructor
  · rintro ⟨x, hx, rfl⟩
    obtain ⟨he, hposition, hlevels⟩ := mem_erasures_iff.1 hx
    exact ⟨⟨x.string, he, x.position, hposition, rfl⟩, hlevels⟩
  · rintro ⟨⟨e, he, position, hposition, rfl⟩, hlevels⟩
    exact ⟨⟨e, position⟩, mem_erasures_iff.2 ⟨he, hposition, hlevels⟩, rfl⟩

end ErasingSystem

/-! ## Derivations -/

section
variable {strings : List Word} {mode : PositionMode} {s s' : ErasingState}

/-- An erasure takes a string of the list off the tape and appends it to the trace. -/
theorem Erases.exists_string (h : Erases strings mode s s') :
    ∃ e ∈ strings, e <:+: s.tape ∧ s'.trace = s.trace ++ e := by
  cases h with
  | @anywhere e u v trace he => exact ⟨e, he, ⟨u, v, rfl⟩, rfl⟩
  | @leftmost e u v trace he hleast => exact ⟨e, he, ⟨u, v, rfl⟩, rfl⟩

/-- A derivation only appends to the trace. -/
theorem Derives.trace_prefix (h : Derives strings mode s s') : s.trace <+: s'.trace := by
  induction h with
  | refl => exact List.prefix_refl s.trace
  | tail _ hstep ih =>
    obtain ⟨e, -, -, htrace⟩ := hstep.exists_string
    rw [htrace]
    exact ih.trans (List.prefix_append _ e)

/-- Only which strings are in the list matters. -/
theorem Erases.mono {strings' : List Word} (hsubset : strings ⊆ strings')
    (h : Erases strings mode s s') : Erases strings' mode s s' := by
  cases h with
  | anywhere he => exact .anywhere (hsubset he)
  | leftmost he hleast => exact .leftmost (hsubset he) hleast

end

namespace ErasingSystem

/-- A state that the search accepts has a derivation: the one the search has found. -/
theorem derivable_of_solvable {system : ErasingSystem} {settings : Settings} {s : ErasingState}
    (h : (system.space settings).Solvable s) : system.Derivable settings.positions s := by
  induction h with
  | @decided s hverdict =>
    obtain ⟨tape, trace⟩ := s
    obtain ⟨rfl, haccepts⟩ : tape = [] ∧ system.pattern.accepts trace = true := by
      simpa [space] using hverdict
    exact ⟨trace, Pattern.isFullMatch_iff.1 haccepts, .refl⟩
  | @move s x _ hx _ ih =>
    obtain ⟨trace, htrace, hderives⟩ := ih
    have herases := (exists_mem_erasures_iff.1 ⟨x, hx, rfl⟩).1
    exact ⟨trace, htrace, .head herases hderives⟩

/-- A state that has a derivation is accepted by the search, since it tries every erasure of the
derivation or another one that leads to the same state. -/
theorem solvable_of_derivable {system : ErasingSystem} {settings : Settings} {s : ErasingState}
    (h : system.Derivable settings.positions s) : (system.space settings).Solvable s := by
  obtain ⟨trace, htrace, hderives⟩ := h
  induction hderives using Relation.ReflTransGen.head_induction_on with
  | refl =>
    refine .decided ?_
    have haccepts : system.pattern.accepts trace = true := Pattern.isFullMatch_iff.2 htrace
    simp [space, haccepts]
  | @head s s' hstep hrest ih =>
    obtain ⟨e, he, hinfix, htrace'⟩ := hstep.exists_string
    have hne := system.strings_ne_nil e he
    have hverdict : (system.space settings).verdict? s = none := by
      refine if_neg fun htape => hne ?_
      rw [htape] at hinfix
      exact List.infix_nil.1 hinfix
    -- The trace is not empty any more and can grow into the trace at the end.
    have hlevels : (system.levels? settings.quantifier s'.trace).isSome = true := by
      obtain ⟨x, hx⟩ := Derives.trace_prefix hrest
      refine (system.pattern.levels?_isSome_iff_exists_append _ ?_).2 ⟨x, ?_⟩
      · rw [htrace']
        exact List.append_ne_nil_of_right_ne_nil _ hne
      · rw [hx]
        exact htrace
    obtain ⟨x, hx, rfl⟩ := exists_mem_erasures_iff.2 ⟨hstep, hlevels⟩
    exact .move hverdict hx ih

/-- The search accepts exactly from the derivable states, under either quantifier. -/
theorem solvable_iff_derivable (system : ErasingSystem) (settings : Settings) (s : ErasingState) :
    (system.space settings).Solvable s ↔ system.Derivable settings.positions s :=
  ⟨derivable_of_solvable, solvable_of_derivable⟩

/-! ## Systems and their runs -/

variable {strings : List Word} {pattern : Word} {settings : Settings} {system : ErasingSystem}

/-- A system is built from strings without a fault and the text of a pattern. -/
theorem build_eq_ok_iff :
    build strings pattern settings = .ok system ↔
      strings.eraseDups.findSome? stringFault? = none ∧
        Pattern.parse pattern = .ok system.pattern ∧
        system.strings = strings.eraseDups ∧ system.settings = settings := by
  obtain ⟨strings', hnodup, hne, p, settings'⟩ := system
  rw [build]
  split
  · next fault hfault => simp [hfault]
  · next hfault =>
    split
    · next cause hcause => simp [hcause]
    · next q hq =>
      rw [Except.ok.injEq, ErasingSystem.mk.injEq, hq, Except.ok.injEq]
      constructor
      · rintro ⟨rfl, rfl, rfl⟩
        exact ⟨hfault, rfl, rfl, rfl⟩
      · rintro ⟨-, rfl, rfl, rfl⟩
        exact ⟨rfl, rfl, rfl⟩

/-- A system can be built when no string has a fault and the text is parsed as a pattern. -/
theorem exists_build_of_parse {p : Pattern} (settings : Settings)
    (hfault : strings.eraseDups.findSome? stringFault? = none)
    (hparse : Pattern.parse pattern = .ok p) :
    ∃ system, build strings pattern settings = .ok system ∧
      system.strings = strings.eraseDups ∧ system.pattern = p := by
  rw [build]
  split
  · next fault hfault' =>
    rw [hfault] at hfault'
    cases hfault'
  · rw [hparse]
    exact ⟨_, rfl, rfl, rfl⟩

/-- A system that has been built has the given strings, without repetitions, and the tokens of the
given text. -/
theorem strings_and_tokens_of_build (hbuild : build strings pattern settings = .ok system) :
    system.strings = strings.eraseDups ∧ system.pattern.tokens = Token.read pattern := by
  obtain ⟨-, hparse, hstrings, -⟩ := build_eq_ok_iff.1 hbuild
  exact ⟨hstrings, (Pattern.parse_eq_ok_iff.1 hparse).2⟩

/-- A system can be built when no string has a fault and the text and its tokens pass the checks. -/
theorem exists_build_of_read (strings : List Word) (settings : Settings) {tokens : List Token}
    (hread : Token.read pattern = tokens)
    (hfault : strings.eraseDups.findSome? stringFault? = none)
    (hhead : ∃ c ∈ pattern.head?, ¬ (c = '*' ∨ c = '+' ∨ c = '|'))
    (hforbidden : ∀ w ∈ Pattern.forbiddenSequences, ¬ w.occursIn pattern = true)
    (hbrackets : Pattern.checkBrackets none pattern = .ok ())
    (htokens : Pattern.checkTokens false tokens = .ok ()) :
    ∃ system, build strings pattern settings = .ok system ∧
      system.strings = strings.eraseDups ∧ system.pattern.tokens = tokens := by
  obtain ⟨p, hparse, hp⟩ :=
    Pattern.exists_parse_of_read hread hhead hforbidden hbrackets htokens
  obtain ⟨system, hbuild, hstrings, rfl⟩ := exists_build_of_parse settings hfault hparse
  exact ⟨system, hbuild, hstrings, hp⟩

/-- What is derivable in a system that has been built, in terms of what it was built from. -/
theorem derivable_iff_of_build (hbuild : build strings pattern settings = .ok system)
    (mode : PositionMode) (s : ErasingState) :
    system.Derivable mode s ↔
      ∃ trace ∈ Pattern.language (Token.read pattern), Derives strings mode s ⟨[], trace⟩ := by
  obtain ⟨hstrings, htokens⟩ := strings_and_tokens_of_build hbuild
  have hderives : Derives strings.eraseDups mode = Derives strings mode := by
    have herases : Erases strings.eraseDups mode = Erases strings mode := by
      funext t t'
      refine propext ⟨Erases.mono fun e he => ?_, Erases.mono fun e he => ?_⟩
      · exact List.mem_eraseDups.1 he
      · exact List.mem_eraseDups.2 he
    rw [Derives, herases, Derives]
  rw [Derivable, htokens, hstrings, hderives]

/-- A run with an input that is not too long has an answer, and it is whether the input is
derivable. -/
theorem exists_runWith_eq_ok (system : ErasingSystem) (settings : Settings) {input : Word}
    (hinput : input.length ≤ maximumInputLength) :
    ∃ verdict, system.runWith settings input = .ok verdict ∧
      (verdict.accepted = true ↔ system.Derivable settings.positions ⟨input, []⟩) := by
  refine ⟨_, if_neg (Nat.not_lt.2 hinput), ?_⟩
  rw [SearchSpace.explore_accepted_iff, solvable_iff_derivable]

/-- What a run with an input that is not too long answers. -/
theorem runWith_map_accepted (system : ErasingSystem) (settings : Settings) {input : Word}
    (hinput : input.length ≤ maximumInputLength) {accepted : Bool}
    (haccepted : accepted = true ↔ system.Derivable settings.positions ⟨input, []⟩) :
    (system.runWith settings input).map (·.accepted) = .ok accepted := by
  obtain ⟨verdict, hrun, hverdict⟩ := system.exists_runWith_eq_ok settings hinput
  rw [hrun]
  exact congrArg Except.ok (Bool.eq_iff_iff.2 (hverdict.trans haccepted.symm))

/-- What every run of a system that has been built answers, in terms of what it was built from. -/
theorem runWith_map_accepted_of_build (hbuild : build strings pattern settings = .ok system)
    {input : Word} (hinput : input.length ≤ maximumInputLength) (settings' : Settings)
    {accepted : Bool}
    (haccepted : accepted = true ↔ ∃ trace ∈ Pattern.language (Token.read pattern),
      Derives strings settings'.positions ⟨input, []⟩ ⟨[], trace⟩) :
    (system.runWith settings' input).map (·.accepted) = .ok accepted :=
  runWith_map_accepted system settings' hinput
    (haccepted.trans (derivable_iff_of_build hbuild _ _).symm)

/-- **A run decides derivability.** For every system that can be built and every input of at most
1000 characters there is one answer that the runs over all positions give, under either quantifier
and whether verbose or not: whether some sequence of erasures of the given strings, each anywhere on
the tape, empties it with a trace in the language of the given pattern. -/
theorem runWith_decides_derivations (hbuild : build strings pattern settings = .ok system)
    {input : Word} (hinput : input.length ≤ 1000) :
    ∃ accepted : Bool,
      (accepted = true ↔
        ∃ trace ∈ Pattern.language (Token.read pattern),
          Derives strings .all ⟨input, []⟩ ⟨[], trace⟩) ∧
      ∀ quantifier verbose,
        (system.runWith ⟨quantifier, .all, verbose⟩ input).map (·.accepted) = .ok accepted := by
  obtain ⟨first, -, hfirst⟩ := system.exists_runWith_eq_ok {} hinput
  have hderives := hfirst.trans (derivable_iff_of_build hbuild _ _)
  refine ⟨first.accepted, hderives, fun quantifier verbose => ?_⟩
  exact runWith_map_accepted_of_build hbuild hinput _ hderives

/-- The string in the middle goes first, and then the two around it. -/
theorem runWith_accepts_cdabcd : ∃ system : ErasingSystem,
    build [['a', 'b'], ['c', 'd']] "ab(cd)*".toList {} = .ok system ∧
      ['c', 'd', 'a', 'b', 'c', 'd'].length ≤ 1000 ∧
      ∀ quantifier verbose,
        (system.runWith ⟨quantifier, .all, verbose⟩ ['c', 'd', 'a', 'b', 'c', 'd']).map
          (·.accepted) = .ok true := by
  have hread : Token.read "ab(cd)*".toList =
      [.atom (.literal 'a'), .atom (.literal 'b'), .atom (.group [['c', 'd']]),
        .operator .star] := by
    simp [Token.read, Word.upTo, Word.beyond, List.splitOn_cons_eq_if_modifyHead]
  obtain ⟨system, hbuild, -, -⟩ := exists_build_of_read [['a', 'b'], ['c', 'd']] {} hread
    (by decide) ⟨'a', by simp, by decide⟩ (by decide) (by decide) (by decide)
  have hlength : ['c', 'd', 'a', 'b', 'c', 'd'].length ≤ 1000 := by decide
  obtain ⟨accepted, hiff, hruns⟩ := runWith_decides_derivations hbuild hlength
  have hmatch : Pattern.isFullMatch (Token.read "ab(cd)*".toList)
      ['a', 'b', 'c', 'd', 'c', 'd'] = true := by
    rw [hread]
    decide
  have hderives : Derives [['a', 'b'], ['c', 'd']] .all ⟨['c', 'd', 'a', 'b', 'c', 'd'], []⟩
      ⟨[], ['a', 'b', 'c', 'd', 'c', 'd']⟩ :=
    .head (Erases.anywhere (e := ['a', 'b']) (u := ['c', 'd']) (v := ['c', 'd']) (by decide)) <|
    .head (Erases.anywhere (e := ['c', 'd']) (u := []) (v := ['c', 'd']) (by decide)) <|
    .head (Erases.anywhere (e := ['c', 'd']) (u := []) (v := []) (by decide)) .refl
  obtain rfl : accepted = true := hiff.2 ⟨_, Pattern.isFullMatch_iff.1 hmatch, hderives⟩
  exact ⟨system, hbuild, hlength, hruns⟩

/-! ## Runs that remove leftmost occurrences only -/

/-- **A run over leftmost occurrences decides leftmost derivability.** For every system that can be
built and every input of at most 1000 characters there is one answer that the runs over first
positions give, under either quantifier and whether verbose or not: whether some sequence of
erasures of the given strings, each at its leftmost occurrence, empties the tape with a trace in the
language of the given pattern. What they accept, the runs over all positions accept too. -/
theorem runWith_decides_leftmost_derivations
    (hbuild : build strings pattern settings = .ok system) {input : Word}
    (hinput : input.length ≤ 1000) :
    ∃ accepted : Bool,
      (accepted = true ↔
        ∃ trace ∈ Pattern.language (Token.read pattern),
          Derives strings .first ⟨input, []⟩ ⟨[], trace⟩) ∧
      (∀ quantifier verbose,
        (system.runWith ⟨quantifier, .first, verbose⟩ input).map (·.accepted) = .ok accepted) ∧
      (accepted = true → ∀ quantifier verbose,
        (system.runWith ⟨quantifier, .all, verbose⟩ input).map (·.accepted) = .ok true) := by
  obtain ⟨first, -, hfirst⟩ := system.exists_runWith_eq_ok { positions := .first } hinput
  have hderives := hfirst.trans (derivable_iff_of_build hbuild _ _)
  refine ⟨first.accepted, hderives, fun quantifier verbose => ?_, fun haccepted quantifier
    verbose => ?_⟩
  · exact runWith_map_accepted_of_build hbuild hinput _ hderives
  · have hall : system.Derivable .all ⟨input, []⟩ := (hfirst.1 haccepted).all_of_first
    refine runWith_map_accepted_of_build hbuild hinput _ (iff_of_true rfl ?_)
    exact (derivable_iff_of_build hbuild _ _).1 hall

/-- The first of two occurrences goes, and then what is left as a whole. -/
theorem runWith_first_accepts_ababa : ∃ system : ErasingSystem,
    build [['a', 'b'], ['a', 'b', 'a']] "(ab)(aba)".toList {} = .ok system ∧
      ['a', 'b', 'a', 'b', 'a'].length ≤ 1000 ∧
      ∀ mode quantifier verbose,
        (system.runWith ⟨quantifier, mode, verbose⟩ ['a', 'b', 'a', 'b', 'a']).map (·.accepted) =
          .ok true := by
  have hread : Token.read "(ab)(aba)".toList =
      [.atom (.group [['a', 'b']]), .atom (.group [['a', 'b', 'a']])] := by
    simp [Token.read, Word.upTo, Word.beyond, List.splitOn_cons_eq_if_modifyHead]
  obtain ⟨system, hbuild, -, -⟩ := exists_build_of_read [['a', 'b'], ['a', 'b', 'a']] {} hread
    (by decide) ⟨'(', by simp, by decide⟩ (by decide) (by decide) (by decide)
  have hlength : ['a', 'b', 'a', 'b', 'a'].length ≤ 1000 := by decide
  obtain ⟨accepted, hiff, hfirst, hall⟩ := runWith_decides_leftmost_derivations hbuild hlength
  have hmatch : Pattern.isFullMatch (Token.read "(ab)(aba)".toList)
      ['a', 'b', 'a', 'b', 'a'] = true := by
    rw [hread]
    decide
  have hderives : Derives [['a', 'b'], ['a', 'b', 'a']] .first ⟨['a', 'b', 'a', 'b', 'a'], []⟩
      ⟨[], ['a', 'b', 'a', 'b', 'a']⟩ :=
    .head (Erases.leftmost (e := ['a', 'b']) (u := []) (v := ['a', 'b', 'a']) (by decide)
      fun _ _ _ => Nat.zero_le _) <|
    .head (Erases.leftmost (e := ['a', 'b', 'a']) (u := []) (v := []) (by decide)
      fun _ _ _ => Nat.zero_le _) .refl
  obtain rfl : accepted = true := hiff.2 ⟨_, Pattern.isFullMatch_iff.1 hmatch, hderives⟩
  refine ⟨system, hbuild, hlength, fun mode quantifier verbose => ?_⟩
  cases mode with
  | all => exact hall rfl quantifier verbose
  | first => exact hfirst quantifier verbose

end ErasingSystem

end StringMachines
