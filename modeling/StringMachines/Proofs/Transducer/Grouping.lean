import StringMachines.Proofs.Transducer.Enumeration

/-!
# The table of a transducer as a grouping of its transitions

The table of a transducer is filled one transition at a time. What it holds for a state can be read
off the list of transitions as a whole (`Transducer.movesFrom_of_build`): the words that are read
from the state, in the order in which they are first read (`Transition.reads`), each with the
transitions that read it, in the order of definition (`Transition.reading`). The order of the words
is that of the places in the list where they are first read (`Transition.pairwise_firstRead_reads`),
so that nothing is lost or reordered (`Transducer.table_groups_transitions`). The configurations
that a run goes on to are those of the transitions from the state in this order
(`Transducer.successors_of_build`).
-/

namespace StringMachines

namespace OrderedMap

variable {κ β : Type} [DecidableEq κ] {keys : List κ} {key : κ} {value value' : κ → β}

/-- Altering a key that is there changes its value and no other. -/
theorem alter_map_of_mem (hnodup : keys.Nodup) (hkey : key ∈ keys) (initial : β) (f : β → β)
    (hself : value' key = f (value key)) (hothers : ∀ k, k ≠ key → value' k = value k) :
    alter key initial f (keys.map fun k => (k, value k)) = keys.map fun k => (k, value' k) := by
  induction keys with
  | nil => cases hkey
  | cons k keys ih =>
    obtain ⟨hnotMem, hnodup'⟩ := List.nodup_cons.1 hnodup
    rw [List.map_cons, alter, List.map_cons]
    split
    · next heq =>
      subst heq
      have hrest : (keys.map fun k => (k, value k)) = keys.map fun k => (k, value' k) := by
        refine List.map_congr_left fun k hk => ?_
        rw [hothers k (ne_of_mem_of_not_mem hk hnotMem)]
      rw [hself, hrest]
    · next hne =>
      have hkey' : key ∈ keys := (List.mem_cons.1 hkey).resolve_left hne
      rw [hothers k (Ne.symm hne), ih hnodup' hkey']

end OrderedMap

namespace Transition

variable {transitions : List Transition} {state read : Word} {tr : Transition}

/-- Where a transition leads, and what it writes on the way. -/
def goal (tr : Transition) : Target :=
  ⟨tr.target, tr.output⟩

/-- The words that are read from a state, in the order in which they are first read. -/
def reads (transitions : List Transition) (state : Word) : List Word :=
  ((transitions.filter (·.source = state)).map (·.input)).eraseDups

/-- The transitions from a state that read a word, in the order of definition. -/
def reading (transitions : List Transition) (state read : Word) : List Transition :=
  transitions.filter fun tr => tr.source = state ∧ tr.input = read

/-- The words read from a state are those of the transitions from it. -/
theorem mem_reads_iff : read ∈ reads transitions state ↔
    ∃ tr ∈ transitions, tr.source = state ∧ tr.input = read := by
  simp [reads, List.mem_eraseDups, and_assoc]

/-- Which transitions read a word from a state. -/
theorem mem_reading_iff : tr ∈ reading transitions state read ↔
    tr ∈ transitions ∧ tr.source = state ∧ tr.input = read := by
  rw [reading, List.mem_filter, decide_eq_true_iff]

/-- Nothing reads a word from a state but the words read from it. -/
theorem reading_eq_nil (h : read ∉ reads transitions state) :
    reading transitions state read = [] := by
  refine List.eq_nil_iff_forall_not_mem.2 fun tr htr => h (mem_reads_iff.2 ⟨tr, ?_⟩)
  exact mem_reading_iff.1 htr

/-- One more transition is the last of those that read its word from its state. -/
theorem reading_concat : reading (transitions ++ [tr]) state read =
    reading transitions state read ++ if tr.source = state ∧ tr.input = read then [tr] else [] := by
  simp only [reading, List.filter_append, List.filter_cons, List.filter_nil, decide_eq_true_eq]

/-- One more transition from another state changes nothing about the words read from a state. -/
theorem reads_concat_of_ne (h : tr.source ≠ state) :
    reads (transitions ++ [tr]) state = reads transitions state := by
  simp [reads, h]

/-- One more transition that reads a word that is read before. -/
theorem reads_concat_of_mem (h : tr.input ∈ reads transitions tr.source) :
    reads (transitions ++ [tr]) tr.source = reads transitions tr.source := by
  have hmem := List.mem_eraseDups.1 h
  simp only [reads, List.filter_append, List.map_append, List.eraseDups_append]
  simp [List.removeAll, hmem]

/-- One more transition that reads a word for the first time. -/
theorem reads_concat_of_notMem (h : tr.input ∉ reads transitions tr.source) :
    reads (transitions ++ [tr]) tr.source = reads transitions tr.source ++ [tr.input] := by
  have hmem := mt List.mem_eraseDups.2 h
  simp only [reads, List.filter_append, List.map_append, List.eraseDups_append]
  simp [List.removeAll, List.eraseDups_cons, hmem]

/-- A table of defined transitions groups the transitions from a state by the words they read. -/
theorem lookup_foldl_addTo (transitions : List Transition) (state : Word) :
    ((transitions.foldl addTo []).lookup state).getD [] =
      (reads transitions state).map fun read =>
        (read, (reading transitions state read).map goal) := by
  -- The induction follows the table as it is filled, so it is on the end of the list.
  induction transitions using List.reverseRecOn with
  | nil => rfl
  | append_singleton transitions tr ih =>
    rw [List.foldl_append, List.foldl_cons, List.foldl_nil]
    rcases ne_or_eq tr.source state with hne | rfl
    · have hreading (read : Word) :
          reading (transitions ++ [tr]) state read = reading transitions state read := by
        rw [reading_concat, if_neg fun h => hne h.1, List.append_nil]
      rw [lookup_addTo_of_ne hne.symm, ih, reads_concat_of_ne hne]
      simp only [hreading]
    · have hself : reading (transitions ++ [tr]) tr.source tr.input =
          reading transitions tr.source tr.input ++ [tr] := by
        rw [reading_concat, if_pos ⟨rfl, rfl⟩]
      have hothers (read : Word) (hread : read ≠ tr.input) :
          reading (transitions ++ [tr]) tr.source read = reading transitions tr.source read := by
        rw [reading_concat, if_neg fun h => hread h.2.symm, List.append_nil]
      rw [lookup_addTo_self, ih]
      by_cases hmem : tr.input ∈ reads transitions tr.source
      · rw [reads_concat_of_mem hmem]
        refine OrderedMap.alter_map_of_mem (Word.nodup_eraseDups _) hmem _ _ ?_ fun read hread => ?_
        · rw [hself, List.map_append]
          rfl
        · rw [hothers read hread]
      · have hnew : tr.input ∉ ((reads transitions tr.source).map fun read =>
            (read, (reading transitions tr.source read).map goal)).map (·.1) := by
          simpa using hmem
        rw [reads_concat_of_notMem hmem, OrderedMap.alter_of_notMem hnew, List.map_append,
          List.map_singleton, hself, reading_eq_nil hmem]
        refine congrArg (· ++ _) (List.map_congr_left fun read hread => ?_)
        rw [hothers read (ne_of_mem_of_not_mem hread hmem)]

/-- The place in the list of the transition that first reads a word from a state. -/
def firstRead (transitions : List Transition) (state read : Word) : Nat :=
  transitions.findIdx fun tr => tr.source = state ∧ tr.input = read

/-- A word has a first place in the list when it is read from the state. -/
theorem firstRead_lt_length (h : read ∈ reads transitions state) :
    firstRead transitions state read < transitions.length := by
  obtain ⟨tr, htr, hread⟩ := mem_reads_iff.1 h
  exact List.findIdx_lt_length_of_exists ⟨tr, htr, decide_eq_true hread⟩

/-- The first place of a word stays when one more transition is defined. -/
theorem firstRead_concat_of_mem (h : read ∈ reads transitions state) :
    firstRead (transitions ++ [tr]) state read = firstRead transitions state read :=
  (List.prefix_append transitions [tr]).findIdx_eq_of_findIdx_lt_length (firstRead_lt_length h)

/-- A word that is read for the first time has its first place at the end of the list. -/
theorem firstRead_concat_of_notMem (h : tr.input ∉ reads transitions tr.source) :
    firstRead (transitions ++ [tr]) tr.source tr.input = transitions.length := by
  have hlength : firstRead transitions tr.source tr.input = transitions.length := by
    refine List.findIdx_eq_length.2 fun tr' htr' => decide_eq_false fun hread => ?_
    exact h (mem_reads_iff.2 ⟨tr', htr', hread⟩)
  have hself : [tr].findIdx (fun tr' => tr'.source = tr.source ∧ tr'.input = tr.input) = 0 := by
    simp
  rw [firstRead] at hlength ⊢
  rw [List.findIdx_append, hlength, if_neg (Nat.lt_irrefl _), hself, Nat.zero_add]

/-- The words read from a state are in the order of the transitions that first read them. -/
theorem pairwise_firstRead_reads (transitions : List Transition) (state : Word) :
    (reads transitions state).Pairwise fun read read' =>
      firstRead transitions state read < firstRead transitions state read' := by
  induction transitions using List.reverseRecOn with
  | nil => exact .nil
  | append_singleton transitions tr ih =>
    have hstays : (reads transitions state).Pairwise fun read read' =>
        firstRead (transitions ++ [tr]) state read <
          firstRead (transitions ++ [tr]) state read' := by
      refine ih.imp_of_mem fun hread hread' hlt => ?_
      rwa [firstRead_concat_of_mem hread, firstRead_concat_of_mem hread']
    rcases ne_or_eq tr.source state with hne | rfl
    · rwa [reads_concat_of_ne hne]
    · by_cases hmem : tr.input ∈ reads transitions tr.source
      · rwa [reads_concat_of_mem hmem]
      · -- The new word comes last, and its place is behind the whole list so far.
        rw [reads_concat_of_notMem hmem]
        refine List.pairwise_append.2 ⟨hstays, List.pairwise_singleton _ _, ?_⟩
        intro read hread read' hread'
        rw [List.mem_singleton.1 hread', firstRead_concat_of_mem hread,
          firstRead_concat_of_notMem hmem]
        exact firstRead_lt_length hread

/-- The transitions from a state, grouped by the words they read. -/
def outgoing (transitions : List Transition) (state : Word) : List Transition :=
  (reads transitions state).flatMap (reading transitions state)

/-- No transition is added. -/
theorem mem_of_mem_outgoing (h : tr ∈ outgoing transitions state) : tr ∈ transitions := by
  obtain ⟨read, -, htr⟩ := List.mem_flatMap.1 h
  exact (mem_reading_iff.1 htr).1

/-- Whether a transition can be taken when `remaining` is left to read and `output` is written. -/
def applies (cap : Option Nat) (remaining output : Word) (tr : Transition) : Bool :=
  tr.input.isPrefixOf remaining && (!tr.input.isEmpty || cap.all (output.length < ·))

end Transition

namespace Transducer

variable {transitions : List Transition} {initial : Word} {finals : List Word} {t : Transducer}

/-- The moves of a state group the transitions from it. -/
theorem movesFrom_of_build (hbuild : build transitions initial finals = .ok t) (cap : Option Nat)
    (state : Word) :
    (t.withCap cap).movesFrom state = (Transition.reads transitions state).map fun read =>
      (read, (Transition.reading transitions state read).map Transition.goal) := by
  have htable : (t.withCap cap).table = transitions.foldl Transition.addTo [] :=
    (of_build_eq_ok hbuild).1
  rw [movesFrom, htable, Transition.lookup_foldl_addTo]

/-- The targets of a state and a word are those of the transitions that read the word from it. -/
theorem targets_of_build (hbuild : build transitions initial finals = .ok t) (state read : Word) :
    t.targets state read = (Transition.reading transitions state read).map Transition.goal := by
  have hmoves : t.movesFrom state = _ := movesFrom_of_build hbuild t.cap state
  rw [targets, hmoves]
  by_cases hread : read ∈ Transition.reads transitions state
  · rw [List.lookup_graph _ hread, Option.getD_some]
  · have hnone : ((Transition.reads transitions state).map fun read =>
        (read, (Transition.reading transitions state read).map Transition.goal)).lookup read =
          none := by
      refine List.lookup_eq_none_iff.2 fun entry hentry => ?_
      obtain ⟨read', hread', rfl⟩ := List.mem_map.1 hentry
      exact bne_iff_ne.2 (ne_of_mem_of_not_mem hread' hread).symm
    rw [hnone, Transition.reading_eq_nil hread]
    rfl

/-- **The table of a transducer loses and reorders no transition.** In a transducer that can be
built, the targets of a state and a word are those of the transitions that read the word from the
state, in the order of definition and with their repetitions. The moves of a state list each word
that is read from it, once, in the order in which the words are first read, each with its
targets. -/
theorem table_groups_transitions (hbuild : build transitions initial finals = .ok t) :
    (∀ state read, t.targets state read =
      (transitions.filter fun tr => tr.source = state ∧ tr.input = read).map fun tr =>
        ⟨tr.target, tr.output⟩) ∧
    ∀ state, ∃ inputs : List Word,
      t.movesFrom state = inputs.map (fun read => (read, t.targets state read)) ∧
      (∀ read, read ∈ inputs ↔ ∃ tr ∈ transitions, tr.source = state ∧ tr.input = read) ∧
      inputs.Nodup ∧
      inputs.Pairwise fun read read' =>
        Transition.firstRead transitions state read <
          Transition.firstRead transitions state read' := by
  refine ⟨fun state read => targets_of_build hbuild state read, fun state => ?_⟩
  refine ⟨Transition.reads transitions state, ?_, fun read => Transition.mem_reads_iff,
    Word.nodup_eraseDups _, Transition.pairwise_firstRead_reads transitions state⟩
  have hmoves : t.movesFrom state = _ := movesFrom_of_build hbuild t.cap state
  simp only [hmoves, targets_of_build hbuild]

/-- Transitions from two states in turn, one of them given twice. -/
theorem table_groups_qxy : ∃ t,
    build [⟨['q'], ['x'], ['r'], ['1']⟩, ⟨['r'], ['x'], ['q'], []⟩, ⟨['q'], ['y'], ['q'], []⟩,
      ⟨['q'], ['x'], ['q'], ['2']⟩, ⟨['q'], ['x'], ['r'], ['1']⟩] ['q'] [] = .ok t ∧
    t.targets ['q'] ['x'] = [⟨['r'], ['1']⟩, ⟨['q'], ['2']⟩, ⟨['r'], ['1']⟩] ∧
    (t.movesFrom ['q']).map (·.1) = [['x'], ['y']] := by
  obtain ⟨t, hbuild, hreads⟩ : ∃ t,
      build [⟨['q'], ['x'], ['r'], ['1']⟩, ⟨['r'], ['x'], ['q'], []⟩, ⟨['q'], ['y'], ['q'], []⟩,
        ⟨['q'], ['x'], ['q'], ['2']⟩, ⟨['q'], ['x'], ['r'], ['1']⟩] ['q'] [] = .ok t ∧
      (t.movesFrom ['q']).map (·.1) = [['x'], ['y']] :=
    ⟨_, rfl, rfl⟩
  obtain ⟨htargets, -⟩ := table_groups_transitions hbuild
  exact ⟨t, hbuild, htargets ['q'] ['x'], hreads⟩

/-- A run goes on to the configurations of the transitions that can be taken, in the order of the
groups. -/
theorem successors_of_build (hbuild : build transitions initial finals = .ok t)
    (cap : Option Nat) (c : Configuration) :
    (t.withCap cap).successors c =
      ((Transition.outgoing transitions c.state).filter
        (Transition.applies cap c.remaining c.output)).map fun tr =>
          ⟨tr.target, c.remaining.drop tr.input.length, c.output ++ tr.output⟩ := by
  rw [successors, movesFrom_of_build hbuild, List.flatMap_map, Transition.outgoing,
    List.filter_flatMap, List.map_flatMap]
  refine List.flatMap_congr fun read _ => ?_
  -- All transitions of a group read the same word, so they can be taken together or not at all.
  have hinput : ∀ tr ∈ Transition.reading transitions c.state read, tr.input = read := by
    intro tr htr
    exact (Transition.mem_reading_iff.1 htr).2.2
  have happlies : ∀ tr ∈ Transition.reading transitions c.state read,
      Transition.applies cap c.remaining c.output tr =
        (read.isPrefixOf c.remaining &&
          (!read.isEmpty || (t.withCap cap).mayReadNothing c.output)) := by
    intro tr htr
    rw [Transition.applies, hinput tr htr]
    rfl
  rw [List.filter_congr happlies]
  dsimp only
  cases read.isPrefixOf c.remaining &&
      (!read.isEmpty || (t.withCap cap).mayReadNothing c.output) with
  | false => rw [if_neg (by simp), List.filter_false, List.map_nil]
  | true =>
    rw [if_pos rfl, List.filter_true, List.map_map]
    refine List.map_congr_left fun tr htr => ?_
    rw [hinput tr htr]
    rfl

end Transducer

end StringMachines
