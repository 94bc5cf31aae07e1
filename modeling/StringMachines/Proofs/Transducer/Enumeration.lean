import Mathlib.Data.Set.Card
import StringMachines.Transducer.Computation

/-!
# What a run enumerates

Asked for one output after another, a run gives the accepting configurations it has visited
(`Transducer.Run.Gives`). Its invariant (`Transducer.Run.Sound`) ties three things together: what
is known, visited or pending, can be reached; what a visited configuration leads to is known; and
what was given so far are the accepting configurations among the visited ones, each once. A visit
keeps it (`Transducer.Run.Sound.step`), hence so does a call (`Transducer.Run.Sound.next`). When
nothing is pending any more, everything that can be reached has been visited, so that nothing is
missing from what was given.

The table of a transducer holds exactly the transitions it was built from
(`Transducer.moves_iff_of_build`). So the outputs of a run are those of the computations with these
transitions (`Transducer.gives_enumerates_answers`), whatever the cap.
-/

namespace StringMachines

/-! ## Computations with a list of transitions -/

/-- A transition of the list is taken: it reads the beginning of what is left, and one that reads
nothing is taken only while the output is shorter than the cap. -/
inductive Transition.Step (transitions : List Transition) (cap : Option Nat) :
    Configuration → Configuration → Prop
  | take {tr : Transition} {rest output : Word} : tr ∈ transitions →
      (tr.input = [] → ∀ n ∈ cap, output.length < n) →
      Transition.Step transitions cap ⟨tr.source, tr.input ++ rest, output⟩
        ⟨tr.target, rest, output ++ tr.output⟩

/-- The final states in which a computation on the input can end, each with an output that it can
end there with. -/
def Transition.answers (transitions : List Transition) (initial : Word) (finals : List Word)
    (cap : Option Nat) (input : Word) : Set (Word × Word) :=
  {answer | answer.1 ∈ finals ∧
    Relation.ReflTransGen (Transition.Step transitions cap) ⟨initial, input, []⟩
      ⟨answer.1, [], answer.2⟩}

/-- Reading the word leads to the target. -/
def Moves.Leads (moves : Moves) (read : Word) (target : Target) : Prop :=
  ∃ targets, (read, targets) ∈ moves ∧ target ∈ targets

/-- Adding a target for a word adds that target and no other. -/
theorem Moves.leads_alter_iff {moves : Moves} {input read : Word} {new target : Target} :
    Moves.Leads (moves.alter input [] (· ++ [new])) read target ↔
      moves.Leads read target ∨ read = input ∧ target = new := by
  induction moves with
  | nil => simp [Leads, OrderedMap.alter]
  | cons entry moves ih =>
    obtain ⟨key, known⟩ := entry
    simp only [Leads] at ih ⊢
    rw [OrderedMap.alter]
    split
    · next hkey =>
      subst hkey
      simp only [List.mem_cons, Prod.mk.injEq, or_and_right, exists_or, and_assoc,
        exists_and_left, exists_eq_left, List.mem_append, and_or_left]
      grind
    · simp only [List.mem_cons, or_and_right, exists_or, ih, or_assoc]

namespace Transition

/-- Defining a transition adds that transition to the table and no other. -/
theorem leads_addTo_iff {table : OrderedMap Word Moves} {tr : Transition} {state read : Word}
    {target : Target} :
    Moves.Leads (((tr.addTo table).lookup state).getD []) read target ↔
      Moves.Leads ((table.lookup state).getD []) read target ∨
        tr = ⟨state, read, target.state, target.output⟩ := by
  rcases eq_or_ne state tr.source with rfl | hne
  · rw [lookup_addTo_self, Moves.leads_alter_iff]
    obtain ⟨source, input, goal, written⟩ := tr
    obtain ⟨q, w⟩ := target
    simp only [mk.injEq, Target.mk.injEq, true_and, eq_comm]
  · have hother : tr ≠ ⟨state, read, target.state, target.output⟩ :=
      fun heq => hne (congrArg source heq).symm
    rw [lookup_addTo_of_ne hne, or_iff_left hother]

/-- A table of defined transitions holds these transitions and no others. -/
theorem leads_foldl_addTo_iff {transitions : List Transition} {table : OrderedMap Word Moves}
    {state read : Word} {target : Target} :
    Moves.Leads (((transitions.foldl addTo table).lookup state).getD []) read target ↔
      Moves.Leads ((table.lookup state).getD []) read target ∨
        ⟨state, read, target.state, target.output⟩ ∈ transitions := by
  induction transitions generalizing table with
  | nil => simp
  | cons tr transitions ih =>
    rw [List.foldl_cons, ih, leads_addTo_iff, List.mem_cons, or_assoc, eq_comm (a := tr)]

end Transition

namespace Transducer

variable {transitions : List Transition} {initial : Word} {finals : List Word} {t : Transducer}

/-- The moves of a state are the transitions from it that the transducer was built from. -/
theorem leads_movesFrom_iff_of_build (hbuild : build transitions initial finals = .ok t)
    (cap : Option Nat) {state read : Word} {target : Target} :
    ((t.withCap cap).movesFrom state).Leads read target ↔
      ⟨state, read, target.state, target.output⟩ ∈ transitions := by
  have htable : (t.withCap cap).table = transitions.foldl Transition.addTo [] :=
    (of_build_eq_ok hbuild).1
  rw [movesFrom, htable, Transition.leads_foldl_addTo_iff]
  simp [Moves.Leads]

/-- A transducer moves by the transitions it was built from. -/
theorem moves_iff_of_build (hbuild : build transitions initial finals = .ok t) (cap : Option Nat)
    {c d : Configuration} :
    (t.withCap cap).Moves c d ↔ Transition.Step transitions cap c d := by
  constructor
  · intro h
    cases h with
    | @move state read rest output targets target hmem htarget hcap =>
      have htr := (leads_movesFrom_iff_of_build hbuild cap).1 ⟨targets, hmem, htarget⟩
      exact .take htr hcap
  · intro h
    cases h with
    | @take tr rest output htr hcap =>
      have hleads : ((t.withCap cap).movesFrom tr.source).Leads tr.input
          ⟨tr.target, tr.output⟩ := (leads_movesFrom_iff_of_build hbuild cap).2 htr
      obtain ⟨targets, hmem, htarget⟩ := hleads
      exact .move hmem htarget hcap

/-- A run reaches what the computations with its transitions reach. -/
theorem reaches_iff_of_build (hbuild : build transitions initial finals = .ok t)
    (cap : Option Nat) (input : Word) {c : Configuration} :
    (t.withCap cap).Reaches input c ↔
      Relation.ReflTransGen (Transition.Step transitions cap) ⟨initial, input, []⟩ c := by
  have hmoves : (t.withCap cap).Moves = Transition.Step transitions cap := by
    funext c d
    exact propext (moves_iff_of_build hbuild cap)
  obtain ⟨-, hinitial, -⟩ := of_build_eq_ok hbuild
  rw [Reaches, hmoves, ← hinitial]
  rfl

/-- What a transducer yields are the answers of the transitions it was built from. -/
theorem yields_iff_of_build (hbuild : build transitions initial finals = .ok t) (cap : Option Nat)
    {input state output : Word} :
    (t.withCap cap).Yields input output state ↔
      (state, output) ∈ Transition.answers transitions initial finals cap input := by
  obtain ⟨-, -, hfinals⟩ := of_build_eq_ok hbuild
  show state ∈ t.finals ∧ (t.withCap cap).Reaches input ⟨state, [], output⟩ ↔ _
  rw [hfinals, reaches_iff_of_build hbuild]
  rfl

/-! ## What one visit does -/

variable {input : Word}

/-- A configuration is accepting when nothing is left to read and its state is final. -/
theorem isAccepting_iff {c : Configuration} :
    t.isAccepting c = true ↔ c.remaining = [] ∧ c.state ∈ t.finals := by
  simp [isAccepting, isFinal]

namespace Run

/-- What is pending, or has been visited. -/
def Known (run : Run) (c : Configuration) : Prop :=
  c ∈ run.pending ∨ c ∈ run.visited

/-- A visit to a configuration that was visited before does nothing. -/
theorem step_of_mem {c : Configuration} {pending : List Configuration}
    {visited : Std.HashSet Configuration} (h : c ∈ visited) :
    step t ⟨c :: pending, visited⟩ = .suspended ⟨pending, visited.insert c⟩ := by
  simp [step, h]

/-- A visit to a new configuration gives it if it is accepting, and puts what it leads to in front
of what is pending. -/
theorem step_of_notMem {c : Configuration} {pending : List Configuration}
    {visited : Std.HashSet Configuration} (h : c ∉ visited) :
    step t ⟨c :: pending, visited⟩ =
      if t.isAccepting c then
        .output c ⟨(t.successors c).reverse ++ pending, visited.insert c⟩
      else .suspended ⟨(t.successors c).reverse ++ pending, visited.insert c⟩ := by
  simp [step, h]

/-! ## The invariant -/

/-- The invariant of a run that has given the configurations `given` so far. -/
structure Sound (t : Transducer) (input : Word) (given : List Configuration) (run : Run) :
    Prop where
  /-- The run started where the computations start. -/
  initial : run.Known ⟨t.initial, input, []⟩
  /-- What is known can be reached. -/
  reaches : ∀ c, run.Known c → t.Reaches input c
  /-- What a visited configuration leads to is known. -/
  closed : ∀ c ∈ run.visited, ∀ d, t.Moves c d → run.Known d
  /-- The accepting configurations that were visited have been given. -/
  mem_given_iff : ∀ c, c ∈ given ↔ c ∈ run.visited ∧ t.isAccepting c = true
  /-- Nothing has been given twice. -/
  nodup : given.Nodup

/-- A run that has not begun has given nothing. -/
theorem sound_start (t : Transducer) (input : Word) : (start t input).Sound t input [] where
  initial := .inl List.mem_cons_self
  reaches c hc := by
    rcases hc with hc | hc
    · rw [List.mem_singleton.1 hc]
      exact .refl
    · exact absurd hc Std.HashSet.not_mem_empty
  closed c hc := absurd hc Std.HashSet.not_mem_empty
  mem_given_iff c := by simp [start]
  nodup := .nil

end Run

/-- What asking for more has to do after `given`: an end leaves out nothing that can be reached,
and a run that goes on keeps the invariant. -/
def Progress.Faithful (t : Transducer) (input : Word) (given : List Configuration) :
    Progress → Prop
  | .exhausted => ∀ c, t.Reaches input c → t.isAccepting c = true → c ∈ given
  | .output c later => later.Sound t input (given ++ [c])
  | .suspended later => later.Sound t input given

namespace Run

variable {given : List Configuration} {run : Run}

/-- When nothing is pending, everything that can be reached has been visited. -/
theorem Sound.mem_visited (h : run.Sound t input given) (hpending : run.pending = [])
    {c : Configuration} (hc : t.Reaches input c) : c ∈ run.visited := by
  have hvisited {d : Configuration} (hd : run.Known d) : d ∈ run.visited := by
    rcases hd with hd | hd
    · rw [hpending] at hd
      cases hd
    · exact hd
  induction hc with
  | refl => exact hvisited h.initial
  | tail _ hmove ih => exact hvisited (h.closed _ ih _ hmove)

/-- The configuration that is visited stays known, and what it leads to becomes known. -/
theorem known_visit_iff {c d : Configuration} {more pending : List Configuration}
    {visited : Std.HashSet Configuration} :
    Known ⟨more ++ pending, visited.insert c⟩ d ↔
      d ∈ more ∨ Known ⟨c :: pending, visited⟩ d := by
  simp only [Known, List.mem_append, List.mem_cons, Std.HashSet.mem_insert, beq_iff_eq]
  grind

/-- A visit keeps the invariant, when it leaves pending what the configuration leads to and adds
the configuration to what was given if it is accepting. -/
theorem Sound.visit {c : Configuration} {more pending given' : List Configuration}
    {visited : Std.HashSet Configuration} (h : Sound t input given ⟨c :: pending, visited⟩)
    (hmore : ∀ d ∈ more, t.Moves c d) (hall : c ∉ visited → ∀ d, t.Moves c d → d ∈ more)
    (hgiven : ∀ d, d ∈ given' ↔ d ∈ given ∨ d = c ∧ t.isAccepting c = true)
    (hnodup : given'.Nodup) : Sound t input given' ⟨more ++ pending, visited.insert c⟩ where
  initial := known_visit_iff.2 (.inr h.initial)
  reaches d hd := by
    rcases known_visit_iff.1 hd with hd | hd
    · have hc : t.Reaches input c := h.reaches c (.inl List.mem_cons_self)
      exact hc.tail (hmore d hd)
    · exact h.reaches d hd
  closed d hd e hmove := by
    rw [known_visit_iff]
    by_cases hold : d ∈ visited
    · exact .inr (h.closed d hold e hmove)
    · have hdc : c = d := by simpa [hold] using hd
      subst hdc
      exact .inl (hall hold e hmove)
  mem_given_iff d := by
    have hd := h.mem_given_iff d
    simp only [Std.HashSet.mem_insert, beq_iff_eq]
    grind
  nodup := hnodup

/-- A step keeps the invariant. -/
theorem Sound.step (h : run.Sound t input given) : (run.step t).Faithful t input given := by
  obtain ⟨pending, visited⟩ := run
  cases pending with
  | nil =>
    intro c hc haccepting
    exact (h.mem_given_iff c).2 ⟨h.mem_visited rfl hc, haccepting⟩
  | cons c pending =>
    have hc : c ∈ given ↔ c ∈ visited ∧ t.isAccepting c = true := h.mem_given_iff c
    have hsuccessors : ∀ d ∈ (t.successors c).reverse, t.Moves c d := by
      intro d hd
      exact mem_successors_iff.1 (List.mem_reverse.1 hd)
    have hall : c ∉ visited → ∀ d, t.Moves c d → d ∈ (t.successors c).reverse := by
      intro _ d hd
      exact List.mem_reverse.2 (mem_successors_iff.2 hd)
    by_cases hmem : c ∈ visited
    · rw [step_of_mem hmem]
      have hvisit : Sound t input given ⟨[] ++ pending, visited.insert c⟩ := by
        refine h.visit (by simp) (absurd hmem) (fun d => ?_) h.nodup
        grind
      exact hvisit
    · rw [step_of_notMem hmem]
      by_cases haccepting : t.isAccepting c = true
      · rw [if_pos haccepting]
        refine h.visit hsuccessors hall (fun d => by simp [haccepting]) ?_
        refine h.nodup.append (List.nodup_singleton c) ?_
        simp [hc, hmem]
      · rw [if_neg haccepting]
        exact h.visit hsuccessors hall (fun d => by simp [haccepting]) h.nodup

/-- A call keeps the invariant. -/
theorem Sound.next (h : run.Sound t input given) (budget : Nat) :
    (run.next t budget).Faithful t input given := by
  induction budget generalizing run with
  | zero => exact h
  | succ budget ih =>
    have hstep := h.step
    rw [Run.next]
    cases hrun : run.step t with
    | suspended later =>
      rw [hrun] at hstep
      exact ih hstep
    | exhausted | output c later =>
      rw [hrun] at hstep
      exact hstep

/-- A call that comes to a new accepting configuration gives it. -/
theorem next_of_accepting {c : Configuration} (pending : List Configuration)
    {visited : Std.HashSet Configuration} (hc : c ∉ visited) (haccepting : t.isAccepting c = true)
    (budget : Nat) : next t (budget + 1) ⟨c :: pending, visited⟩ =
      .output c ⟨(t.successors c).reverse ++ pending, visited.insert c⟩ := by
  rw [next, step_of_notMem hc, if_pos haccepting]

/-- Asked again and again, each time with as many visits as it takes, the run gives the
configurations in this order and is then `last`. -/
inductive Gives (t : Transducer) : Run → List Configuration → Run → Prop
  | nil (run : Run) : Gives t run [] run
  | cons {run later last : Run} {budget : Nat} {c : Configuration}
      {outputs : List Configuration} : run.next t budget = .output c later →
      Gives t later outputs last → Gives t run (c :: outputs) last

/-- Calls keep the invariant, however many. -/
theorem Sound.of_gives {outputs : List Configuration} {last : Run}
    (h : run.Sound t input given) (hgives : run.Gives t outputs last) :
    last.Sound t input (given ++ outputs) := by
  induction hgives generalizing given with
  | nil run => rwa [List.append_nil]
  | @cons _ _ _ budget _ _ hnext _ ih =>
    have hlater := h.next budget
    rw [hnext] at hlater
    have hlast := ih hlater
    rwa [List.append_assoc] at hlast

/-- What was given are the outputs of the transducer, no pair of state and output twice. -/
theorem Sound.yields (h : run.Sound t input given) :
    (given.map fun c => (c.state, c.output)).Nodup ∧
      ∀ answer ∈ given.map fun c => (c.state, c.output), t.Yields input answer.2 answer.1 := by
  have haccepting : ∀ c ∈ given, c.remaining = [] ∧ c.state ∈ t.finals := by
    intro c hc
    exact isAccepting_iff.1 ((h.mem_given_iff c).1 hc).2
  refine ⟨h.nodup.map_on ?_, ?_⟩
  · -- Nothing is left to read in either configuration.
    intro c hc d hd heq
    obtain ⟨cstate, cremaining, coutput⟩ := c
    obtain ⟨dstate, dremaining, doutput⟩ := d
    have hcr : cremaining = [] := (haccepting _ hc).1
    have hdr : dremaining = [] := (haccepting _ hd).1
    simp_all
  · intro answer hanswer
    obtain ⟨⟨state, remaining, output⟩, hc, rfl⟩ := List.mem_map.1 hanswer
    obtain ⟨hremaining, hstate⟩ := haccepting _ hc
    obtain rfl : remaining = [] := hremaining
    exact ⟨hstate, h.reaches _ (.inr ((h.mem_given_iff _).1 hc).1)⟩

end Run

/-- How often a second component occurs in a list of different pairs is how many first components
it occurs with. -/
theorem count_snd_eq_ncard {α β : Type} [DecidableEq α] [BEq β] [LawfulBEq β]
    {pairs : List (α × β)} (h : pairs.Nodup) (b : β) :
    (pairs.map Prod.snd).count b = {a | (a, b) ∈ pairs}.ncard := by
  have hset : {a | (a, b) ∈ pairs} = ((pairs.filter (·.2 == b)).map Prod.fst).toFinset := by
    ext a
    simp
  have hnodup : ((pairs.filter (·.2 == b)).map Prod.fst).Nodup := by
    refine (h.filter _).map_on ?_
    intro p hp q hq hfst
    have hp2 : p.2 = b := by simpa using (List.mem_filter.1 hp).2
    have hq2 : q.2 = b := by simpa using (List.mem_filter.1 hq).2
    exact Prod.ext hfst (hp2.trans hq2.symm)
  rw [hset, Set.ncard_coe_finset, List.toFinset_card_of_nodup hnodup, List.length_map,
    ← List.countP_eq_length_filter, List.count, List.countP_map]
  rfl

/-- **A run enumerates the accepting computations.** However often a run was asked, it has given
pairs of a final state and an output that a computation ends with, and none of them twice. Once it
is exhausted it has given each of them exactly once, so that an output was repeated as often as
there are final states to end in with it. -/
theorem gives_enumerates_answers (hbuild : build transitions initial finals = .ok t)
    (cap : Option Nat) (input : Word) {outputs : List Configuration} {last : Run}
    (hgives : (Run.start (t.withCap cap) input).Gives (t.withCap cap) outputs last) :
    (outputs.map fun c => (c.state, c.output)).Nodup ∧
      (∀ answer ∈ outputs.map fun c => (c.state, c.output),
        answer ∈ Transition.answers transitions initial finals cap input) ∧
      ∀ budget, last.next (t.withCap cap) budget = .exhausted →
        (∀ answer ∈ Transition.answers transitions initial finals cap input,
          (outputs.map fun c => (c.state, c.output)).count answer = 1) ∧
        ∀ output, (outputs.map (·.output)).count output =
          {state | (state, output) ∈
            Transition.answers transitions initial finals cap input}.ncard := by
  have hsound : last.Sound (t.withCap cap) input outputs := (Run.sound_start _ _).of_gives hgives
  obtain ⟨hnodup, hyields⟩ := hsound.yields
  have hgiven : ∀ answer ∈ outputs.map fun c => (c.state, c.output),
      answer ∈ Transition.answers transitions initial finals cap input := by
    intro answer hanswer
    exact (yields_iff_of_build hbuild cap).1 (hyields answer hanswer)
  refine ⟨hnodup, hgiven, fun budget hexhausted => ?_⟩
  have hend := hsound.next budget
  rw [hexhausted] at hend
  -- The configuration of an answer is accepting, so it was given before the end.
  have hanswers : ∀ answer ∈ Transition.answers transitions initial finals cap input,
      answer ∈ outputs.map fun c => (c.state, c.output) := by
    rintro ⟨state, output⟩ hanswer
    obtain ⟨hstate, hreaches⟩ := (yields_iff_of_build hbuild cap).2 hanswer
    exact List.mem_map.2 ⟨_, hend _ hreaches (isAccepting_iff.2 ⟨rfl, hstate⟩), rfl⟩
  refine ⟨fun answer hanswer => ?_, fun output => ?_⟩
  · exact List.count_eq_one_of_mem hnodup (hanswers answer hanswer)
  · have hset : {state | (state, output) ∈
        Transition.answers transitions initial finals cap input} =
        {state | (state, output) ∈ outputs.map fun c => (c.state, c.output)} :=
      Set.ext fun state => ⟨hanswers _, hgiven _⟩
    rw [hset, ← count_snd_eq_ncard hnodup, List.map_map]
    rfl

/-- A loop that reads nothing is cut short by the cap, and `x` is written on the way to two final
states. -/
theorem gives_x_for_two_states : ∃ t last,
    build [⟨['s'], [], ['f'], ['x']⟩, ⟨['s'], [], ['s'], ['x']⟩] ['s'] [['s'], ['f']] = .ok t ∧
    (Run.start (t.withCap (some 1)) []).Gives (t.withCap (some 1))
      [⟨['s'], [], []⟩, ⟨['s'], [], ['x']⟩, ⟨['f'], [], ['x']⟩] last ∧
    last.next (t.withCap (some 1)) 1 = .exhausted ∧
    {state | (state, ['x']) ∈ Transition.answers
      [⟨['s'], [], ['f'], ['x']⟩, ⟨['s'], [], ['s'], ['x']⟩] ['s'] [['s'], ['f']] (some 1)
      []}.ncard = 2 := by
  obtain ⟨t, hbuild, hfirst, hloop, hend, haccepting⟩ : ∃ t,
      build [⟨['s'], [], ['f'], ['x']⟩, ⟨['s'], [], ['s'], ['x']⟩] ['s'] [['s'], ['f']] = .ok t ∧
      (t.withCap (some 1)).successors ⟨['s'], [], []⟩ =
        [⟨['f'], [], ['x']⟩, ⟨['s'], [], ['x']⟩] ∧
      (t.withCap (some 1)).successors ⟨['s'], [], ['x']⟩ = [] ∧
      (t.withCap (some 1)).successors ⟨['f'], [], ['x']⟩ = [] ∧
      ∀ c ∈ [⟨['s'], [], []⟩, ⟨['s'], [], ['x']⟩, ⟨['f'], [], ['x']⟩],
        (t.withCap (some 1)).isAccepting c = true :=
    ⟨_, rfl, by decide, by decide, by decide, by decide⟩
  -- The three visits, each to a new configuration.
  have hs := Run.next_of_accepting [] Std.HashSet.not_mem_empty
    (haccepting ⟨['s'], [], []⟩ (by simp)) 0
  rw [hfirst] at hs
  have hsx : ⟨['s'], [], ['x']⟩ ∉ (∅ : Std.HashSet Configuration).insert ⟨['s'], [], []⟩ := by
    simp
  have hsx := Run.next_of_accepting [⟨['f'], [], ['x']⟩] hsx (haccepting _ (by simp)) 0
  rw [hloop] at hsx
  have hfx : ⟨['f'], [], ['x']⟩ ∉
      ((∅ : Std.HashSet Configuration).insert ⟨['s'], [], []⟩).insert ⟨['s'], [], ['x']⟩ := by
    simp
  have hfx := Run.next_of_accepting [] hfx (haccepting _ (by simp)) 0
  rw [hend] at hfx
  have hstart : Run.start (t.withCap (some 1)) [] = ⟨[⟨['s'], [], []⟩], ∅⟩ := by
    have hinitial : (t.withCap (some 1)).initial = ['s'] := (of_build_eq_ok hbuild).2.1
    rw [Run.start, hinitial]
  have hgives := Run.Gives.cons hs (.cons hsx (.cons hfx (.nil _)))
  rw [← hstart] at hgives
  obtain ⟨-, -, hexhausted⟩ := gives_enumerates_answers hbuild (some 1) [] hgives
  refine ⟨t, _, hbuild, hgives, rfl, ?_⟩
  rw [← (hexhausted 1 rfl).2 ['x']]
  rfl

end Transducer

end StringMachines
