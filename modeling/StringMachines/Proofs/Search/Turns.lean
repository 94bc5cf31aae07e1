import Mathlib.Data.List.Chain
import StringMachines.Proofs.Search.Recursion

/-!
# The turns of a search

A turn after which the search goes on does one of three things, which `Search.Goes` lists.
`SearchSpace.turns` is what a search has come to after a number of turns. It comes to the outcome of
the whole search (`SearchSpace.exists_turns_eq_done`), and what each turn keeps holds all the way
(`SearchSpace.of_turns`).

The stack is nested (`Search.Nested`): each open state is reached by a move of the one below it, the
lowest is the state that the search has started from, and the open states grow smaller to the top.
Hence a search never opens a state twice (`SearchSpace.opening?_injective`). The states that have
been opened are those that are open or have failed (`SearchSpace.knows_iff_exists_opening?`); one
that has failed is not opened again, and an open one is larger than all that the top of the stack
can lead to (`Search.Nested.not_knows_of_opening?`).
-/

namespace StringMachines

variable {σ ε : Type} {space : SearchSpace σ ε} {s t : σ}

/-! ## The stack -/

namespace Search

/-- The stack of a search from `s`: the states lie on each other as the moves have led to them. -/
structure Nested (space : SearchSpace σ ε) (s : σ) (stack : List (Frame σ ε)) : Prop where
  /-- The lowest open state is the one that the search has started from. -/
  lowest : ∀ frame ∈ stack.getLast?, frame.state = s
  /-- A move leads from each open state to the one above it. -/
  chain : stack.IsChain fun above below =>
    ∃ x ∈ space.moves below.state, above.state = space.apply below.state x
  /-- The open states are undecided. -/
  undecided : ∀ frame ∈ stack, space.verdict? frame.state = none
  /-- The moves that are pending in a state are moves of it. -/
  pending : ∀ frame ∈ stack, frame.pending ⊆ space.moves frame.state

/-- The state that a search starts from is nested on its own. -/
theorem nested_singleton (h : space.verdict? s = none) : Nested space s [⟨s, space.moves s⟩] where
  lowest frame hframe := by
    cases hframe
    rfl
  chain := List.isChain_singleton _
  undecided := List.forall_mem_singleton.2 h
  pending := List.forall_mem_singleton.2 (List.Subset.refl _)

/-- The stack is nested without its top. -/
theorem Nested.tail {frame : Frame σ ε} {stack : List (Frame σ ε)}
    (h : Nested space s (frame :: stack)) : Nested space s stack where
  lowest below hbelow := by
    cases stack with
    | nil => cases hbelow
    | cons below' stack => exact h.lowest below (by rwa [List.getLast?_cons_cons])
  chain := h.chain.tail
  undecided := (List.forall_mem_cons.1 h.undecided).2
  pending := (List.forall_mem_cons.1 h.pending).2

/-- Trying a move of the top leaves the stack nested. -/
theorem Nested.drop_pending {x : ε} {pending : List ε} {stack : List (Frame σ ε)}
    (h : Nested space s (⟨t, x :: pending⟩ :: stack)) : Nested space s (⟨t, pending⟩ :: stack) where
  lowest below hbelow := by
    cases stack with
    | nil =>
      cases hbelow
      exact h.lowest ⟨t, x :: pending⟩ rfl
    | cons below' stack =>
      rw [List.getLast?_cons_cons] at hbelow
      exact h.tail.lowest below hbelow
  chain := List.isChain_cons.2 (List.isChain_cons.1 h.chain)
  undecided := List.forall_mem_cons.2 (List.forall_mem_cons.1 h.undecided)
  pending := by
    obtain ⟨htop, hstack⟩ := List.forall_mem_cons.1 h.pending
    exact List.forall_mem_cons.2 ⟨fun y hy => htop (List.mem_cons_of_mem x hy), hstack⟩

/-- A state that a move of the top leads to can be opened on it. -/
theorem Nested.cons {x : ε} {pending : List ε} {stack : List (Frame σ ε)}
    (h : Nested space s (⟨t, pending⟩ :: stack)) (hx : x ∈ space.moves t)
    (hverdict : space.verdict? (space.apply t x) = none) :
    Nested space s
      (⟨space.apply t x, space.moves (space.apply t x)⟩ :: ⟨t, pending⟩ :: stack) where
  lowest := by
    rw [List.getLast?_cons_cons]
    exact h.lowest
  chain := List.isChain_cons_cons.2 ⟨⟨x, hx, rfl⟩, h.chain⟩
  undecided := List.forall_mem_cons.2 ⟨hverdict, h.undecided⟩
  pending := List.forall_mem_cons.2 ⟨List.Subset.refl _, h.pending⟩

/-- The open states grow smaller to the top. -/
theorem Nested.pairwise_size {stack : List (Frame σ ε)} (h : Nested space s stack) :
    stack.Pairwise fun above below => space.size above.state < space.size below.state := by
  have hsizes : (stack.map fun frame => space.size frame.state).IsChain (· < ·) := by
    rw [List.isChain_map]
    refine h.chain.imp ?_
    rintro above below ⟨x, hx, habove⟩
    rw [habove]
    exact space.size_apply_lt hx
  exact List.pairwise_map.1 hsizes.pairwise

/-- A stack has at most as many open states as the size goes down from the first to the last. -/
theorem Nested.length_add_size_le {top : Frame σ ε} {stack : List (Frame σ ε)}
    (h : Nested space s (top :: stack)) :
    stack.length + space.size top.state ≤ space.size s := by
  induction stack generalizing top with
  | nil =>
    rw [h.lowest top rfl]
    simp
  | cons below stack ih =>
    have hrest := ih h.tail
    have hlt := (List.pairwise_cons.1 h.pairwise_size).1 below List.mem_cons_self
    rw [List.length_cons]
    omega

end Search

/-! ## What a turn does -/

variable [BEq σ] [Hashable σ]

namespace Search

variable {search later : Search σ ε}

/-- The turns after which a search goes on. -/
inductive Goes (space : SearchSpace σ ε) : Search σ ε → Search σ ε → Prop
  /-- The innermost open state has no move left and has failed. -/
  | closes {s : σ} {stack : List (Frame σ ε)} {rejected : Std.HashSet σ} {steps : List (σ × ε)} :
      Goes space ⟨⟨s, []⟩ :: stack, rejected, steps⟩ ⟨stack, rejected.insert s, steps⟩
  /-- A move of it leads to a state that fails at once. -/
  | dismisses {s : σ} {x : ε} {pending : List ε} {stack : List (Frame σ ε)}
      {rejected : Std.HashSet σ} {steps : List (σ × ε)} :
      space.arrive rejected (space.apply s x) = .decided false →
      Goes space ⟨⟨s, x :: pending⟩ :: stack, rejected, steps⟩
        ⟨⟨s, pending⟩ :: stack, rejected, (s, x) :: steps⟩
  /-- A move of it leads to a state that is opened. -/
  | opens {s : σ} {x : ε} {pending : List ε} {stack : List (Frame σ ε)}
      {rejected : Std.HashSet σ} {steps : List (σ × ε)} {frame : Frame σ ε} :
      space.arrive rejected (space.apply s x) = .opened frame →
      Goes space ⟨⟨s, x :: pending⟩ :: stack, rejected, steps⟩
        ⟨frame :: ⟨s, pending⟩ :: stack, rejected, (s, x) :: steps⟩

/-- Every turn after which the search goes on is of one of the three kinds. -/
theorem goes_of_next (h : search.next space = .ongoing later) : Goes space search later := by
  obtain ⟨stack, rejected, steps⟩ := search
  match stack, h with
  | [], h => cases h
  | ⟨s, []⟩ :: stack, h =>
    cases h
    exact .closes
  | ⟨s, x :: pending⟩ :: stack, h =>
    rw [next_move] at h
    split at h
    · cases h
    · next harrive =>
      cases h
      exact .dismisses harrive
    · next frame harrive =>
      cases h
      exact .opens harrive

/-- Every turn leaves the stack nested. -/
theorem Nested.goes (h : Nested space s search.stack) (hgoes : Goes space search later) :
    Nested space s later.stack := by
  cases hgoes with
  | closes => exact h.tail
  | dismisses _ => exact h.drop_pending
  | @opens t x pending stack _ _ frame harrive =>
    obtain ⟨hverdict, -, rfl⟩ := SearchSpace.of_arrive_opened harrive
    have hx : x ∈ space.moves t := (List.forall_mem_cons.1 h.pending).1 List.mem_cons_self
    exact h.drop_pending.cons hx hverdict

/-- The state that the next turn opens, if it opens one. -/
def opening? (space : SearchSpace σ ε) (search : Search σ ε) : Option σ :=
  match search.stack with
  | ⟨s, x :: _⟩ :: _ =>
    match space.arrive search.rejected (space.apply s x) with
    | .opened frame => some frame.state
    | .decided _ => none
  | _ => none

/-- A turn opens the state that a move of the top leads to, unless it is known to fail. -/
theorem of_opening? (h : search.opening? space = some t) :
    ∃ s x pending stack, search.stack = ⟨s, x :: pending⟩ :: stack ∧ t = space.apply s x ∧
      t ∉ search.rejected := by
  rw [opening?] at h
  split at h
  · next s x pending stack hstack =>
    split at h
    · next frame harrive =>
      obtain ⟨-, hmem, rfl⟩ := SearchSpace.of_arrive_opened harrive
      cases h
      exact ⟨s, x, pending, stack, hstack, rfl, hmem⟩
    · cases h
  · cases h

/-- The state is open or has failed. -/
def Knows (search : Search σ ε) (t : σ) : Prop :=
  t ∈ search.stack.map (·.state) ∨ t ∈ search.rejected

/-- A state that a turn opens is smaller than all open states, and so it is not one of them. -/
theorem Nested.not_knows_of_opening? (hnested : Nested space s search.stack)
    (h : search.opening? space = some t) : ¬ search.Knows t := by
  obtain ⟨top, x, pending, stack, hstack, rfl, hmem⟩ := of_opening? h
  rw [hstack] at hnested
  have hx : x ∈ space.moves top :=
    (List.forall_mem_cons.1 hnested.pending).1 List.mem_cons_self
  have hlt := space.size_apply_lt hx
  rw [Knows, hstack, List.map_cons, List.mem_cons]
  rintro ((htop | hbelow) | hrejected)
  · rw [htop] at hlt
    exact Nat.lt_irrefl _ hlt
  · obtain ⟨frame, hframe, hstate⟩ := List.mem_map.1 hbelow
    have hsize := (List.pairwise_cons.1 hnested.pairwise_size).1 frame hframe
    rw [hstate] at hsize
    exact Nat.lt_asymm hlt hsize
  · exact hmem hrejected

/-- After a turn those states are open or have failed that were so before, and the state that the
turn has opened. -/
theorem Goes.knows_iff [LawfulBEq σ] (h : Goes space search later) :
    later.Knows t ↔ search.Knows t ∨ search.opening? space = some t := by
  cases h with
  | @closes s stack rejected steps =>
    have hnone : opening? space ⟨⟨s, []⟩ :: stack, rejected, steps⟩ = none := rfl
    rw [hnone, Knows, Knows, List.map_cons, List.mem_cons, Std.HashSet.mem_insert, beq_iff_eq,
      eq_comm]
    tauto
  | dismisses harrive => simp [Knows, opening?, harrive]
  | opens harrive =>
    rw [opening?, Knows, Knows, List.map_cons, List.mem_cons]
    simp only [harrive, Option.some.injEq]
    tauto

end Search

/-! ## Turns -/

namespace SearchSpace

/-- What the search from `s` has come to after `n` turns. -/
def turns (space : SearchSpace σ ε) (s : σ) : Nat → Turn σ ε
  | 0 =>
    match space.arrive ∅ s with
    | .decided accepted => .done ⟨accepted, []⟩
    | .opened frame => .ongoing ⟨[frame], ∅, []⟩
  | n + 1 =>
    match space.turns s n with
    | .done outcome => .done outcome
    | .ongoing search => search.next space

/-- The state that is opened in the `n`-th turn, if one is. The state that the search starts from is
opened before the first turn. -/
def opening? (space : SearchSpace σ ε) (s : σ) : Nat → Option σ
  | 0 =>
    match space.arrive ∅ s with
    | .opened frame => some frame.state
    | .decided _ => none
  | n + 1 =>
    match space.turns s n with
    | .ongoing search => search.opening? space
    | .done _ => none

variable {n : Nat} {search : Search σ ε}

/-- Before the first turn a search is under way when the state it starts from has been opened. -/
theorem of_turns_zero (h : space.turns s 0 = .ongoing search) :
    space.arrive ∅ s = .opened ⟨s, space.moves s⟩ ∧ space.verdict? s = none ∧
      search = ⟨[⟨s, space.moves s⟩], ∅, []⟩ := by
  rw [turns] at h
  split at h
  · cases h
  · next frame harrive =>
    obtain ⟨hverdict, -, rfl⟩ := of_arrive_opened harrive
    cases h
    exact ⟨harrive, hverdict, rfl⟩

/-- While a search is under way it takes another turn. -/
theorem turns_succ (h : space.turns s n = .ongoing search) :
    space.turns s (n + 1) = search.next space := by
  rw [turns, h]

/-- A search that is under way after a turn was so before it. -/
theorem of_turns_succ {later : Search σ ε} (h : space.turns s (n + 1) = .ongoing later) :
    ∃ search, space.turns s n = .ongoing search ∧ search.next space = .ongoing later := by
  rw [turns] at h
  split at h
  · cases h
  · next search hturns => exact ⟨search, hturns, h⟩

/-- From wherever a search has come to, its turns come to its outcome. -/
theorem exists_turns_eq_run (h : space.turns s n = .ongoing search) :
    ∃ m, space.turns s m = .done (search.run space) := by
  fun_induction Search.run space search generalizing n with
  | case1 search outcome hnext => exact ⟨n + 1, (turns_succ h).trans hnext⟩
  | case2 search later hnext ih => exact ih ((turns_succ h).trans hnext)

/-- The turns of a search come to its outcome. -/
theorem exists_turns_eq_done (space : SearchSpace σ ε) (s : σ) :
    ∃ n, space.turns s n = .done (space.explore s) := by
  rw [explore]
  cases harrive : space.arrive ∅ s with
  | decided accepted => exact ⟨0, by rw [turns, harrive]⟩
  | opened frame =>
    have hstart : space.turns s 0 = .ongoing ⟨[frame], ∅, []⟩ := by rw [turns, harrive]
    exact exists_turns_eq_run hstart

/-- What holds of a search with its first state opened, and is kept by every turn, holds after all
turns. -/
theorem of_turns {P : Search σ ε → Prop}
    (hstart : space.verdict? s = none → P ⟨[⟨s, space.moves s⟩], ∅, []⟩)
    (hnext : ∀ search later, P search → search.next space = .ongoing later → P later)
    (h : space.turns s n = .ongoing search) : P search := by
  induction n generalizing search with
  | zero =>
    obtain ⟨-, hverdict, rfl⟩ := of_turns_zero h
    exact hstart hverdict
  | succ n ih =>
    obtain ⟨before, hbefore, hlater⟩ := of_turns_succ h
    exact hnext before search (ih hbefore) hlater

/-- The stack of a search is nested after every turn. -/
theorem nested_of_turns (h : space.turns s n = .ongoing search) :
    Search.Nested space s search.stack := by
  refine of_turns (P := fun search => Search.Nested space s search.stack) ?_ ?_ h
  · exact Search.nested_singleton
  · intro before later hnested hnext
    exact hnested.goes (Search.goes_of_next hnext)

variable [LawfulBEq σ]

/-- A search keeps its invariant after every turn. -/
theorem sound_of_turns (h : space.turns s n = .ongoing search) : search.Sound space := by
  refine of_turns (P := Search.Sound space) ?_ ?_ h
  · exact Search.sound_start
  · intro before later hsound hnext
    have hturn := hsound.next
    rw [hnext] at hturn
    exact hturn.1

/-- After every turn, the states that are open or have failed are those that have been opened. -/
theorem knows_iff_exists_opening? (h : space.turns s n = .ongoing search) :
    search.Knows t ↔ ∃ m ≤ n, space.opening? s m = some t := by
  induction n generalizing search with
  | zero =>
    obtain ⟨harrive, -, rfl⟩ := of_turns_zero h
    simp [Search.Knows, opening?, harrive, eq_comm]
  | succ n ih =>
    obtain ⟨before, hbefore, hnext⟩ := of_turns_succ h
    have hopening : space.opening? s (n + 1) = before.opening? space := by
      rw [opening?, hbefore]
    rw [(Search.goes_of_next hnext).knows_iff, ih hbefore, ← hopening]
    simp only [Nat.le_succ_iff, or_and_right, exists_or, exists_eq_left]

/-- A state that has been opened in one turn is not opened in a later one. -/
theorem opening?_ne_of_lt {m : Nat} (hlt : m < n) (hm : space.opening? s m = some t) :
    space.opening? s n ≠ some t := by
  intro hn
  obtain ⟨n, rfl⟩ := Nat.exists_eq_succ_of_ne_zero (Nat.ne_zero_of_lt hlt)
  rw [opening?] at hn
  split at hn
  · next search hturns =>
    have hknows := (knows_iff_exists_opening? hturns).2 ⟨m, Nat.le_of_lt_succ hlt, hm⟩
    exact (nested_of_turns hturns).not_knows_of_opening? hn hknows
  · cases hn

/-- No state is opened in two turns. -/
theorem opening?_injective {m : Nat} (hm : space.opening? s m = some t)
    (hn : space.opening? s n = some t) : m = n := by
  rcases Nat.lt_trichotomy m n with hlt | heq | hlt
  · exact absurd hn (opening?_ne_of_lt hlt hm)
  · exact heq
  · exact absurd hm (opening?_ne_of_lt hlt hn)

end SearchSpace

end StringMachines
