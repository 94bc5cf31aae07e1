import StringMachines.Proofs.Erasing.Places
import StringMachines.Proofs.Search.Turns

/-!
# An open state, suspended between two erasures

The erasures of a state need not be listed before they are tried. It is enough to keep a cursor: the
candidates that are not chosen yet, and of the string being tried the places that are left and the
tape that it has left last (`ErasingSystem.Cursor`). The next erasure is found when it is asked for
(`Cursor.next`), and it is the first of the erasures that are still to come
(`Cursor.rest_eq_of_next`). So the erasures that a cursor gives, asked until there are no more, are
from the beginning of a state the erasures of that state (`Cursor.collect_start`), in their order.

Therefore a search can keep cursors on its stack in place of lists of erasures. A cursor stands for
the frame that holds what is still to come, a state is opened with the cursor at its beginning
(`Cursor.frame_of_arrive`), and a turn of the search asks the innermost cursor for its next erasure
and keeps it behind that erasure (`Cursor.next_frame`). After every turn of a search there are
cursors on its stack (`Cursor.exists_cursors_of_turns`).
-/

namespace StringMachines.ErasingSystem

/-- The string that is being tried in a state: the places where it has not been tried yet, and the
tape that is left by its last erasure, if there was one. -/
structure Current where
  string : Word
  places : List Nat
  last? : Option Word

/-- An open state with the candidates that are not chosen yet and the string being tried. -/
structure Cursor where
  state : ErasingState
  candidates : List (Candidate Word)
  current? : Option Current

namespace Cursor

/-- The cursor of a state in which nothing has been tried. -/
def start (system : ErasingSystem) (settings : Settings) (s : ErasingState) : Cursor where
  state := s
  candidates := system.candidates settings.quantifier s
  current? := none

/-- The next erasure, and the cursor behind it. The string being tried goes on to its next place; a
place is passed over that leaves the same tape as the last erasure. When no place is left, the best
of the other candidates is chosen. -/
def next (settings : Settings) (cursor : Cursor) : Option (Erasure × Cursor) :=
  match cursor with
  | ⟨s, candidates, none⟩ =>
    match Candidate.choose? settings.quantifier candidates with
    | none => none
    | some i =>
      if hi : i < candidates.length then
        let string := candidates[i].value
        next settings ⟨s, candidates.eraseIdx i,
          some ⟨string, settings.positions.select (string.placesIn s.tape), none⟩⟩
      else none
  | ⟨s, candidates, some ⟨_, [], _⟩⟩ => next settings ⟨s, candidates, none⟩
  | ⟨s, candidates, some ⟨string, place :: places, last?⟩⟩ =>
    let tape := s.tape.removeAt place string.length
    if last? = some tape then next settings ⟨s, candidates, some ⟨string, places, last?⟩⟩
    else some (⟨string, place⟩, ⟨s, candidates, some ⟨string, places, some tape⟩⟩)
termination_by (cursor.candidates.length, cursor.current?.elim 0 (·.places.length + 1))
decreasing_by
  · refine Prod.Lex.left _ _ ?_
    rw [List.length_eraseIdx, if_pos hi]
    omega
  · exact Prod.Lex.right _ Nat.zero_lt_one
  · exact Prod.Lex.right _ (Nat.lt_succ_self _)

/-- The erasures still to come: the string being tried at the places left to it, and then the other
candidates as they rank. -/
def rest (settings : Settings) (cursor : Cursor) : List Erasure :=
  (cursor.current?.elim [] fun current =>
    (cursor.state.tape.freshPlaces current.string.length current.last? current.places).map
      (⟨current.string, ·⟩)) ++
  (Candidate.ranked settings.quantifier cursor.candidates).flatMap fun c =>
    (positions settings.positions c.value cursor.state.tape).map (⟨c.value, ·⟩)

variable {settings : Settings}

/-- The next erasure is the first of those still to come, and the cursor behind it has the others
still to come. -/
theorem rest_eq_of_next (settings : Settings) (cursor : Cursor) :
    cursor.rest settings =
      match cursor.next settings with
      | none => []
      | some (x, later) => x :: later.rest settings := by
  fun_induction next settings cursor with
  | case1 s candidates hchoose =>
    rw [rest, Candidate.ranked, hchoose]
    rfl
  | case2 s candidates i hchoose hi string ih =>
    rw [← ih, rest, Candidate.ranked, hchoose]
    simp only [dif_pos hi]
    rw [List.flatMap_cons, positions_eq_freshPlaces]
    rfl
  | case3 s candidates i hchoose hi =>
    rw [rest, Candidate.ranked, hchoose]
    simp only [dif_neg hi]
    rfl
  | case4 s candidates string last? ih =>
    rw [← ih]
    rfl
  | case5 s candidates string place places tape ih =>
    rw [← ih, rest, rest]
    simp only [Option.elim_some, Word.freshPlaces]
    rw [if_pos rfl]
  | case6 s candidates string place places last? tape hlast =>
    simp only [rest, Option.elim_some, Word.freshPlaces]
    rw [if_neg hlast]
    rfl

/-- All erasures that the cursor gives, one after another. -/
def collect (settings : Settings) (cursor : Cursor) : List Erasure :=
  match _h : cursor.next settings with
  | none => []
  | some (x, later) => x :: later.collect settings
termination_by (cursor.rest settings).length
decreasing_by
  have hrest := cursor.rest_eq_of_next settings
  rw [‹cursor.next settings = _›] at hrest
  rw [hrest]
  exact Nat.lt_succ_self _

/-- The cursor gives what is still to come. -/
theorem collect_eq_rest (settings : Settings) (cursor : Cursor) :
    cursor.collect settings = cursor.rest settings := by
  fun_induction collect settings cursor with
  | case1 cursor hnext => rw [rest_eq_of_next, hnext]
  | case2 cursor x later hnext ih => rw [rest_eq_of_next, hnext, ih]

/-- At the beginning of a state, all its erasures are still to come. -/
theorem rest_start (system : ErasingSystem) (settings : Settings) (s : ErasingState) :
    (start system settings s).rest settings = system.erasures settings s :=
  rfl

/-- **The erasures of a state are those that its cursor gives.** Asked for the next erasure until
there is none, the cursor at the beginning of a state gives the erasures that a run tries in that
state, in their order. -/
theorem collect_start (system : ErasingSystem) (settings : Settings) (s : ErasingState) :
    (start system settings s).collect settings = system.erasures settings s := by
  rw [collect_eq_rest, rest_start]

/-! ## Cursors on the stack of a search -/

/-- The frame that a cursor stands for. -/
def frame (settings : Settings) (cursor : Cursor) : Frame ErasingState Erasure :=
  ⟨cursor.state, cursor.rest settings⟩

/-- The cursor behind an erasure is in the same state. -/
theorem state_of_next {cursor later : Cursor} {x : Erasure}
    (h : cursor.next settings = some (x, later)) : later.state = cursor.state := by
  fun_induction next settings cursor with
  | case1 => cases h
  | case2 s candidates i hchoose hi string ih => exact ih h
  | case3 => cases h
  | case4 s candidates string last? ih => exact ih h
  | case5 s candidates string place places tape ih => exact ih h
  | case6 s candidates string place places last? tape hlast =>
    obtain ⟨-, rfl⟩ := Prod.mk.inj (Option.some.inj h)
    rfl

variable {system : ErasingSystem} {s : ErasingState} {rejected : Std.HashSet ErasingState}

/-- A state is opened with the cursor at its beginning. -/
theorem frame_of_arrive {opened : Frame ErasingState Erasure}
    (h : (system.space settings).arrive rejected s = .opened opened) :
    opened = (start system settings s).frame settings :=
  (SearchSpace.of_arrive_opened h).2.2

/-- A turn of a search asks the innermost cursor for its next erasure. When there is none the state
has failed; otherwise the cursor stays on the stack behind the erasure, below the state that the
erasure leads to when that state is opened. -/
theorem next_frame (cursor : Cursor) (stack : List (Frame ErasingState Erasure))
    (rejected : Std.HashSet ErasingState) (steps : List (ErasingState × Erasure)) :
    Search.next (system.space settings) ⟨cursor.frame settings :: stack, rejected, steps⟩ =
      match cursor.next settings with
      | none => .ongoing ⟨stack, rejected.insert cursor.state, steps⟩
      | some (x, later) =>
        match (system.space settings).arrive rejected (cursor.state.erase x) with
        | .decided true => .done ⟨true, ((cursor.state, x) :: steps).reverse⟩
        | .decided false =>
          .ongoing ⟨later.frame settings :: stack, rejected, (cursor.state, x) :: steps⟩
        | .opened opened =>
          .ongoing ⟨opened :: later.frame settings :: stack, rejected,
            (cursor.state, x) :: steps⟩ := by
  rw [frame, rest_eq_of_next]
  cases hnext : cursor.next settings with
  | none => rfl
  | some found =>
    obtain ⟨x, later⟩ := found
    simp only [frame, state_of_next hnext]
    have happly : (system.space settings).apply cursor.state x = cursor.state.erase x := rfl
    rw [Search.next_move, happly]
    cases (system.space settings).arrive rejected (cursor.state.erase x) with
    | decided accepted =>
      cases accepted with
      | true => rfl
      | false => rfl
    | opened child => rfl

/-- A turn of a search with cursors on its stack leaves cursors on it. -/
theorem exists_cursors_of_next {search later : Search ErasingState Erasure}
    (hcursors : ∃ cursors : List Cursor, search.stack = cursors.map (frame settings))
    (h : search.next (system.space settings) = .ongoing later) :
    ∃ cursors : List Cursor, later.stack = cursors.map (frame settings) := by
  obtain ⟨stack, rejected, steps⟩ := search
  obtain ⟨cursors, rfl⟩ := hcursors
  cases cursors with
  | nil => cases h
  | cons cursor cursors =>
    rw [List.map_cons, next_frame] at h
    cases hnext : cursor.next settings with
    | none =>
      rw [hnext] at h
      cases h
      exact ⟨cursors, rfl⟩
    | some found =>
      obtain ⟨x, behind⟩ := found
      rw [hnext] at h
      dsimp only at h
      split at h
      · cases h
      · cases h
        exact ⟨behind :: cursors, rfl⟩
      · next opened harrive =>
        cases h
        rw [frame_of_arrive harrive]
        exact ⟨_ :: behind :: cursors, rfl⟩

/-- **The stack of a search is a stack of cursors.** Whatever state a search starts from, after any
number of turns its open states are suspended as cursors suspend them. -/
theorem exists_cursors_of_turns {n : Nat} {search : Search ErasingState Erasure}
    (h : (system.space settings).turns s n = .ongoing search) :
    ∃ cursors : List Cursor, search.stack = cursors.map (frame settings) := by
  refine SearchSpace.of_turns
    (P := fun search => ∃ cursors : List Cursor, search.stack = cursors.map (frame settings))
    (fun _ => ⟨[start system settings s], rfl⟩) ?_ h
  intro before later hcursors hnext
  exact exists_cursors_of_next hcursors hnext

end Cursor

end StringMachines.ErasingSystem
