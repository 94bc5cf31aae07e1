import Mathlib.Logic.Relation
import StringMachines.Erasing.Run
import StringMachines.Pattern.Language

/-!
# Derivations of an erasing system

What an erasing system accepts, without reference to how a run searches for it. An erasure takes
an erasing string out of the tape and puts it at the end of the trace; a derivation is a sequence
of erasures. An input is derivable when a derivation empties the tape and leaves a trace in the
language of the pattern.
-/

namespace StringMachines

/-- One erasure of a string of the list: at any occurrence, or only at the leftmost one. -/
inductive Erases (strings : List Word) : PositionMode → ErasingState → ErasingState → Prop
  /-- The string is taken out anywhere. -/
  | anywhere {e u v trace : Word} : e ∈ strings →
      Erases strings .all ⟨u ++ e ++ v, trace⟩ ⟨u ++ v, trace ++ e⟩
  /-- The string is taken out at a place such that it does not occur further left. -/
  | leftmost {e u v trace : Word} : e ∈ strings →
      (∀ u' v', u ++ e ++ v = u' ++ e ++ v' → u.length ≤ u'.length) →
      Erases strings .first ⟨u ++ e ++ v, trace⟩ ⟨u ++ v, trace ++ e⟩

/-- A sequence of erasures. -/
def Derives (strings : List Word) (mode : PositionMode) : ErasingState → ErasingState → Prop :=
  Relation.ReflTransGen (Erases strings mode)

/-- A state from which a derivation empties the tape with a trace of the pattern's language. -/
def ErasingSystem.Derivable (system : ErasingSystem) (mode : PositionMode) (s : ErasingState) :
    Prop :=
  ∃ trace ∈ Pattern.language system.pattern.tokens, Derives system.strings mode s ⟨[], trace⟩

/-- An erasure in either mode is an erasure at some place. -/
theorem Erases.all {strings : List Word} {mode : PositionMode} {s s' : ErasingState}
    (h : Erases strings mode s s') : Erases strings .all s s' := by
  cases h with
  | anywhere he => exact .anywhere he
  | leftmost he _ => exact .anywhere he

/-- What can be derived with leftmost erasures can be derived. -/
theorem ErasingSystem.Derivable.all_of_first {system : ErasingSystem} {s : ErasingState}
    (h : system.Derivable .first s) : system.Derivable .all s := by
  obtain ⟨trace, hmem, hder⟩ := h
  exact ⟨trace, hmem, Relation.ReflTransGen.mono (fun _ _ => Erases.all) _ _ hder⟩

/-- An erasure moves characters from the tape to the trace. -/
theorem Erases.perm {strings : List Word} {mode : PositionMode} {s s' : ErasingState}
    (h : Erases strings mode s s') : (s'.tape ++ s'.trace).Perm (s.tape ++ s.trace) := by
  have hmoved (u e v trace : Word) : (u ++ v ++ (trace ++ e)).Perm (u ++ e ++ v ++ trace) := by
    refine List.perm_iff_count.2 fun c => ?_
    simp only [List.count_append]
    omega
  cases h with
  | anywhere _ => exact hmoved _ _ _ _
  | leftmost _ _ => exact hmoved _ _ _ _

/-- A derivation moves characters from the tape to the trace. -/
theorem Derives.perm {strings : List Word} {mode : PositionMode} {s s' : ErasingState}
    (h : Derives strings mode s s') : (s'.tape ++ s'.trace).Perm (s.tape ++ s.trace) := by
  induction h with
  | refl => exact List.Perm.refl _
  | tail _ hstep ih => exact hstep.perm.trans ih

end StringMachines
