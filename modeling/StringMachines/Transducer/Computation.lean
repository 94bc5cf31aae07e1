import Mathlib.Logic.Relation
import StringMachines.Transducer.Run

/-!
# Computations of a transducer

What a transducer can do with an input, without reference to how a run searches for it. A
configuration leads to another by a transition that reads the beginning of what is left; one that
reads nothing may be taken only while the output is shorter than the cap. `mem_successors_iff`
says that these are the configurations a run goes on to.
-/

namespace StringMachines

/-- One transition of a computation. -/
inductive Transducer.Moves (t : Transducer) : Configuration → Configuration → Prop
  | move {state read rest output : Word} {targets : List Target} {target : Target} :
      (read, targets) ∈ t.movesFrom state → target ∈ targets →
      (read = [] → ∀ cap ∈ t.cap, output.length < cap) →
      Transducer.Moves t ⟨state, read ++ rest, output⟩ ⟨target.state, rest, output ++ target.output⟩

namespace Transducer

/-- The configurations of the computations on an input. -/
def Reaches (t : Transducer) (input : Word) (c : Configuration) : Prop :=
  Relation.ReflTransGen t.Moves ⟨t.initial, input, []⟩ c

/-- An output of the transducer for an input, with the final state it is found in. -/
def Yields (t : Transducer) (input output state : Word) : Prop :=
  state ∈ t.finals ∧ t.Reaches input ⟨state, [], output⟩

/-- A run goes on to exactly the configurations that one transition leads to. -/
theorem mem_successors_iff {t : Transducer} {c d : Configuration} :
    d ∈ t.successors c ↔ t.Moves c d := by
  obtain ⟨state, remaining, output⟩ := c
  simp only [successors, List.mem_flatMap, Prod.exists]
  constructor
  · rintro ⟨read, targets, hmem, hd⟩
    split at hd
    · next hread =>
      obtain ⟨target, htarget, rfl⟩ := List.mem_map.1 hd
      obtain ⟨hpre, hempty⟩ := (Bool.and_eq_true _ _).mp hread
      obtain ⟨rest, rfl⟩ := List.isPrefixOf_iff_prefix.1 hpre
      rw [List.drop_left]
      refine .move hmem htarget fun hnil cap hcap => ?_
      subst hnil
      simpa [mayReadNothing, Option.mem_def.1 hcap] using hempty
    · simp at hd
  · intro h
    cases h with
    | @move _ read rest _ targets target hmem htarget hcap =>
      refine ⟨read, targets, hmem, ?_⟩
      have hread : read.isPrefixOf (read ++ rest) = true :=
        List.isPrefixOf_iff_prefix.2 (List.prefix_append read rest)
      have hempty : (!read.isEmpty || t.mayReadNothing output) = true := by
        cases read with
        | nil =>
          have hall : t.mayReadNothing output = true := by
            rw [mayReadNothing]
            cases hc : t.cap with
            | none => rfl
            | some cap => simpa using hcap rfl cap (by simp [hc])
          simp [hall]
        | cons _ _ => rfl
      simp only [hread, hempty, Bool.and_self, if_true]
      exact List.mem_map.2 ⟨target, htarget, by simp⟩

end Transducer

end StringMachines
