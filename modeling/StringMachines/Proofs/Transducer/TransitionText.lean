import StringMachines.Transducer.TransitionText

/-!
# Reading the text of a transition

The texts with three colons are the texts of the transitions that have no colon in their parts
(`Transition.count_eq_three_iff`). Such a text tells the transition, so that reading it gives the
transition back unless a state is not named (`Transition.ofText_text`), and every other text is
refused for the number of its parts (`Transition.ofText_of_count_ne`). So a text is read as a
transition when it is the text of that transition, and of no other
(`Transition.ofText_inverts_text`).
-/

namespace StringMachines.Transition

variable {t : Transition} {w : Word}

/-- No part of the transition has a colon in it. -/
def Colonless (t : Transition) : Prop :=
  ∀ part ∈ [t.source, t.input, t.target, t.output], ':' ∉ part

/-- The transition can be told from its text, and both its states are named. -/
structure Writable (t : Transition) : Prop where
  colonless : t.Colonless
  source_ne_nil : t.source ≠ []
  target_ne_nil : t.target ≠ []

/-- The parts of a transition are the pieces of its text. -/
theorem splitOn_text (h : t.Colonless) :
    t.text.splitOn ':' = [t.source, t.input, t.target, t.output] :=
  List.splitOn_intercalate ':' h (List.cons_ne_nil _ _)

/-- A text has three colons when it is the text of a transition without a colon in its parts. -/
theorem count_eq_three_iff : w.count ':' = 3 ↔ ∃ t : Transition, t.Colonless ∧ w = t.text := by
  constructor
  · intro hcount
    have hlength := Word.length_splitOn ':' w
    have hjoined : List.intercalate [':'] (w.splitOn ':') = w := List.intercalate_splitOn ':'
    have hcolon : ∀ piece ∈ w.splitOn ':', ':' ∉ piece := fun piece hpiece hmem =>
      (Word.exists_mem_splitOn_iff.1 ⟨piece, hpiece, hmem⟩).2 rfl
    rw [hcount] at hlength
    match hpieces : w.splitOn ':', hlength with
    | [source, input, target, output], _ =>
      rw [hpieces] at hjoined hcolon
      exact ⟨⟨source, input, target, output⟩, hcolon, hjoined.symm⟩
  · rintro ⟨t, ht, rfl⟩
    have hlength := Word.length_splitOn ':' t.text
    rw [splitOn_text ht, List.length_cons, List.length_cons, List.length_cons,
      List.length_singleton] at hlength
    omega

/-- The text of a transition is refused when a state is not named, and read back otherwise. -/
theorem ofText_text (h : t.Colonless) :
    ofText t.text = if t.source = [] ∨ t.target = [] then .error .emptyState else .ok t := by
  rw [ofText, splitOn_text h]

/-- A text with more or fewer than three colons is refused. -/
theorem ofText_of_count_ne (h : w.count ':' ≠ 3) : ofText w = .error .wrongFieldCount := by
  have hlength := Word.length_splitOn ':' w
  rw [ofText]
  split
  · next hpieces =>
    rw [hpieces, List.length_cons, List.length_cons, List.length_cons, List.length_singleton]
      at hlength
    omega
  · rfl

/-- The text of a transition that can be written is read back. -/
theorem ofText_text_of_writable (h : t.Writable) : ofText t.text = .ok t := by
  rw [ofText_text h.colonless, if_neg (not_or.2 ⟨h.source_ne_nil, h.target_ne_nil⟩)]

/-- A transition that is read can be written, and the text is its text. -/
theorem writable_of_ofText (h : ofText w = .ok t) : t.Writable ∧ w = t.text := by
  by_cases hcount : w.count ':' = 3
  · obtain ⟨t', ht', rfl⟩ := count_eq_three_iff.1 hcount
    rw [ofText_text ht'] at h
    split at h
    · cases h
    · next hstates =>
      obtain ⟨hsource, htarget⟩ := not_or.1 hstates
      obtain rfl := Except.ok.inj h
      exact ⟨⟨ht', hsource, htarget⟩, rfl⟩
  · rw [ofText_of_count_ne hcount] at h
    cases h

/-- **Reading a transition undoes writing it, and accepts nothing else.** A text is read as a
transition exactly when it is the source, the word read, the target and the word written with colons
between them, none of the four has a colon in it, and the two states are not empty. So the text of
every such transition gives the transition back. Every other text is refused: for the number of its
parts when it does not have three colons, and otherwise for a state that is empty. -/
theorem ofText_inverts_text :
    (∀ (w : Word) (t : Transition), ofText w = .ok t ↔ t.Writable ∧ w = t.text) ∧
    (∀ t : Transition, t.Writable → ofText t.text = .ok t) ∧
    ∀ w : Word, (∀ t : Transition, t.Writable → w ≠ t.text) →
      w.count ':' ≠ 3 ∧ ofText w = .error .wrongFieldCount ∨
      ∃ t : Transition, t.Colonless ∧ w = t.text ∧ (t.source = [] ∨ t.target = []) ∧
        ofText w = .error .emptyState := by
  refine ⟨fun w t => ⟨writable_of_ofText, ?_⟩, fun t => ofText_text_of_writable, fun w hw => ?_⟩
  · rintro ⟨ht, rfl⟩
    exact ofText_text_of_writable ht
  · by_cases hcount : w.count ':' = 3
    · obtain ⟨t, ht, rfl⟩ := count_eq_three_iff.1 hcount
      by_cases hstates : t.source = [] ∨ t.target = []
      · exact .inr ⟨t, ht, rfl, hstates, by rw [ofText_text ht, if_pos hstates]⟩
      · obtain ⟨hsource, htarget⟩ := not_or.1 hstates
        exact absurd rfl (hw t ⟨ht, hsource, htarget⟩)
    · exact .inl ⟨hcount, ofText_of_count_ne hcount⟩

/-- The words read and written may be empty, and the states may not. -/
theorem ofText_of_q_r :
    ofText ['q', ':', 'a', 'b', ':', 'r', ':'] = .ok ⟨['q'], ['a', 'b'], ['r'], []⟩ ∧
      ofText ['q', ':', ':', ':'] = .error .emptyState := by
  obtain ⟨-, hread, hrefused⟩ := ofText_inverts_text
  have hwritable : Writable ⟨['q'], ['a', 'b'], ['r'], []⟩ :=
    ⟨by simp [Colonless], by decide, by decide⟩
  -- A transition with the second text would have an empty target.
  have hunwritable : ∀ t : Transition, t.Writable → ['q', ':', ':', ':'] ≠ t.text := by
    intro t ht htext
    have hpieces := splitOn_text ht.colonless
    rw [← htext] at hpieces
    obtain ⟨-, -, htarget, -⟩ :
        ['q'] = t.source ∧ [] = t.input ∧ [] = t.target ∧ [] = t.output := by
      simpa [List.splitOn_cons_eq_if_modifyHead] using hpieces
    exact ht.target_ne_nil htarget.symm
  refine ⟨hread _ hwritable, ?_⟩
  rcases hrefused _ hunwritable with ⟨hcount, -⟩ | ⟨t, -, -, -, hemptyState⟩
  · exact absurd rfl hcount
  · exact hemptyState

end StringMachines.Transition
