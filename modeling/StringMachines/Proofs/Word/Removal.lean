import StringMachines.Word.Occurrence

/-!
# Removing a word from a text

The list of occurrences is complete (`Word.mem_occurrences_iff`) and goes from left to right
(`Word.occurrencesFrom_pairwise`). Leaving out a place where the removal gives the same text as at
the place before it loses no text: whatever a removal at some occurrence leaves, a removal at one of
the distinct occurrences leaves too (`Occurrence.exists_mem_distinct`).

Nor does it let a text through twice (`Occurrence.nodup_map_removeAt_distinct`), though only
neighbours are compared. Two removals leave the same text when the part between the two places
repeats itself at the distance of the length removed, and then a removal at any place between them
leaves it too (`Occurrence.removeAt_eq_of_between`).
-/

namespace StringMachines

/-- What the occurrence says stands at its position of the text. -/
def Occurrence.IsPlaceIn (text : Word) (o : Occurrence) : Prop :=
  ∃ u, text = u ++ o.rest ∧ o.position = u.length

namespace Word

/-! ## Occurrences -/

/-- A word occurs in a text when it is a part of it. -/
theorem occursIn_iff {needle text : Word} : occursIn needle text = true ↔ needle <:+: text := by
  induction text with
  | nil => rw [occursIn, List.isEmpty_iff, List.infix_nil]
  | cons c w ih =>
    rw [occursIn, Bool.or_eq_true, ih, List.isPrefixOf_iff_prefix, List.infix_cons_iff]

/-- The occurrences are the places behind some beginning of the text where the word stands. -/
theorem mem_occurrencesFrom_iff {needle text : Word} {start : Nat} {o : Occurrence} :
    o ∈ occurrencesFrom needle start text ↔
      ∃ u, text = u ++ o.rest ∧ o.position = start + u.length ∧ needle <+: o.rest := by
  obtain ⟨position, rest⟩ := o
  induction text generalizing start with
  | nil =>
    rw [occurrencesFrom]
    split
    · next hempty =>
      rw [List.isEmpty_iff.1 hempty, List.mem_singleton, Occurrence.mk.injEq]
      constructor
      · rintro ⟨rfl, rfl⟩
        exact ⟨[], rfl, rfl, List.nil_prefix⟩
      · rintro ⟨u, htext, hposition, -⟩
        obtain ⟨rfl, rfl⟩ := List.append_eq_nil_iff.1 htext.symm
        exact ⟨hposition, rfl⟩
    · next hempty =>
      refine iff_of_false List.not_mem_nil ?_
      rintro ⟨u, htext, -, hpre⟩
      obtain ⟨rfl, rfl⟩ := List.append_eq_nil_iff.1 htext.symm
      exact hempty (List.isEmpty_iff.2 (List.prefix_nil.1 hpre))
  | cons c w ih =>
    -- Behind no character of the text stands the text itself; the others are those of its tail.
    have hsplit : (∃ u, c :: w = u ++ rest ∧ position = start + u.length ∧ needle <+: rest) ↔
        (position = start ∧ rest = c :: w ∧ needle <+: c :: w) ∨
          ∃ u, w = u ++ rest ∧ position = start + 1 + u.length ∧ needle <+: rest := by
      constructor
      · rintro ⟨u, htext, hposition, hpre⟩
        cases u with
        | nil =>
          obtain rfl : c :: w = rest := htext
          exact .inl ⟨hposition, rfl, hpre⟩
        | cons d u =>
          obtain ⟨rfl, rfl⟩ := List.cons.inj htext
          refine .inr ⟨u, rfl, ?_, hpre⟩
          rw [hposition, List.length_cons]
          omega
      · rintro (⟨rfl, rfl, hpre⟩ | ⟨u, rfl, rfl, hpre⟩)
        · exact ⟨[], rfl, rfl, hpre⟩
        · refine ⟨c :: u, rfl, ?_, hpre⟩
          rw [List.length_cons]
          omega
    rw [hsplit, ← ih, occurrencesFrom, ← List.isPrefixOf_iff_prefix]
    split
    · next hpre => simp [hpre]
    · next hpre => simp [hpre]

/-- The occurrences in a text are the places where the word stands. -/
theorem mem_occurrences_iff {needle text : Word} {o : Occurrence} :
    o ∈ occurrences needle text ↔ o.IsPlaceIn text ∧ needle <+: o.rest := by
  rw [occurrences, mem_occurrencesFrom_iff]
  simp only [Nat.zero_add, Occurrence.IsPlaceIn, exists_and_right, ← and_assoc]

/-- The occurrences go from left to right. -/
theorem occurrencesFrom_pairwise (needle : Word) (start : Nat) (text : Word) :
    (occurrencesFrom needle start text).Pairwise (·.position < ·.position) := by
  induction text generalizing start with
  | nil =>
    rw [occurrencesFrom]
    split
    · exact List.pairwise_singleton _ _
    · exact List.Pairwise.nil
  | cons c w ih =>
    rw [occurrencesFrom]
    split
    · refine List.pairwise_cons.2 ⟨fun o ho => ?_, ih (start + 1)⟩
      exact (position_of_mem_occurrencesFrom ho).1
    · exact ih (start + 1)

/-- An occurrence in a text is a place of it. -/
theorem isPlaceIn_of_mem_occurrences {needle text : Word} {o : Occurrence}
    (h : o ∈ occurrences needle text) : o.IsPlaceIn text :=
  (mem_occurrences_iff.1 h).1

/-- The occurrences in a text go from left to right. -/
theorem occurrences_pairwise (needle text : Word) :
    (occurrences needle text).Pairwise (·.position < ·.position) :=
  occurrencesFrom_pairwise needle 0 text

/-! ## Removals -/

/-- A removal behind a beginning of the text leaves that beginning alone. -/
theorem removeAt_append (u rest : Word) (length : Nat) :
    removeAt (u ++ rest) u.length length = u ++ rest.drop length := by
  rw [removeAt, List.take_left, List.drop_append, List.drop_eq_nil_of_le (Nat.le_add_right _ _)]
  simp

end Word

namespace Occurrence

variable {text : Word} {length : Nat}

/-- The part of a text between two places of it. -/
theorem IsPlaceIn.exists_between {here there : Occurrence} (hhere : here.IsPlaceIn text)
    (hthere : there.IsPlaceIn text) (hle : here.position ≤ there.position) :
    ∃ u z, text = u ++ (z ++ there.rest) ∧ here.position = u.length ∧ here.rest = z ++ there.rest ∧
      there.position = (u ++ z).length := by
  obtain ⟨u, rfl, hu⟩ := hhere
  obtain ⟨v, htext, hv⟩ := hthere
  have hpre : u <+: v := by
    refine List.prefix_of_prefix_length_le (List.prefix_append u here.rest) ?_ (by omega)
    rw [htext]
    exact List.prefix_append v there.rest
  obtain ⟨z, rfl⟩ := hpre
  rw [List.append_assoc, List.append_cancel_left_eq] at htext
  exact ⟨u, z, by rw [htext], hu, htext, hv⟩

/-- A removal at one place leaves the same text as a removal further on exactly when the
comparison of the two places says so. -/
theorem sameRemoval_iff {here there : Occurrence} (hhere : here.IsPlaceIn text)
    (hthere : there.IsPlaceIn text) (hle : here.position ≤ there.position) :
    here.sameRemoval length there = true ↔
      text.removeAt here.position length = text.removeAt there.position length := by
  obtain ⟨u, z, rfl, hu, hrest, hv⟩ := hhere.exists_between hthere hle
  have hdistance : there.position - here.position = z.length := by
    rw [hu, hv, List.length_append]
    omega
  -- The two texts agree in front of the one place and behind the other.
  have hbehind : (z ++ there.rest).drop length =
      ((z ++ there.rest).drop length).take z.length ++ there.rest.drop length :=
    calc (z ++ there.rest).drop length
        = ((z ++ there.rest).drop length).take z.length ++
            ((z ++ there.rest).drop length).drop z.length := (List.take_append_drop _ _).symm
      _ = ((z ++ there.rest).drop length).take z.length ++ there.rest.drop length := by
          rw [List.drop_drop, Nat.add_comm, ← List.drop_drop, List.drop_left]
  have hremoved : Word.removeAt (u ++ (z ++ there.rest)) there.position length =
      u ++ (z ++ there.rest.drop length) := by
    rw [hv, ← List.append_assoc, Word.removeAt_append, List.append_assoc]
  rw [hremoved, hu, Word.removeAt_append, List.append_cancel_left_eq, hbehind,
    List.append_cancel_right_eq, sameRemoval, hdistance, hrest, List.take_left, beq_iff_eq]
  exact eq_comm

/-- What a removal at one of the places leaves, a removal at a place that stays leaves too. -/
theorem exists_mem_distinctFrom {before : Occurrence} {os : List Occurrence}
    (hplaces : ∀ o ∈ before :: os, o.IsPlaceIn text)
    (hsorted : (before :: os).Pairwise (·.position < ·.position)) {o : Occurrence}
    (ho : o ∈ before :: os) :
    ∃ o' ∈ before :: distinctFrom length before os,
      text.removeAt o'.position length = text.removeAt o.position length := by
  induction os generalizing before with
  | nil => exact ⟨o, ho, rfl⟩
  | cons p os ih =>
    rcases List.mem_cons.1 ho with rfl | ho
    · exact ⟨o, List.mem_cons_self, rfl⟩
    · have hbefore := hplaces before List.mem_cons_self
      have hplaces' := fun o ho => hplaces o (List.mem_cons_of_mem _ ho)
      obtain ⟨hlt, hsorted'⟩ := List.pairwise_cons.1 hsorted
      obtain ⟨o', ho', hremoval⟩ := ih hplaces' hsorted' ho
      rw [distinctFrom]
      split
      · next hsame =>
        rcases List.mem_cons.1 ho' with rfl | ho'
        · -- The place that is left out gives the same text as the one before it.
          have hle := Nat.le_of_lt (hlt o' List.mem_cons_self)
          have heq := (sameRemoval_iff hbefore (hplaces' o' List.mem_cons_self) hle).1 hsame
          exact ⟨before, List.mem_cons_self, heq.trans hremoval⟩
        · exact ⟨o', List.mem_cons_of_mem _ ho', hremoval⟩
      · exact ⟨o', List.mem_cons_of_mem _ ho', hremoval⟩

/-- What a removal of an occurrence leaves, a removal of a distinct occurrence leaves too. -/
theorem exists_mem_distinct {needle : Word} {o : Occurrence} (ho : o ∈ needle.occurrences text) :
    ∃ o' ∈ distinct length (needle.occurrences text),
      text.removeAt o'.position length = text.removeAt o.position length := by
  have hplaces : ∀ o ∈ needle.occurrences text, o.IsPlaceIn text :=
    fun o => Word.isPlaceIn_of_mem_occurrences
  have hsorted := Word.occurrences_pairwise needle text
  cases hos : needle.occurrences text with
  | nil =>
    rw [hos] at ho
    cases ho
  | cons before os =>
    rw [hos] at ho hplaces hsorted
    exact exists_mem_distinctFrom hplaces hsorted ho

/-! ## Distinct removals -/

/-- When removals at two places leave the same text, so does a removal at a place between them: the
part from the first place to that one lies within the part that repeats itself. -/
theorem removeAt_eq_of_between {here between there : Occurrence} (hhere : here.IsPlaceIn text)
    (hbetween : between.IsPlaceIn text) (hthere : there.IsPlaceIn text)
    (hle : here.position ≤ between.position) (hle' : between.position ≤ there.position)
    (h : text.removeAt here.position length = text.removeAt there.position length) :
    text.removeAt here.position length = text.removeAt between.position length := by
  have hsame := (sameRemoval_iff hhere hthere (Nat.le_trans hle hle')).2 h
  refine (sameRemoval_iff hhere hbetween hle).1 ?_
  have hdistance : between.position - here.position ≤ there.position - here.position := by omega
  rw [sameRemoval, beq_iff_eq] at hsame ⊢
  have htake := congrArg (List.take (between.position - here.position)) hsame
  rwa [List.take_take, List.take_take, Nat.min_eq_left hdistance] at htake

/-- A place that stays leaves a text that no place before it leaves. -/
theorem removeAt_ne_of_mem_distinctFrom {first before : Occurrence} {os : List Occurrence}
    (hfirst : first.IsPlaceIn text) (hle : first.position ≤ before.position)
    (hplaces : ∀ o ∈ before :: os, o.IsPlaceIn text)
    (hsorted : (before :: os).Pairwise (·.position < ·.position)) {o : Occurrence}
    (ho : o ∈ distinctFrom length before os) :
    text.removeAt first.position length ≠ text.removeAt o.position length := by
  induction os generalizing before with
  | nil => cases ho
  | cons p os ih =>
    obtain ⟨hbefore, hplaces'⟩ := List.forall_mem_cons.1 hplaces
    obtain ⟨hlt, hsorted'⟩ := List.pairwise_cons.1 hsorted
    have hp := hplaces' p List.mem_cons_self
    have hbeforep : before.position < p.position := hlt p List.mem_cons_self
    have hfirstp : first.position ≤ p.position := by omega
    rw [distinctFrom] at ho
    split at ho
    · exact ih hfirstp hplaces' hsorted' ho
    · next hdiffers =>
      rcases List.mem_cons.1 ho with rfl | ho
      · -- If the two texts were the same, the place before `o` would leave it too, and `o` would
        -- have been left out.
        intro heq
        have hlep := Nat.le_of_lt hbeforep
        have hbetween := removeAt_eq_of_between hfirst hbefore hp hle hlep heq
        exact hdiffers ((sameRemoval_iff hbefore hp hlep).2 (hbetween.symm.trans heq))
      · exact ih hfirstp hplaces' hsorted' ho

/-- The removals at the places that stay leave different texts. -/
theorem pairwise_removeAt_distinctFrom {before : Occurrence} {os : List Occurrence}
    (hplaces : ∀ o ∈ before :: os, o.IsPlaceIn text)
    (hsorted : (before :: os).Pairwise (·.position < ·.position)) :
    (before :: distinctFrom length before os).Pairwise
      (text.removeAt ·.position length ≠ text.removeAt ·.position length) := by
  induction os generalizing before with
  | nil => exact List.pairwise_singleton _ _
  | cons p os ih =>
    obtain ⟨hbefore, hplaces'⟩ := List.forall_mem_cons.1 hplaces
    have hlater := ih hplaces' (List.pairwise_cons.1 hsorted).2
    refine List.pairwise_cons.2 ⟨fun o ho => ?_, ?_⟩
    · exact removeAt_ne_of_mem_distinctFrom hbefore (Nat.le_refl _) hplaces hsorted ho
    · rw [distinctFrom]
      split
      · exact (List.pairwise_cons.1 hlater).2
      · exact hlater

/-- No two of the distinct places leave the same text. -/
theorem nodup_map_removeAt_distinct {os : List Occurrence} (hplaces : ∀ o ∈ os, o.IsPlaceIn text)
    (hsorted : os.Pairwise (·.position < ·.position)) :
    ((distinct length os).map (text.removeAt ·.position length)).Nodup := by
  cases os with
  | nil => exact List.nodup_nil
  | cons o os => exact List.pairwise_map.2 (pairwise_removeAt_distinctFrom hplaces hsorted)

end Occurrence

end StringMachines
