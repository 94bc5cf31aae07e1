import StringMachines.Proofs.Word.Removal

/-!
# Scanning a text for a word

The occurrences of a word in a text can be found by asking again and again for the next one: from a
resume point the scan looks for the first place where the word stands, and it resumes one character
behind that place, so that an overlapping occurrence is not passed over (`Word.scan`). Places and
resume points are offsets into the bytes of the text. The text can be cut only where a character
begins or at the end, and a scan whose resume point lies elsewhere is lost.

No scan for a word that is not empty is lost, and it finds what `Word.occurrences` lists
(`Word.scan_eq_some`). A character in front of which the word does not stand is passed over by the
search as by the list (`Word.findFrom?_of_not_prefix`), so the two are compared character by
character. That the offsets are all places where the bytes of the word stand rests on the encoding:
the first byte of a character is never one of its later bytes
(`Word.exists_append_of_bytes_isPrefix_drop`).
-/

namespace StringMachines.Word

variable {needle text u v rest : Word} {c : Char} {offset resume : Nat}

/-! ## Bytes -/

/-- The bytes of a word, in UTF-8. -/
def bytes (w : Word) : List UInt8 :=
  w.flatMap String.utf8EncodeChar

/-- The offset of a position: how many bytes stand in front of it. -/
def offsetOf (text : Word) (position : Nat) : Nat :=
  (bytes (text.take position)).length

/-- A character of the text begins at the offset, or the text ends there. -/
def IsBoundary (text : Word) (offset : Nat) : Prop :=
  ∃ u v, text = u ++ v ∧ u.bytes.length = offset

/-- The bytes of a text in two parts. -/
theorem bytes_append (u v : Word) : (u ++ v).bytes = u.bytes ++ v.bytes :=
  List.flatMap_append

/-- The number of bytes of a text with a first character. -/
theorem length_bytes_cons (c : Char) (w : Word) :
    (bytes (c :: w)).length = c.utf8Size + w.bytes.length := by
  rw [bytes, List.flatMap_cons, List.length_append, String.length_utf8EncodeChar, bytes]

/-- The number of bytes of a text with a last character. -/
theorem length_bytes_concat (u : Word) (c : Char) :
    (bytes (u ++ [c])).length = u.bytes.length + c.utf8Size := by
  rw [bytes_append, List.length_append, length_bytes_cons]
  rfl

/-- The bytes of a word that is not empty begin with the first byte of a character. -/
theorem exists_bytes_eq_cons (h : needle ≠ []) :
    ∃ b bs, needle.bytes = b :: bs ∧ b.IsUTF8FirstByte := by
  obtain ⟨c, w, rfl⟩ := List.exists_cons_of_ne_nil h
  obtain ⟨b, bs, hencode⟩ := List.exists_cons_of_ne_nil (String.utf8EncodeChar_ne_nil (c := c))
  have hfirst := UInt8.isUTF8FirstByte_getElem_zero_utf8EncodeChar (c := c)
  simp only [hencode] at hfirst
  refine ⟨b, bs ++ bytes w, ?_, hfirst⟩
  rw [bytes, List.flatMap_cons, hencode, List.cons_append]
  rfl

/-- The offset of the end of a beginning of the text. -/
theorem offsetOf_append (u v : Word) : (u ++ v).offsetOf u.length = u.bytes.length := by
  rw [offsetOf, List.take_left]

/-- The offset of a position is that of a character or of the end. -/
theorem isBoundary_offsetOf (text : Word) (position : Nat) :
    text.IsBoundary (text.offsetOf position) :=
  ⟨text.take position, text.drop position, (List.take_append_drop position text).symm, rfl⟩

/-- No offset lies behind the end of the text. -/
theorem offsetOf_le (text : Word) (position : Nat) :
    text.offsetOf position ≤ text.bytes.length := by
  have hlength : text.bytes.length =
      text.offsetOf position + (bytes (text.drop position)).length := by
    rw [offsetOf, ← List.length_append, ← bytes_append, List.take_append_drop]
  omega

/-- The offsets of positions in the text are in the order of the positions. -/
theorem offsetOf_lt {position position' : Nat} (hlt : position < position')
    (hle : position' ≤ text.length) : text.offsetOf position < text.offsetOf position' := by
  obtain ⟨c, w, hw⟩ : ∃ c w, (text.take position').drop position = c :: w := by
    refine List.exists_cons_of_length_pos ?_
    rw [List.length_drop, List.length_take]
    omega
  have htake : text.take position' = text.take position ++ c :: w := by
    rw [← hw, ← List.take_append_drop position (text.take position'), List.take_take,
      Nat.min_eq_left (Nat.le_of_lt hlt), List.drop_left' (by rw [List.length_take]; omega)]
  have hpos := c.utf8Size_pos
  rw [offsetOf, offsetOf, htake, bytes_append, List.length_append, length_bytes_cons]
  omega

/-! ## Bytes of a word in a text -/

/-- A word whose bytes come first in the bytes of a text comes first in the text. -/
theorem isPrefix_of_bytes_isPrefix (h : u.bytes <+: v.bytes) : u <+: v := by
  obtain ⟨rest, hrest⟩ := h
  refine List.isPrefix_of_utf8Encode_append_eq_utf8Encode rest.toByteArray ?_
  show u.bytes.toByteArray ++ rest.toByteArray = v.bytes.toByteArray
  rw [← List.toByteArray_append, hrest]

/-- The bytes of a word that is not empty stand only where a character begins. -/
theorem exists_append_of_bytes_isPrefix_drop (hneedle : needle ≠ [])
    (h : needle.bytes <+: text.bytes.drop offset) :
    ∃ u v, text = u ++ v ∧ u.bytes.length = offset ∧ needle <+: v := by
  obtain ⟨b, bs, hneedle', hfirst⟩ := exists_bytes_eq_cons hneedle
  induction text generalizing offset with
  | nil =>
    have hnil : (bytes []).drop offset = [] := List.drop_nil
    rw [hnil, hneedle'] at h
    exact absurd (List.prefix_nil.1 h) (List.cons_ne_nil b bs)
  | cons d w ih =>
    rcases Nat.eq_zero_or_pos offset with rfl | hpos
    · exact ⟨[], d :: w, rfl, rfl, isPrefix_of_bytes_isPrefix h⟩
    · have hbytes : bytes (d :: w) = String.utf8EncodeChar d ++ bytes w := List.flatMap_cons
      rw [hbytes] at h
      rcases Nat.lt_or_ge offset (String.utf8EncodeChar d).length with hlt | hge
      · -- A later byte of `d` would be the first byte of the word.
        rw [List.drop_append_of_le_length (Nat.le_of_lt hlt), List.drop_eq_getElem_cons hlt,
          hneedle', List.cons_append, List.cons_prefix_cons] at h
        rw [h.1] at hfirst
        have hzero := UInt8.isUTF8FirstByte_getElem_utf8EncodeChar.1 hfirst
        omega
      · rw [List.drop_append, List.drop_eq_nil_of_le hge, List.nil_append] at h
        obtain ⟨u, v, rfl, hu, hv⟩ := ih h
        refine ⟨d :: u, v, rfl, ?_, hv⟩
        rw [String.length_utf8EncodeChar] at hu hge
        rw [length_bytes_cons, hu]
        omega

/-! ## The scan -/

/-- What stands from an offset on. There is nothing when the offset lies inside a character or
behind the end of the text. -/
def fromOffset? : Nat → Word → Option Word
  | 0, w => some w
  | _ + 1, [] => none
  | offset + 1, c :: w =>
    if c.utf8Size ≤ offset + 1 then fromOffset? (offset + 1 - c.utf8Size) w else none

/-- The offset of the first place where a word stands. -/
def find? (needle : Word) : Word → Option Nat
  | [] => if needle.isEmpty then some 0 else none
  | c :: w =>
    if needle.isPrefixOf (c :: w) then some 0 else (find? needle w).map (c.utf8Size + ·)

/-- A place that the scan has found, and where it goes on. -/
structure Find where
  offset : Nat
  resume : Nat
deriving DecidableEq, Repr

/-- Looks for a word from a resume point on, and resumes one character behind the place that is
found. The scan is lost when the text cannot be cut at the resume point. -/
def findFrom? (needle text : Word) (resume : Nat) : Option (Option Find) :=
  (fromOffset? resume text).bind fun rest =>
    match find? needle rest with
    | none => some none
    | some skipped =>
      (fromOffset? (resume + skipped) text).map fun here =>
        some ⟨resume + skipped, resume + skipped + (here.head?.map Char.utf8Size).getD 1⟩

/-- The text can be cut behind any beginning of it. -/
theorem fromOffset?_append (u v : Word) : fromOffset? u.bytes.length (u ++ v) = some v := by
  induction u with
  | nil => cases v <;> rfl
  | cons c u ih =>
    have hpos := c.utf8Size_pos
    obtain ⟨n, hn⟩ : ∃ n, (bytes (c :: u)).length = n + 1 :=
      Nat.exists_eq_add_one.2 (by rw [length_bytes_cons]; omega)
    have hle : c.utf8Size ≤ n + 1 := by rw [← hn, length_bytes_cons]; omega
    have hrest : n + 1 - c.utf8Size = (bytes u).length := by rw [← hn, length_bytes_cons]; omega
    rw [hn, List.cons_append, fromOffset?, if_pos hle, hrest]
    exact ih

/-- An offset where the text can be cut does not lie behind its end. -/
theorem le_of_fromOffset? (h : fromOffset? offset text = some rest) :
    offset ≤ text.bytes.length := by
  fun_induction fromOffset? offset text with
  | case1 w => exact Nat.zero_le _
  | case2 offset => cases h
  | case3 offset c w hsize ih =>
    have hle := ih h
    rw [length_bytes_cons]
    omega
  | case4 offset c w hsize => cases h

/-- The search finds something at the resume point or behind it, and resumes behind that. -/
theorem lt_resume_of_findFrom? {find : Find} (h : findFrom? needle text resume = some (some find)) :
    resume ≤ text.bytes.length ∧ resume < find.resume := by
  rw [findFrom?, Option.bind_eq_some_iff] at h
  obtain ⟨rest, hrest, h⟩ := h
  refine ⟨le_of_fromOffset? hrest, ?_⟩
  split at h
  · cases h
  · obtain ⟨here, -, hfind⟩ := Option.map_eq_some_iff.1 h
    obtain rfl := Option.some.inj hfind
    have hpos : 0 < (here.head?.map Char.utf8Size).getD 1 := by
      cases here with
      | nil => exact Nat.one_pos
      | cons c w => exact c.utf8Size_pos
    show resume < resume + _ + _
    omega

/-- Everything that the scan finds from a resume point on, unless it is lost. -/
def scanFrom (needle text : Word) (resume : Nat) : Option (List Find) :=
  match h : findFrom? needle text resume with
  | none => none
  | some none => some []
  | some (some find) =>
    have := lt_resume_of_findFrom? h
    (scanFrom needle text find.resume).map (find :: ·)
termination_by text.bytes.length + 1 - resume
decreasing_by omega

/-- Everything that the scan of a text finds. -/
def scan (needle text : Word) : Option (List Find) :=
  scanFrom needle text 0

/-- The scan is told by the next find. -/
theorem scanFrom_eq (needle text : Word) (resume : Nat) :
    scanFrom needle text resume =
      (findFrom? needle text resume).bind fun
        | none => some []
        | some find => (scanFrom needle text find.resume).map (find :: ·) := by
  rw [scanFrom]
  split <;> simp_all

/-! ## The scan and the list of occurrences -/

/-- What the scan should find for an occurrence: its offset, and that of the next position. -/
def findAt (text : Word) (o : Occurrence) : Find :=
  ⟨text.offsetOf o.position, text.offsetOf (o.position + 1)⟩

/-- Where the word stands, it is found, and the scan resumes behind the first character. -/
theorem findFrom?_of_prefix (h : needle <+: c :: v) :
    findFrom? needle (u ++ c :: v) u.bytes.length =
      some (some ⟨u.bytes.length, (bytes (u ++ [c])).length⟩) := by
  have hfind : find? needle (c :: v) = some 0 := by
    rw [find?, if_pos (List.isPrefixOf_iff_prefix.2 h)]
  rw [findFrom?, fromOffset?_append, Option.bind_some, hfind, length_bytes_concat]
  simp only [Nat.add_zero, fromOffset?_append]
  rfl

/-- Where the word does not stand, the next find is that of the next character. -/
theorem findFrom?_of_not_prefix (h : ¬ needle <+: c :: v) :
    findFrom? needle (u ++ c :: v) u.bytes.length =
      findFrom? needle (u ++ c :: v) (bytes (u ++ [c])).length := by
  have hcut : fromOffset? (bytes (u ++ [c])).length (u ++ c :: v) = some v := by
    rw [List.append_cons u c v, fromOffset?_append]
  have hfind : find? needle (c :: v) = (find? needle v).map (c.utf8Size + ·) := by
    rw [find?, if_neg (mt List.isPrefixOf_iff_prefix.1 h)]
  rw [findFrom?, findFrom?, fromOffset?_append, hcut, Option.bind_some, Option.bind_some, hfind,
    length_bytes_concat]
  cases find? needle v with
  | none => rfl
  | some skipped => simp only [Option.map_some, Nat.add_assoc]

/-- At the end of the text nothing is found. -/
theorem findFrom?_end (hneedle : needle ≠ []) :
    findFrom? needle u u.bytes.length = some none := by
  have hcut := fromOffset?_append u []
  rw [List.append_nil] at hcut
  have hfind : find? needle [] = none := by
    rw [find?, if_neg (mt List.isEmpty_iff.1 hneedle)]
  rw [findFrom?, hcut, Option.bind_some, hfind]

/-- From any position on, the scan finds the occurrences that the list has from there on. -/
theorem scanFrom_eq_some (hneedle : needle ≠ []) (u v : Word) :
    scanFrom needle (u ++ v) u.bytes.length =
      some ((occurrencesFrom needle u.length v).map (findAt (u ++ v))) := by
  induction v generalizing u with
  | nil =>
    rw [List.append_nil, scanFrom_eq, findFrom?_end hneedle, occurrencesFrom,
      if_neg (mt List.isEmpty_iff.1 hneedle)]
    rfl
  | cons c v ih =>
    have hnext := ih (u ++ [c])
    rw [← List.append_cons, List.length_append, List.length_singleton] at hnext
    rw [occurrencesFrom]
    split
    · next h =>
      have hprefix := List.isPrefixOf_iff_prefix.1 h
      have hhere : findAt (u ++ c :: v) ⟨u.length, c :: v⟩ =
          ⟨u.bytes.length, (bytes (u ++ [c])).length⟩ := by
        have hafter := offsetOf_append (u ++ [c]) v
        rw [← List.append_cons, List.length_append, List.length_singleton] at hafter
        rw [findAt, offsetOf_append, hafter]
      rw [scanFrom_eq, findFrom?_of_prefix hprefix, Option.bind_some]
      dsimp only
      rw [hnext, Option.map_some, List.map_cons, hhere]
    · next h =>
      have hnotPrefix := mt List.isPrefixOf_iff_prefix.2 h
      rw [scanFrom_eq, findFrom?_of_not_prefix hnotPrefix, ← scanFrom_eq, hnext]

/-- The scan for a word that is not empty is not lost and finds the occurrences of the word. -/
theorem scan_eq_some (hneedle : needle ≠ []) (text : Word) :
    scan needle text = some ((occurrences needle text).map (findAt text)) :=
  scanFrom_eq_some hneedle [] text

/-- The positions that are listed are those where the word stands. -/
theorem mem_map_position_occurrences_iff {position : Nat} :
    position ∈ (occurrences needle text).map (·.position) ↔
      ∃ u v, text = u ++ needle ++ v ∧ u.length = position := by
  rw [List.mem_map]
  constructor
  · rintro ⟨o, ho, rfl⟩
    obtain ⟨⟨u, htext, hposition⟩, v, hv⟩ := mem_occurrences_iff.1 ho
    exact ⟨u, v, by rw [htext, ← hv, List.append_assoc], hposition.symm⟩
  · rintro ⟨u, v, rfl, rfl⟩
    refine ⟨⟨u.length, needle ++ v⟩, mem_occurrences_iff.2 ⟨⟨u, ?_, rfl⟩, ?_⟩, rfl⟩
    · rw [List.append_assoc]
    · exact List.prefix_append needle v

/-- The offsets of the positions that are listed are those where the bytes of the word stand. -/
theorem mem_map_offsetOf_occurrences_iff (hneedle : needle ≠ []) :
    offset ∈ (occurrences needle text).map (fun o => text.offsetOf o.position) ↔
      needle.bytes <+: text.bytes.drop offset := by
  rw [List.mem_map]
  constructor
  · rintro ⟨o, ho, rfl⟩
    obtain ⟨⟨u, rfl, hposition⟩, v, hv⟩ := mem_occurrences_iff.1 ho
    rw [hposition, offsetOf_append, bytes_append, List.drop_left, ← hv, bytes_append]
    exact List.prefix_append _ _
  · intro h
    obtain ⟨u, v, rfl, rfl, hv⟩ := exists_append_of_bytes_isPrefix_drop hneedle h
    exact ⟨⟨u.length, v⟩, mem_occurrences_iff.2 ⟨⟨u, rfl, rfl⟩, hv⟩, offsetOf_append u v⟩

/-- A word that is not empty occurs in front of the end of the text. -/
theorem position_lt_length (hneedle : needle ≠ []) {o : Occurrence}
    (ho : o ∈ occurrences needle text) : o.position < text.length := by
  have hle := (position_of_mem_occurrencesFrom ho).2
  have hpos := List.length_pos_iff.2 hneedle
  omega

/-- **All occurrences are found, overlapping ones included.** For every text and every word that is
not empty, the positions of the occurrences are ascending, and they are the positions behind which
the word stands. The scan that resumes one character behind each find has the same occurrences as
offsets: they are ascending, they are the offsets where the bytes of the word stand in the bytes of
the text, and each of them begins a character. Each resume point begins a character too or is the
end of the text, so that the scan comes to its end and is never lost. -/
theorem occurrences_exact (hneedle : needle ≠ []) (text : Word) :
    ((occurrences needle text).map (·.position)).Pairwise (· < ·) ∧
    (∀ position, position ∈ (occurrences needle text).map (·.position) ↔
      ∃ u v, text = u ++ needle ++ v ∧ u.length = position) ∧
    ∃ finds, scan needle text = some finds ∧
      finds.map (·.offset) = (occurrences needle text).map (fun o => text.offsetOf o.position) ∧
      (finds.map (·.offset)).Pairwise (· < ·) ∧
      (∀ offset, offset ∈ finds.map (·.offset) ↔ needle.bytes <+: text.bytes.drop offset) ∧
      ∀ find ∈ finds, text.IsBoundary find.offset ∧ text.IsBoundary find.resume ∧
        find.offset < find.resume ∧ find.resume ≤ text.bytes.length := by
  have hascending := List.pairwise_map.2 (occurrences_pairwise needle text)
  refine ⟨hascending, fun position => mem_map_position_occurrences_iff, ?_⟩
  refine ⟨_, scan_eq_some hneedle text, ?_⟩
  have hoffsets : ((occurrences needle text).map (findAt text)).map (·.offset) =
      (occurrences needle text).map (fun o => text.offsetOf o.position) := List.map_map
  refine ⟨hoffsets, ?_, fun offset => ?_, fun find hfind => ?_⟩
  · rw [hoffsets, List.pairwise_map]
    refine (List.pairwise_map.1 hascending).imp_of_mem fun _ ho' hlt => ?_
    exact offsetOf_lt hlt (Nat.le_of_lt (position_lt_length hneedle ho'))
  · rw [hoffsets, mem_map_offsetOf_occurrences_iff hneedle]
  · obtain ⟨o, ho, rfl⟩ := List.mem_map.1 hfind
    exact ⟨isBoundary_offsetOf text _, isBoundary_offsetOf text _,
      offsetOf_lt (Nat.lt_succ_self _) (position_lt_length hneedle ho), offsetOf_le text _⟩

/-- Overlapping occurrences of a word of characters with two bytes each. -/
theorem occurrences_exact_alpha :
    (occurrences ['α', 'α'] ['α', 'α', 'α']).map (·.position) = [0, 1] ∧
      ∃ finds, scan ['α', 'α'] ['α', 'α', 'α'] = some finds ∧
        finds.map (·.offset) = [0, 2] := by
  have hneedle : ['α', 'α'] ≠ [] := by decide
  obtain ⟨-, -, finds, hscan, hoffsets, -⟩ := occurrences_exact hneedle ['α', 'α', 'α']
  exact ⟨by decide, finds, hscan, hoffsets.trans (by decide)⟩

end StringMachines.Word
