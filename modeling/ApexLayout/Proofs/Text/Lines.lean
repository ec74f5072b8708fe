import ApexLayout.Proofs.Text.Blank
import ApexLayout.Proofs.Text.Offset

/-!
The lines of a text, by their numbers. The offsets at which lines start and the pieces between line feeds number the
lines in the same way (`IsLine`), which is that of the line feeds among the bytes (`lines_number_text`).
-/
namespace ApexLayout.Text

variable {s : String} {front line rest cs : List Char} {n offset : Nat} {c : Char}

theorem length_pieces (sep : Char) (cs : List Char) : (pieces sep cs).length = cs.count sep + 1 := by
  induction cs with
  | nil => rfl
  | cons c cs ih =>
    by_cases ends : c = sep
    · simp [pieces, ends, ih]
    · obtain ⟨piece, rest, first⟩ := List.exists_cons_of_ne_nil (pieces_ne_nil sep cs)
      rw [first] at ih
      simpa [pieces, ends, first] using ih

theorem withOffsets_append (start : Nat) (cs ds : List Char) :
    withOffsets start (cs ++ ds) = withOffsets start cs ++ withOffsets (start + byteLength cs) ds := by
  induction cs generalizing start with
  | nil => rfl
  | cons c cs ih => rw [List.cons_append, withOffsets, withOffsets, ih, byteLength, Nat.add_assoc, List.cons_append]

theorem map_withOffsets (start : Nat) (cs : List Char) : (withOffsets start cs).map (·.2) = cs := by
  induction cs generalizing start with
  | nil => rfl
  | cons c cs ih => rw [withOffsets, List.map_cons, ih]

theorem length_filter_withOffsets (start : Nat) (cs : List Char) (c : Char) :
    ((withOffsets start cs).filter (·.2 == c)).length = cs.count c := by
  rw [← List.countP_eq_length_filter, List.count, ← map_withOffsets start cs, List.countP_map, map_withOffsets]
  rfl

/-! ### Lines in order -/

/-- Between the characters before and behind it, the line of this number. -/
structure IsLine (s : String) (n : Nat) (front line rest : List Char) : Prop where
  whole : s.toList = front ++ (line ++ rest)
  number : front.count '\n' + 1 = n
  starts : ∀ c ∈ front.getLast?, c = '\n'
  single : '\n' ∉ line
  stops : ∀ c ∈ rest.head?, c = '\n'

theorem head_pieces (single : '\n' ∉ line) (stops : ∀ c ∈ rest.head?, c = '\n') :
    (pieces '\n' (line ++ rest))[0]? = some line := by
  cases rest with
  | nil => simp [pieces_of_not_mem single]
  | cons c rest =>
    obtain rfl := stops c rfl
    simp [pieces_append, pieces_of_not_mem single]

theorem IsLine.piece (is : IsLine s n front line rest) : (pieces '\n' s.toList)[n - 1]? = some line := by
  obtain ⟨whole, rfl, starts, single, stops⟩ := is
  have head := head_pieces single stops
  rw [whole, Nat.add_sub_cancel]
  rcases List.eq_nil_or_concat' front with rfl | ⟨earlier, c, rfl⟩
  · exact head
  · obtain rfl : c = '\n' := starts c (by simp)
    have count : (earlier ++ ['\n']).count '\n' = (pieces '\n' earlier).length := by simp [length_pieces]
    rw [List.append_assoc, List.singleton_append, pieces_append, count, List.getElem?_append_right (Nat.le_refl _),
      Nat.sub_self, head]

theorem IsLine.start (is : IsLine s n front line rest) : (Lines.ofText s).starts[n - 1]? = some (byteLength front) := by
  obtain ⟨whole, rfl, starts, -, -⟩ := is
  rw [Lines.ofText, offsetsOf, whole, Nat.add_sub_cancel]
  rcases List.eq_nil_or_concat' front with rfl | ⟨earlier, c, rfl⟩
  · rfl
  · obtain rfl : c = '\n' := starts c (by simp)
    have count : (earlier ++ ['\n']).count '\n' = ((withOffsets 0 earlier).filter (·.2 == '\n')).length + 1 := by
      rw [length_filter_withOffsets]
      simp
    rw [count, List.getElem?_cons_succ, List.append_assoc, withOffsets_append, List.filter_append, List.map_append,
      List.map_append, List.getElem?_append_right (by simp)]
    simp [withOffsets, byteLength, Char.utf8Size]

theorem exists_isLine_of_starts (whole : s.toList = front ++ rest) (starts : ∀ c ∈ front.getLast?, c = '\n') :
    ∃ line after, IsLine s (front.count '\n' + 1) front line after := by
  refine ⟨rest.takeWhile (· != '\n'), rest.dropWhile (· != '\n'), ⟨?_, rfl, starts, ?_, ?_⟩⟩
  · rw [List.takeWhile_append_dropWhile, whole]
  · intro member
    simpa using List.mem_takeWhile_imp member
  · intro c first
    have stop := List.head?_dropWhile_not (· != '\n') rest
    rw [Option.mem_def.mp first] at stop
    simpa using stop

theorem exists_isLine (s : String) (n : Nat) (few : n ≤ s.toList.count '\n') :
    ∃ front line rest, IsLine s (n + 1) front line rest := by
  induction n with
  | zero =>
    have whole : s.toList = [] ++ s.toList := rfl
    exact ⟨[], exists_isLine_of_starts whole (by simp)⟩
  | succ n ih =>
    obtain ⟨front, line, rest, whole, number, starts, single, stops⟩ := ih (by omega)
    have absent := List.count_eq_zero.mpr single
    -- There are more line feeds, so the line ends with one.
    cases rest with
    | nil =>
      simp only [whole, List.count_append, absent, List.count_nil] at few
      omega
    | cons c rest =>
      obtain rfl : c = '\n' := stops c rfl
      have split : s.toList = (front ++ line ++ ['\n']) ++ rest := by simp [whole]
      have next : (front ++ line ++ ['\n']).count '\n' + 1 = n + 1 + 1 := by
        simp only [List.count_append, absent, List.count_singleton_self]
        omega
      exact ⟨_, next ▸ exists_isLine_of_starts split (by simp)⟩

/-! ### Line starts in order -/

theorem mem_starts : n ∈ (Lines.ofText s).starts ↔ n = 0 ∨ ∃ i, StandsAt s '\n' i ∧ i + 1 = n := by
  simp [Lines.ofText, mem_offsetsOf]

theorem pairwise_starts (s : String) : (Lines.ofText s).starts.Pairwise (· < ·) := by
  refine List.pairwise_cons.mpr ⟨fun n member => ?_, ?_⟩
  · obtain ⟨i, -, rfl⟩ := List.mem_map.mp member
    exact Nat.succ_pos i
  · exact List.pairwise_map.mpr ((pairwise_offsetsOf '\n' s).imp Nat.succ_lt_succ)

theorem findIdx_eq_countP {ns : List Nat} (sorted : ns.Pairwise (· < ·)) (offset : Nat) :
    ns.findIdx (offset < ·) = ns.countP (· ≤ offset) := by
  induction ns with
  | nil => rfl
  | cons n ns ih =>
    obtain ⟨least, sorted⟩ := List.pairwise_cons.mp sorted
    rw [List.findIdx_cons, List.countP_cons, ← ih sorted]
    by_cases beyond : offset < n
    · have none : ns.countP (· ≤ offset) = 0 := by
        refine List.countP_eq_zero.mpr fun m member => ?_
        have := least m member
        simp only [decide_eq_true_eq]
        omega
      simp [beyond, ih sorted, none]
    · simp [beyond, Nat.le_of_not_lt beyond]

theorem count_take_utf8EncodeChar (ascii : c.toNat < 128) (d : Char) (n : Nat) :
    ((String.utf8EncodeChar d).take n).count c.toUInt8 = if d = c ∧ 0 < n then 1 else 0 := by
  by_cases same : d = c
  · subst same
    rw [utf8EncodeChar_ascii ascii]
    cases n with
    | zero | succ n => simp
  · have absent : c.toUInt8 ∉ (String.utf8EncodeChar d).take n := fun member =>
      same (eq_of_mem_utf8EncodeChar ascii (List.mem_of_mem_take member)).symm
    simp [same, List.count_eq_zero.mpr absent]

/-- The bytes of ASCII before an offset are the characters that stand before it. -/
theorem count_take_bytes (ascii : c.toNat < 128) (cs : List Char) (start n : Nat) :
    ((cs.flatMap String.utf8EncodeChar).take n).count c.toUInt8 =
      ((withOffsets start cs).filter (·.2 == c)).countP (·.1 < start + n) := by
  induction cs generalizing start n with
  | nil => simp [withOffsets]
  | cons d cs ih =>
    have further : ((withOffsets (start + d.utf8Size) cs).filter (·.2 == c)).countP (·.1 < start + n) =
        ((withOffsets (start + d.utf8Size) cs).filter (·.2 == c)).countP (·.1 < start + d.utf8Size + (n - d.utf8Size)) := by
      refine List.countP_congr fun p member => ?_
      obtain ⟨front, -, -, here⟩ := mem_withOffsets.mp (List.mem_filter.mp member).1
      simp only [decide_eq_true_eq]
      omega
    rw [List.flatMap_cons, List.take_append, List.count_append, count_take_utf8EncodeChar ascii, String.length_utf8EncodeChar,
      ih (start + d.utf8Size), withOffsets, List.filter_cons, ← further]
    by_cases same : d = c
    · simp [same, List.countP_cons, Nat.add_comm]
    · simp [same]

theorem count_bytes (ascii : c.toNat < 128) (s : String) : (bytes s).count c.toUInt8 = s.toList.count c := by
  rw [bytes]
  generalize s.toList = cs
  induction cs with
  | nil => rfl
  | cons d cs ih =>
    have own := count_take_utf8EncodeChar ascii d (String.utf8EncodeChar d).length
    rw [List.take_length, String.length_utf8EncodeChar] at own
    rw [List.flatMap_cons, List.count_append, ih, own, List.count_cons, Nat.add_comm]
    simp [d.utf8Size_pos]

namespace Lines

theorem count_ofText (s : String) : (ofText s).count = 1 + s.toList.count '\n' := by
  simp only [count, ofText, List.length_cons, List.length_map, offsetsOf, length_filter_withOffsets, Nat.add_comm]

theorem isBlank_ofText (s : String) (n : Nat) :
    (ofText s).isBlank (n + 1) ↔ ∃ piece, (pieces '\n' s.toList)[n]? = some piece ∧ ∀ c ∈ piece, Text.isBlank c := by
  simp only [isBlank, ofText, lines, List.getElem?_map]
  cases (pieces '\n' s.toList)[n]? with
  | none => simp
  | some piece => simp [allBlank]

theorem lineOf_ofText (s : String) (offset : Nat) :
    (ofText s).lineOf offset = 1 + ((bytes s).take offset).count '\n'.toUInt8 := by
  rw [lineOf, findIdx_eq_countP (pairwise_starts s), bytes, count_take_bytes (by decide) _ 0]
  simp only [ofText, offsetsOf, List.countP_cons, List.countP_map, Nat.zero_add]
  rw [Nat.add_comm]
  rfl

/-- A line starts right behind the last line feed before it. -/
theorem exists_start (s : String) (offset : Nat) :
    ∃ start ≤ offset, (ofText s).starts[(ofText s).lineOf offset - 1]? = some start ∧
      (start = 0 ∨ ∃ i, start = i + 1 ∧ StandsAt s '\n' i) ∧ ∀ i, start ≤ i → i < offset → ¬StandsAt s '\n' i := by
  have pos : 0 < (ofText s).lineOf offset := by
    rw [lineOf_ofText]
    omega
  have few : (ofText s).lineOf offset ≤ (ofText s).starts.length := List.findIdx_le_length
  have inside : (ofText s).lineOf offset - 1 < (ofText s).starts.length := by omega
  have sorted {j k : Nat} (before : j ≤ k) (last : k < (ofText s).starts.length) :
      (ofText s).starts[j] ≤ (ofText s).starts[k] := by
    rcases Nat.eq_or_lt_of_le before with rfl | less
    · exact Nat.le_refl _
    · exact Nat.le_of_lt (List.pairwise_iff_getElem.mp (pairwise_starts s) j k _ last less)
  have le : (ofText s).starts[(ofText s).lineOf offset - 1] ≤ offset := by
    have fails := List.not_of_lt_findIdx (p := (offset < ·)) (Nat.sub_one_lt_of_lt pos)
    simpa [lineOf] using fails
  refine ⟨_, le, List.getElem?_eq_getElem inside, ?_, fun i after before stands => ?_⟩
  · rcases mem_starts.mp (List.getElem_mem inside) with first | ⟨i, stands, same⟩
    · exact .inl first
    · exact .inr ⟨i, same.symm, stands⟩
  · obtain ⟨j, within, here⟩ := List.getElem_of_mem (mem_starts.mpr (.inr ⟨i, stands, rfl⟩))
    rcases Nat.lt_or_ge j ((ofText s).lineOf offset) with earlier | later
    · have := sorted (Nat.le_sub_one_of_lt earlier) inside
      omega
    · have next : offset < (ofText s).starts[(ofText s).lineOf offset] := by
        have holds := List.findIdx_getElem (p := (offset < ·)) (w := Nat.lt_of_le_of_lt later within)
        simpa [lineOf] using holds
      have := sorted later within
      omega

end Lines

/-- Line feeds among the bytes number the lines: the line of an offset, the column in it and the number of lines. There
    is one line of each number up to the last, it starts where the table of starts says, and it is blank in the table of
    blank lines if and only if all its characters are blanks. -/
theorem lines_number_text (s : String) :
    (Lines.ofText s).count = 1 + (bytes s).count '\n'.toUInt8 ∧
    (∀ offset, (Lines.ofText s).lineOf offset = 1 + ((bytes s).take offset).count '\n'.toUInt8 ∧
      ∃ start ≤ offset, (Lines.ofText s).starts[(Lines.ofText s).lineOf offset - 1]? = some start ∧
        (Lines.ofText s).columnOf offset = offset - start ∧
        (start = 0 ∨ ∃ i, start = i + 1 ∧ (bytes s)[i]? = some '\n'.toUInt8) ∧
        ∀ i, start ≤ i → i < offset → (bytes s)[i]? ≠ some '\n'.toUInt8) ∧
    ∀ n, ((Lines.ofText s).isBlank n ↔ 1 ≤ n ∧ n ≤ (Lines.ofText s).count ∧
        ∃ front line rest, IsLine s n front line rest ∧ ∀ c ∈ line, isBlank c) ∧
      (1 ≤ n → n ≤ (Lines.ofText s).count → ∃! line, ∃ front rest, IsLine s n front line rest ∧
        (Lines.ofText s).starts[n - 1]? = some (byteLength front)) := by
  refine ⟨?_, fun offset => ⟨Lines.lineOf_ofText s offset, ?_⟩, fun n => ⟨?_, fun first last => ?_⟩⟩
  · rw [count_bytes (by decide), Lines.count_ofText]
  · obtain ⟨start, before, there, begins, none⟩ := Lines.exists_start s offset
    refine ⟨start, before, there, by rw [Lines.columnOf, there, Option.getD_some], ?_, ?_⟩
    · simpa only [getElem?_bytes_iff (show '\n'.toNat < 128 by decide)] using begins
    · simpa only [ne_eq, getElem?_bytes_iff (show '\n'.toNat < 128 by decide)] using none
  · cases n with
    | zero => simp [Lines.isBlank]
    | succ n =>
      rw [Lines.isBlank_ofText]
      constructor
      · rintro ⟨piece, there, blank⟩
        have within := (List.getElem?_eq_some_iff.mp there).1
        rw [length_pieces] at within
        obtain ⟨front, line, rest, is⟩ := exists_isLine s n (by omega)
        obtain rfl : line = piece := Option.some.inj (is.piece.symm.trans there)
        refine ⟨Nat.succ_pos n, ?_, front, line, rest, is, blank⟩
        rw [Lines.count_ofText]
        omega
      · rintro ⟨-, -, front, line, rest, is, blank⟩
        exact ⟨line, is.piece, blank⟩
  · obtain ⟨n, rfl⟩ := Nat.exists_eq_add_of_le' first
    rw [Lines.count_ofText] at last
    obtain ⟨front, line, rest, is⟩ := exists_isLine s n (by omega)
    refine ⟨line, ⟨front, rest, is, is.start⟩, ?_⟩
    rintro other ⟨_, _, also, -⟩
    exact Option.some.inj (also.piece.symm.trans is.piece)

end ApexLayout.Text
