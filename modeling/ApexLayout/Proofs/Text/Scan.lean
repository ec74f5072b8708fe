import ApexLayout.Proofs.Text.Offset
import Mathlib.Data.List.DropRight

/-!
Scans by a cursor over bytes are walks over characters. A scan stops right before the first character that it does not
pass (`skip_ahead`, `skip_back`), so line ends are found where they stand. Empty lines are, too, unless a step of two
bytes back ends inside a character (`followsEmptyLine_iff`).
-/
namespace ApexLayout.Text

variable {s : String} {front rest : List Char} {cursor reached : Int} {way : Way}

section
variable (whole : s.toList = front ++ rest)
include whole

theorem splitAt?_byteLength : splitAt? s (byteLength front) = some ⟨front.reverse, rest⟩ :=
  splitAt?_eq_some_iff.mpr ⟨by rw [List.reverse_reverse], by rw [List.reverse_reverse, whole]⟩

theorem charAt?_byteLength : charAt? s (byteLength front) = rest.head? := by
  have inside : ¬((byteLength front : Int) < 0) := by omega
  rw [charAt?, if_neg inside, Int.toNat_natCast, splitAt?_byteLength whole, Option.bind_some]

theorem charBefore?_byteLength : charBefore? s (byteLength front) = front.getLast? := by
  rcases List.eq_nil_or_concat' front with rfl | ⟨front, c, rfl⟩
  · rfl
  · have pos := c.utf8Size_pos
    have inside : ¬((byteLength (front ++ [c]) : Int) ≤ 0) := by
      simp only [byteLength_append, byteLength]
      omega
    rw [charBefore?, if_neg inside, Int.toNat_natCast, splitAt?_byteLength whole]
    simp

theorem utf8ByteSize_eq : s.utf8ByteSize = byteLength front + byteLength rest := by
  rw [← byteLength_toList, whole, byteLength_append]

end

/-- One step back passes the last character behind, or leaves the text. -/
theorem step_back {c : Char} (whole : s.toList = front ++ c :: rest) :
    step s .back (byteLength (front ++ [c])) = byteLength front := by
  have whole : s.toList = (front ++ [c]) ++ rest := by simpa using whole
  rw [step, charBefore?_byteLength whole]
  simp [byteLength]

theorem step_back_start (s : String) : step s .back (byteLength []) = -1 := rfl

theorem skip_inside {c : Char} (passes : Char → Bool) (whole : s.toList = front ++ c :: rest) :
    skip s way passes (byteLength front) =
      if passes c then skip s way passes (step s way (byteLength front)) else some (byteLength front : Int) := by
  have pos := c.utf8Size_pos
  have size := utf8ByteSize_eq whole
  simp only [byteLength] at size
  rw [skip, if_pos (by omega), charAt?_byteLength whole]
  rfl

/-- A scan ahead stops before the first character that it does not pass, or at the end. -/
theorem skip_ahead (passes : Char → Bool) (whole : s.toList = front ++ rest) :
    skip s .ahead passes (byteLength front) = some (byteLength (front ++ rest.takeWhile passes) : Int) := by
  induction rest generalizing front with
  | nil =>
    have size := utf8ByteSize_eq whole
    simp only [byteLength, Nat.add_zero] at size
    rw [skip, if_neg (by omega), if_pos (.inr (by rw [size])), List.takeWhile_nil, List.append_nil]
  | cons c rest ih =>
    rw [skip_inside passes whole, List.takeWhile_cons]
    split
    · have further : step s .ahead (byteLength front) = byteLength (front ++ [c]) := by
        rw [step, charAt?_byteLength whole]
        simp [byteLength]
      rw [further, ih (by simpa using whole), List.append_assoc, List.singleton_append]
    · rw [List.append_nil]

/-- A scan back stops at the last character that it does not pass, or before the start. -/
theorem skip_back (passes : Char → Bool) (whole : s.toList = front ++ rest) :
    skip s .back passes (step s .back (byteLength front)) = some (step s .back (byteLength (front.rdropWhile passes))) := by
  induction front using List.reverseRecOn generalizing rest with
  | nil =>
    rw [List.rdropWhile_nil, step_back_start, skip, if_neg (by omega), if_pos (.inl rfl)]
  | append_singleton front c ih =>
    have whole : s.toList = front ++ c :: rest := by simpa using whole
    rw [step_back whole, skip_inside passes whole]
    split
    · next pass => rw [ih whole, List.rdropWhile_concat_pos _ _ _ pass]
    · next stop => rw [List.rdropWhile_concat_neg _ _ _ stop, step_back whole]

/-- Where a scan back stops, the last character that is left behind stands. -/
theorem charAt?_step_back (whole : s.toList = front ++ rest) :
    charAt? s (step s .back (byteLength front)) = front.getLast? := by
  rcases List.eq_nil_or_concat' front with rfl | ⟨front, c, rfl⟩
  · rfl
  · have whole : s.toList = front ++ c :: rest := by simpa using whole
    rw [step_back whole, charAt?_byteLength whole, List.getLast?_concat, List.head?_cons]

/-- A line end is passed if there is one. -/
theorem skipLineEnd_ne_iff : skipLineEnd s way cursor ≠ cursor ↔ ∃ c, charAt? s cursor = some c ∧ isLineEnd c := by
  unfold skipLineEnd
  split
  · next none => simp [none]
  all_goals
    next c here =>
    have pos := c.utf8Size_pos
    have pos_before := width_pos (charBefore? s cursor)
    simp only [here, Option.some.injEq, exists_eq_left', step]
    split
    · next pair => exact iff_of_true (by omega) (by rw [pair.1]; rfl)
    · split
      · next ends => exact iff_of_true (by omega) ends
      · next other => exact iff_of_false (by simp) other

theorem meetsLineEnd_iff (skips : skip s way isGap cursor = some reached) :
    meetsLineEnd s way (some cursor) ↔ ∃ c, charAt? s reached = some c ∧ isLineEnd c := by
  rw [← skipLineEnd_ne_iff, meetsLineEnd, Option.bind_some, skips, Option.map_some, bne_iff_ne, ne_eq, Option.some.injEq]
  exact ne_comm

theorem isLineEnd_iff {c : Char} : isLineEnd c ↔ c ∈ ['\n', '\r', '\u2028', '\u2029'] := by
  simp [isLineEnd, or_assoc]

/-- Between any two characters of a text, and at its ends, a line ends if and only if the first character ahead that is
    no space or tab is one of the four line ends, and a line starts if and only if the last one behind is. -/
theorem endsLine_startsLine_iff (front rest : List Char) :
    (endsLine (String.ofList (front ++ rest)) (byteLength front) ↔
      ∃ c ∈ ['\n', '\r', '\u2028', '\u2029'], rest.find? (fun c => c ≠ ' ' ∧ c ≠ '\t') = some c) ∧
    (startsLine (String.ofList (front ++ rest)) (byteLength front) ↔
      ∃ c ∈ ['\n', '\r', '\u2028', '\u2029'], front.reverse.find? (fun c => c ≠ ' ' ∧ c ≠ '\t') = some c) := by
  have whole : (String.ofList (front ++ rest)).toList = front ++ rest := String.toList_ofList
  have gap : (fun c => decide (c ≠ ' ' ∧ c ≠ '\t')) = fun c => !isGap c := by
    funext c
    rw [Bool.eq_iff_iff]
    simp [isGap]
  rw [gap]
  refine ⟨?_, ?_⟩
  · rw [endsLine, meetsLineEnd_iff (skip_ahead isGap whole), List.find?_eq_head?_dropWhile_not]
    have split : (String.ofList (front ++ rest)).toList = (front ++ rest.takeWhile isGap) ++ rest.dropWhile isGap := by
      rw [whole, List.append_assoc, List.takeWhile_append_dropWhile]
    rw [charAt?_byteLength split]
    simp only [isLineEnd_iff, Bool.not_not, and_comm]
  · rw [startsLine, meetsLineEnd_iff (skip_back isGap whole), List.find?_eq_head?_dropWhile_not]
    obtain ⟨gaps, kept⟩ := List.rdropWhile_prefix isGap front
    have split : (String.ofList (front ++ rest)).toList = front.rdropWhile isGap ++ (gaps ++ rest) := by
      rw [whole, ← List.append_assoc, kept]
    rw [charAt?_step_back split, List.rdropWhile, List.getLast?_reverse]
    simp only [isLineEnd_iff, Bool.not_not, and_comm]

/-! ### Empty lines -/

variable {before chars : List Char}

/-- A carriage return with its line feed, or another line end. A line feed counts by itself behind no carriage return. -/
def IsLineBreak (before chars : List Char) : Prop :=
  chars = ['\r', '\n'] ∨ ∃ c ∈ ['\n', '\r', '\u2028', '\u2029'], chars = [c] ∧ ¬(c = '\n' ∧ before.getLast? = some '\r')

/-- A line break stands behind the first characters, and then nothing but spaces and tabs. -/
def Breaks (before front : List Char) : Prop :=
  ∃ chars, IsLineBreak before chars ∧ front.rdropWhile isGap = before ++ chars

theorem exists_breaks_iff : (∃ before, Breaks before front) ↔
    ∃ c, (front.rdropWhile isGap).getLast? = some c ∧ isLineEnd c := by
  constructor
  · rintro ⟨before, _, rfl | ⟨c, ends, rfl, -⟩, dropped⟩
    · exact ⟨'\n', by simp [dropped], rfl⟩
    · exact ⟨c, by simp [dropped], isLineEnd_iff.mpr ends⟩
  · rintro ⟨c, last, ends⟩
    obtain ⟨before, dropped⟩ := List.getLast?_eq_some_iff.mp last
    by_cases pair : c = '\n' ∧ before.getLast? = some '\r'
    · obtain ⟨rfl, earlier⟩ := pair
      obtain ⟨first, rfl⟩ := List.getLast?_eq_some_iff.mp earlier
      exact ⟨first, _, .inl rfl, by simp [dropped]⟩
    · exact ⟨before, [c], .inr ⟨c, isLineEnd_iff.mp ends, rfl, pair⟩, dropped⟩

/-- A line break is passed, but a carriage return with its line feed only by two bytes. -/
theorem skipLineEnd_back (whole : s.toList = before ++ chars ++ rest) (breaks : IsLineBreak before chars) :
    skipLineEnd s .back (step s .back (byteLength (before ++ chars))) =
      if chars = ['\r', '\n'] then byteLength before - (1 : Int) else step s .back (byteLength before) := by
  rcases breaks with rfl | ⟨c, listed, rfl, single⟩
  · have whole : s.toList = (before ++ ['\r']) ++ '\n' :: rest := by simpa using whole
    have bytes : byteLength (before ++ ['\r']) = byteLength before + 1 := byteLength_append ..
    rw [List.append_cons, step_back whole]
    simp only [skipLineEnd, charAt?_byteLength whole, charBefore?_byteLength whole, List.head?_cons, List.getLast?_concat]
    simp only [bytes, and_self, ↓reduceIte]
    omega
  · have whole : s.toList = before ++ c :: rest := by simpa using whole
    rw [step_back whole]
    simp [skipLineEnd, charAt?_byteLength whole, charBefore?_byteLength whole, single, isLineEnd_iff.mpr listed]

/-- From one byte back a scan goes on if the last character behind has one byte, and is lost otherwise. -/
theorem skip_byte_back (passes : Char → Bool) (whole : s.toList = front ++ rest) :
    skip s .back passes (byteLength front - (1 : Int)) =
      if front.getLast?.all (·.utf8Size == 1) then skip s .back passes (step s .back (byteLength front)) else none := by
  rcases List.eq_nil_or_concat' front with rfl | ⟨front, c, rfl⟩
  · rfl
  simp only [List.getLast?_concat, Option.all_some, beq_iff_eq]
  split
  · next narrow =>
    rw [step, charBefore?_byteLength whole, List.getLast?_concat]
    simp [narrow]
  · next wide =>
    have pos := c.utf8Size_pos
    have size := utf8ByteSize_eq whole
    have bytes : byteLength (front ++ [c]) = byteLength front + c.utf8Size := byteLength_append ..
    have opens := splitAt?_byteLength whole
    rw [List.reverse_concat] at opens
    have lost : splitAt? s (byteLength (front ++ [c]) - 1) = none := splitAt?_inside opens (by omega) (by omega)
    rw [skip, if_pos (by omega), charAt?, if_neg (by omega), show Int.toNat _ = byteLength (front ++ [c]) - 1 by omega, lost]
    rfl

section
variable (whole : s.toList = front ++ rest)
include whole

theorem toList_rdropWhile : ∃ rest, s.toList = front.rdropWhile isGap ++ rest := by
  obtain ⟨gaps, kept⟩ := List.rdropWhile_prefix isGap front
  exact ⟨gaps ++ rest, by rw [whole, ← List.append_assoc, kept]⟩

theorem startsLine_iff_breaks : startsLine s (byteLength front) ↔ ∃ before, Breaks before front := by
  obtain ⟨rest, split⟩ := toList_rdropWhile whole
  rw [startsLine, meetsLineEnd_iff (skip_back isGap whole), charAt?_step_back split, exists_breaks_iff]

theorem followsEmptyLine_eq : followsEmptyLine s (byteLength front) =
    meetsLineEnd s .back (some (skipLineEnd s .back (step s .back (byteLength (front.rdropWhile isGap))))) := by
  rw [followsEmptyLine, skip_back isGap whole, Option.map_some]

theorem exists_breaks (follows : followsEmptyLine s (byteLength front)) : ∃ before, Breaks before front := by
  obtain ⟨rest, split⟩ := toList_rdropWhile whole
  by_contra none
  have stays := mt exists_breaks_iff.mpr none
  rw [← charAt?_step_back split, ← skipLineEnd_ne_iff, not_not] at stays
  rw [followsEmptyLine_eq whole, stays, ← startsLine, startsLine_iff_breaks split] at follows
  simp only [Breaks, List.rdropWhile_idempotent] at follows none
  exact none follows

/-- Before the last line break the scan goes on, unless it is lost. -/
theorem followsEmptyLine_of_breaks (breaks : IsLineBreak before chars)
    (dropped : front.rdropWhile isGap = before ++ chars) :
    followsEmptyLine s (byteLength front) ↔
      (∃ earlier, Breaks earlier before) ∧ (chars = ['\r', '\n'] → before.getLast?.all (·.utf8Size == 1)) := by
  obtain ⟨rest, split⟩ := toList_rdropWhile whole
  rw [dropped] at split
  have behind : s.toList = before ++ (chars ++ rest) := by rw [split, List.append_assoc]
  rw [followsEmptyLine_eq whole, dropped, skipLineEnd_back split breaks, ← startsLine_iff_breaks behind, startsLine]
  by_cases pair : chars = ['\r', '\n']
  · rw [if_pos pair, meetsLineEnd, Option.bind_some, skip_byte_back isGap behind]
    by_cases narrow : before.getLast?.all (·.utf8Size == 1)
    · rw [if_pos narrow, and_iff_left fun _ => narrow]
      rfl
    · rw [if_neg narrow]
      exact iff_of_false (by simp) fun both => narrow (both.2 pair)
  · simp [pair]

end

/-- At any place between the characters of a text, the line before is found empty if and only if two line breaks stand
    behind the place, with nothing but spaces and tabs behind each of them, and the last one is not a carriage return with
    its line feed right behind a separator of several bytes, which the scan misses. -/
theorem followsEmptyLine_iff (front rest : List Char) :
    followsEmptyLine (String.ofList (front ++ rest)) (byteLength front) ↔
      (∃ before middle, Breaks before middle ∧ Breaks middle front) ∧
      ¬∃ earlier, ∃ c ∈ ['\u2028', '\u2029'], front.rdropWhile isGap = earlier ++ [c] ++ ['\r', '\n'] := by
  have whole : (String.ofList (front ++ rest)).toList = front ++ rest := String.toList_ofList
  constructor
  · intro follows
    obtain ⟨middle, chars, last, dropped⟩ := exists_breaks whole follows
    obtain ⟨⟨before, first⟩, -⟩ := (followsEmptyLine_of_breaks whole last dropped).mp follows
    refine ⟨⟨before, middle, first, chars, last, dropped⟩, ?_⟩
    rintro ⟨earlier, c, separator, split⟩
    obtain ⟨-, narrow⟩ := (followsEmptyLine_of_breaks whole (.inl rfl) split).mp follows
    have single := narrow rfl
    rw [List.getLast?_concat] at single
    simp only [List.mem_cons, List.not_mem_nil, or_false] at separator
    rcases separator with rfl | rfl <;> cases single
  · rintro ⟨⟨before, middle, first, chars, last, dropped⟩, found⟩
    refine (followsEmptyLine_of_breaks whole last dropped).mpr ⟨⟨before, first⟩, ?_⟩
    rintro rfl
    rcases List.eq_nil_or_concat' middle with rfl | ⟨earlier, c, rfl⟩
    · rfl
    -- A character of several bytes is no gap, so it is the line break before, and a separator.
    by_contra wide
    rw [List.getLast?_concat] at wide
    have other : ¬isGap c := by
      rintro gap
      simp only [isGap, Bool.or_eq_true, beq_iff_eq] at gap
      rcases gap with rfl | rfl <;> exact wide rfl
    obtain ⟨d, ends, listed⟩ := exists_breaks_iff.mp ⟨before, first⟩
    rw [List.rdropWhile_concat_neg _ _ _ other, List.getLast?_concat, Option.some.injEq] at ends
    subst ends
    rw [isLineEnd_iff] at listed
    simp only [List.mem_cons, List.not_mem_nil, or_false] at listed
    rcases listed with rfl | rfl | rfl | rfl
    · exact wide rfl
    · exact wide rfl
    all_goals exact found ⟨earlier, _, by simp, dropped⟩

/-- The line that a separator ends is empty, but not found so before a carriage return with its line feed. -/
theorem followsEmptyLine_separator :
    (Breaks [] ['\u2028'] ∧ Breaks ['\u2028'] ['\u2028', '\r', '\n']) ∧
      followsEmptyLine (String.ofList ['\u2028', '\r', '\n']) (byteLength ['\u2028', '\r', '\n']) = false := by
  have whole : (String.ofList ['\u2028', '\r', '\n']).toList = ['\u2028', '\r', '\n'] ++ [] := String.toList_ofList
  have separator : Breaks [] ['\u2028'] := ⟨['\u2028'], .inr ⟨'\u2028', by decide, rfl, by decide⟩, rfl⟩
  have dropped : List.rdropWhile isGap ['\u2028', '\r', '\n'] = ['\u2028'] ++ ['\r', '\n'] := rfl
  refine ⟨⟨separator, _, .inl rfl, dropped⟩, ?_⟩
  rw [← Bool.not_eq_true, followsEmptyLine_of_breaks whole (.inl rfl) dropped]
  exact fun follows => Bool.false_ne_true (follows.2 rfl)

end ApexLayout.Text
