import ApexLayout.Text.Scan

/-!
Texts opened at byte offsets. An offset opens a text if it is the number of bytes of some characters at its start
(`splitAt?_eq_some_iff`). The occurrences of a character are the offsets that open the text right before it
(`mem_offsetsOf`).
-/
namespace ApexLayout.Text

variable {s : String} {offset start : Nat} {c : Char}

@[simp] theorem byteLength_append (cs ds : List Char) : byteLength (cs ++ ds) = byteLength cs + byteLength ds := by
  induction cs with
  | nil => simp [byteLength]
  | cons c cs ih => simp [byteLength, ih, Nat.add_assoc]

theorem byteLength_toList (s : String) : byteLength s.toList = s.utf8ByteSize := by
  obtain ⟨cs, rfl⟩ : ∃ cs, s = String.ofList cs := ⟨s.toList, by simp⟩
  rw [String.toList_ofList]
  induction cs with
  | nil => rfl
  | cons c cs ih =>
    have split : String.ofList (c :: cs) = String.singleton c ++ String.ofList cs := by simp
    rw [byteLength, ih, split, String.utf8ByteSize_append, String.utf8ByteSize_singleton]

/-- Of two starts of one text, that of fewer bytes is a start of the other. -/
theorem prefix_of_byteLength_le {front tail other rest : List Char} (same : front ++ tail = other ++ rest)
    (less : byteLength front ≤ byteLength other) : front <+: other := by
  induction front generalizing other with
  | nil => exact List.nil_prefix
  | cons c front ih =>
    cases other with
    | nil =>
      have := c.utf8Size_pos
      simp only [byteLength] at less
      omega
    | cons d other =>
      rw [List.cons_append, List.cons_append, List.cons.injEq] at same
      obtain ⟨rfl, same⟩ := same
      simp only [byteLength] at less
      exact (List.prefix_cons_inj c).mpr (ih same (by omega))

namespace Opening

/-- Moving further passes characters of just so many bytes. -/
theorem advance?_eq_some_iff {behind ahead : List Char} {n : Nat} {o : Opening} :
    advance? behind ahead n = some o ↔
      ∃ passed, byteLength passed = n ∧ ahead = passed ++ o.ahead ∧ o.behind = passed.reverse ++ behind := by
  obtain ⟨further, left⟩ := o
  fun_induction advance? behind ahead n with
  | case1 behind ahead =>
    constructor
    · rintro ⟨⟩
      exact ⟨[], rfl, rfl, rfl⟩
    · rintro ⟨passed, none_passed, rfl, rfl⟩
      cases passed with
      | nil => rfl
      | cons c cs =>
        have := c.utf8Size_pos
        simp only [byteLength] at none_passed
        omega
  | case2 behind n =>
    constructor
    · rintro ⟨⟩
    · rintro ⟨passed, bytes, nothing, -⟩
      obtain ⟨rfl, -⟩ := List.append_eq_nil_iff.mp nothing.symm
      simp [byteLength] at bytes
  | case3 behind c cs n fits ih =>
    rw [ih]
    constructor
    · rintro ⟨passed, bytes, rfl, rfl⟩
      refine ⟨c :: passed, ?_, rfl, by simp⟩
      rw [byteLength, bytes, Nat.add_sub_of_le fits]
    · rintro ⟨passed, bytes, whole, rfl⟩
      cases passed with
      | nil => simp [byteLength] at bytes
      | cons d passed =>
        rw [List.cons_append, List.cons.injEq] at whole
        obtain ⟨rfl, rfl⟩ := whole
        rw [byteLength] at bytes
        exact ⟨passed, Nat.eq_sub_of_add_eq' bytes, rfl, by simp⟩
  | case4 behind c cs n wide =>
    constructor
    · rintro ⟨⟩
    · rintro ⟨passed, bytes, whole, -⟩
      cases passed with
      | nil => simp [byteLength] at bytes
      | cons d passed =>
        rw [List.cons_append, List.cons.injEq] at whole
        obtain ⟨rfl, -⟩ := whole
        simp only [byteLength] at bytes
        omega

end Opening

/-- A text is opened where some of its characters end, and these lie behind the opening. -/
theorem splitAt?_eq_some_iff {o : Opening} :
    splitAt? s offset = some o ↔ byteLength o.behind.reverse = offset ∧ s.toList = o.behind.reverse ++ o.ahead := by
  rw [splitAt?, Opening.advance?_eq_some_iff]
  constructor
  · rintro ⟨passed, bytes, whole, behind⟩
    rw [List.append_nil] at behind
    rw [behind, List.reverse_reverse]
    exact ⟨bytes, whole⟩
  · rintro ⟨bytes, whole⟩
    exact ⟨o.behind.reverse, bytes, whole, by simp⟩

/-- The opening right before the character that lies behind an opening. -/
theorem splitAt?_before {earlier ahead : List Char}
    (opens : splitAt? s offset = some ⟨c :: earlier, ahead⟩) :
    c.utf8Size ≤ offset ∧ splitAt? s (offset - c.utf8Size) = some ⟨earlier, c :: ahead⟩ := by
  obtain ⟨bytes, whole⟩ := splitAt?_eq_some_iff.mp opens
  rw [List.reverse_cons] at bytes whole
  rw [byteLength_append] at bytes
  simp only [byteLength, Nat.add_zero] at bytes
  refine ⟨by omega, splitAt?_eq_some_iff.mpr ⟨?_, ?_⟩⟩
  · show byteLength earlier.reverse = _
    omega
  · simpa using whole

/-- Inside the character that lies behind an opening, the text is not opened. -/
theorem splitAt?_inside {inner : Nat} {earlier ahead : List Char}
    (opens : splitAt? s offset = some ⟨c :: earlier, ahead⟩) (after : offset - c.utf8Size < inner)
    (before : inner < offset) : splitAt? s inner = none := by
  apply Option.eq_none_iff_forall_ne_some.mpr
  intro o also
  obtain ⟨fits, first⟩ := splitAt?_before opens
  obtain ⟨first_bytes, first_whole⟩ := splitAt?_eq_some_iff.mp first
  obtain ⟨bytes, whole⟩ := splitAt?_eq_some_iff.mp also
  -- What lies behind the inner opening starts with all that lies before the character, and with the character.
  obtain ⟨extra, more⟩ : earlier.reverse <+: o.behind.reverse :=
    prefix_of_byteLength_le (first_whole.symm.trans whole) (by simp only at first_bytes; omega)
  rw [whole, ← more, List.append_assoc, List.append_cancel_left_eq] at first_whole
  rw [← more, byteLength_append] at bytes
  simp only at first_bytes
  cases extra with
  | nil =>
    simp only [byteLength] at bytes
    omega
  | cons d extra =>
    rw [List.cons_append, List.cons.injEq] at first_whole
    obtain ⟨rfl, -⟩ := first_whole
    simp only [byteLength] at bytes
    omega

/-- What lies between two openings lies behind the second one, before what lies behind the first. -/
theorem slice?_eq_some_iff {part : String} {stop : Nat} :
    slice? s start stop = some part ↔
      ∃ o, splitAt? s start = some o ∧ ∃ rest, o.ahead = part.toList ++ rest ∧ start + byteLength part.toList = stop := by
  unfold slice?
  split
  · next ordered =>
    cases opens : splitAt? s start with
    | none => simp
    | some o =>
      simp only [Option.map_eq_some_iff, Opening.advance?_eq_some_iff, Option.some.injEq, exists_eq_left']
      constructor
      · rintro ⟨o', ⟨passed, bytes, whole, behind⟩, rfl⟩
        refine ⟨o'.ahead, ?_, ?_⟩
        · simpa [behind] using whole
        · rw [behind, List.append_nil, List.reverse_reverse, String.toList_ofList]
          omega
      · rintro ⟨rest, whole, bytes⟩
        exact ⟨⟨part.toList.reverse, rest⟩, ⟨part.toList, by omega, whole, by simp⟩, by simp⟩
  · next crossed =>
    constructor
    · rintro ⟨⟩
    · rintro ⟨-, -, -, -, bytes⟩
      omega

theorem splitAt?_of_slice? {part : String} {stop : Nat} (between : slice? s start stop = some part) :
    ∃ o rest, splitAt? s start = some o ∧ splitAt? s stop = some ⟨part.toList.reverse ++ o.behind, rest⟩ := by
  obtain ⟨o, opens, rest, whole, bytes⟩ := slice?_eq_some_iff.mp between
  obtain ⟨before, all⟩ := splitAt?_eq_some_iff.mp opens
  refine ⟨o, rest, opens, splitAt?_eq_some_iff.mpr ⟨?_, ?_⟩⟩
  · rw [List.reverse_append, List.reverse_reverse, byteLength_append]
    omega
  · rw [List.reverse_append, List.reverse_reverse, List.append_assoc, ← whole]
    exact all

def StandsAt (s : String) (c : Char) (offset : Nat) : Prop := ∃ behind ahead, splitAt? s offset = some ⟨behind, c :: ahead⟩

theorem mem_withOffsets {cs : List Char} :
    (offset, c) ∈ withOffsets start cs ↔ ∃ front rest, cs = front ++ c :: rest ∧ offset = start + byteLength front := by
  induction cs generalizing start with
  | nil => simp [withOffsets]
  | cons d cs ih =>
    rw [withOffsets, List.mem_cons, ih]
    constructor
    · rintro (here | ⟨front, rest, rfl, rfl⟩)
      · obtain ⟨rfl, rfl⟩ := Prod.mk.inj here
        exact ⟨[], cs, rfl, rfl⟩
      · exact ⟨d :: front, rest, rfl, by rw [byteLength, Nat.add_assoc]⟩
    · rintro ⟨front, rest, whole, rfl⟩
      cases front with
      | nil =>
        obtain ⟨rfl, rfl⟩ := List.cons.inj whole
        exact .inl rfl
      | cons e front =>
        obtain ⟨rfl, rfl⟩ := List.cons.inj whole
        exact .inr ⟨front, rest, rfl, by rw [byteLength, Nat.add_assoc]⟩

theorem standsAt_iff : StandsAt s c offset ↔ ∃ front rest, s.toList = front ++ c :: rest ∧ offset = byteLength front := by
  simp only [StandsAt, splitAt?_eq_some_iff]
  constructor
  · rintro ⟨behind, ahead, bytes, whole⟩
    exact ⟨behind.reverse, ahead, whole, bytes.symm⟩
  · rintro ⟨front, rest, whole, rfl⟩
    exact ⟨front.reverse, rest, by simp, by simpa using whole⟩

theorem mem_offsetsOf : offset ∈ offsetsOf c s ↔ StandsAt s c offset := by
  have listed : offset ∈ offsetsOf c s ↔ (offset, c) ∈ withOffsets 0 s.toList := by simp [offsetsOf]
  rw [listed, mem_withOffsets, standsAt_iff]
  simp only [Nat.zero_add]

theorem pairwise_withOffsets (start : Nat) (cs : List Char) :
    ((withOffsets start cs).map (·.1)).Pairwise (· < ·) := by
  induction cs generalizing start with
  | nil => exact .nil
  | cons c cs ih =>
    rw [withOffsets, List.map_cons, List.pairwise_cons]
    refine ⟨?_, ih _⟩
    rintro _ later
    obtain ⟨⟨offset, d⟩, member, rfl⟩ := List.mem_map.mp later
    obtain ⟨front, -, -, rfl⟩ := mem_withOffsets.mp member
    have := c.utf8Size_pos
    simp only
    omega

/-- Occurrences are listed in ascending order, and each one once. -/
theorem pairwise_offsetsOf (c : Char) (s : String) : (offsetsOf c s).Pairwise (· < ·) :=
  (pairwise_withOffsets 0 s.toList).sublist (List.Sublist.map _ List.filter_sublist)

/-! ### Bytes -/

theorem utf8EncodeChar_ascii (ascii : c.toNat < 128) : String.utf8EncodeChar c = [c.toUInt8] := by
  have low : c.val.toNat ≤ 127 := Nat.le_of_lt_succ ascii
  simp only [String.utf8EncodeChar, low, if_true]
  rfl

theorem toNat_toUInt8 (ascii : c.toNat < 128) : c.toUInt8.toNat = c.toNat := by
  rw [Char.toUInt8, UInt32.toNat_toUInt8]
  exact Nat.mod_eq_of_lt (Nat.lt_trans ascii (by decide))

/-- The bytes of a character outside ASCII are 128 and more, so a byte of ASCII is a character of its own. -/
theorem eq_of_mem_utf8EncodeChar {d : Char} (ascii : c.toNat < 128) (member : c.toUInt8 ∈ String.utf8EncodeChar d) :
    c = d := by
  by_cases also : d.toNat < 128
  · rw [utf8EncodeChar_ascii also, List.mem_singleton] at member
    rw [← Char.toNat_inj, ← toNat_toUInt8 ascii, member, toNat_toUInt8 also]
  · have high : ¬d.val.toNat ≤ 127 := fun le => also (Nat.lt_succ_of_le le)
    have wide : ∀ b ∈ String.utf8EncodeChar d, 128 ≤ b.toNat := by
      simp only [String.utf8EncodeChar, high, if_false]
      repeat' split
      all_goals
        simp only [List.forall_mem_cons, UInt8.toNat_ofNat', List.not_mem_nil, false_imp_iff, implies_true, and_true]
        omega
    have := wide _ member
    rw [toNat_toUInt8 ascii] at this
    omega

theorem length_flatMap_utf8EncodeChar (cs : List Char) : (cs.flatMap String.utf8EncodeChar).length = byteLength cs := by
  induction cs with
  | nil => rfl
  | cons c cs ih => rw [List.flatMap_cons, List.length_append, String.length_utf8EncodeChar, ih, byteLength]

/-- A byte of ASCII stands where its character does. -/
theorem getElem?_bytes_iff (ascii : c.toNat < 128) : (bytes s)[offset]? = some c.toUInt8 ↔ StandsAt s c offset := by
  rw [standsAt_iff, bytes]
  constructor
  · generalize s.toList = cs
    intro there
    induction cs generalizing offset with
    | nil => simp at there
    | cons d cs ih =>
      rw [List.flatMap_cons, List.getElem?_append, String.length_utf8EncodeChar] at there
      split at there
      · next inside =>
        obtain rfl := eq_of_mem_utf8EncodeChar ascii (List.mem_of_getElem? there)
        have one := String.length_utf8EncodeChar c
        rw [utf8EncodeChar_ascii ascii, List.length_singleton] at one
        exact ⟨[], cs, rfl, by simp only [byteLength]; omega⟩
      · next further =>
        obtain ⟨front, rest, rfl, same⟩ := ih there
        exact ⟨d :: front, rest, rfl, by simp only [byteLength]; omega⟩
  · rintro ⟨front, rest, whole, rfl⟩
    rw [whole, List.flatMap_append, List.flatMap_cons, utf8EncodeChar_ascii ascii, ← length_flatMap_utf8EncodeChar,
      List.getElem?_append_right (Nat.le_refl _)]
    simp

end ApexLayout.Text
