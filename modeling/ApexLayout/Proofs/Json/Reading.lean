import ApexLayout.Proofs.Json.Grammar
import Mathlib.Data.List.DropRight

/-!
Reading what is written. From the text of a document the reader gives its value, and fails if it has none
(`read?_text`). Each reader takes the text of its part, and the bounds leave room for all of it.
-/
namespace ApexLayout.Json

variable {c : Char} {rest : List Char}

/-! ### Blanks -/

def IsInk (c : Char) : Prop := ¬(c = ' ' ∨ c = '\n' ∨ c = '\t' ∨ c = '\r')

instance (c : Char) : Decidable (IsInk c) := inferInstanceAs (Decidable (¬_))

theorem skipBlanks_of_isInk (ink : IsInk c) (cs : List Char) : skipBlanks (c :: cs) = c :: cs := by
  have stops : (c == ' ' || c == '\n' || c == '\t' || c == '\r') = false := by
    simpa [IsInk, and_assoc] using ink
  rw [skipBlanks, List.dropWhile_cons_of_neg (by simp [stops])]

theorem Blanks.skipBlanks_append (b : Blanks) (cs : List Char) : skipBlanks (b.chars ++ cs) = skipBlanks cs := by
  apply List.dropWhile_append_of_pos
  intro c member
  rcases b.blank c member with rfl | rfl | rfl | rfl <;> decide

theorem Blanks.skipBlanks_ink (b : Blanks) (ink : IsInk c) (cs : List Char) :
    skipBlanks (b.chars ++ c :: cs) = c :: cs := by
  rw [b.skipBlanks_append, skipBlanks_of_isInk ink]

theorem skipBlanks_skipBlanks (cs : List Char) : skipBlanks (skipBlanks cs) = skipBlanks cs :=
  List.dropWhile_idempotent _ cs

/-! ### Strings -/

theorem readUnit?_digits (a b c d : HexDigit) (rest : List Char) :
    readUnit? (a.char :: b.char :: c.char :: d.char :: rest) = some (unitValue a b c d, rest) := by
  simp [readUnit?, HexDigit.hexValue?_char, unitValue]

theorem readEscape?_letter (e : Escape) (rest : List Char) : readEscape? (e.letter :: rest) = some (e.char, rest) := by
  cases e <;> rfl

section
variable {a b c d : HexDigit}

theorem readEscape?_unit (single : ¬IsSurrogate (unitValue a b c d)) (rest : List Char) :
    readEscape? ('u' :: a.char :: b.char :: c.char :: d.char :: rest) = some (Char.ofNat (unitValue a b c d), rest) := by
  have outside : unitValue a b c d < 0xD800 ∨ 0xDFFF < unitValue a b c d := by
    rw [IsSurrogate] at single
    omega
  simp [readEscape?, readNumbered?, readUnit?_digits, outside]

/-- A surrogate is the first half of a pair, and the second half must follow. -/
theorem readEscape?_surrogate (surrogate : IsSurrogate (unitValue a b c d)) (cs : List Char) :
    readEscape? ('u' :: a.char :: b.char :: c.char :: d.char :: cs) =
      if 0xDC00 ≤ unitValue a b c d then none
      else (expect? ['\\', 'u'] cs).bind fun cs => (readUnit? cs).bind fun r =>
        if 0xDC00 ≤ r.1 ∧ r.1 ≤ 0xDFFF then
          some (Char.ofNat (0x10000 + (unitValue a b c d - 0xD800) * 0x400 + (r.1 - 0xDC00)), r.2)
        else none := by
  have inside : ¬(unitValue a b c d < 0xD800 ∨ 0xDFFF < unitValue a b c d) := by
    rw [IsSurrogate] at surrogate
    omega
  simp only [readEscape?, readNumbered?, readUnit?_digits, bind, Option.bind_some, if_neg inside]

theorem readEscape?_pair (surrogate : IsSurrogate (unitValue a b c d)) (a' b' c' d' : HexDigit) (rest : List Char) :
    readEscape? ('u' :: a.char :: b.char :: c.char :: d.char ::
        '\\' :: 'u' :: a'.char :: b'.char :: c'.char :: d'.char :: rest) =
      if unitValue a b c d < 0xDC00 ∧ IsSurrogate (unitValue a' b' c' d') ∧ 0xDC00 ≤ unitValue a' b' c' d' then
        some (Char.ofNat (0x10000 + (unitValue a b c d - 0xD800) * 0x400 + (unitValue a' b' c' d' - 0xDC00)), rest)
      else none := by
  have next (cs : List Char) : expect? ['\\', 'u'] ('\\' :: 'u' :: cs) = some cs := rfl
  rw [readEscape?_surrogate surrogate, next, Option.bind_some, readUnit?_digits, Option.bind_some]
  split
  · next second_half => exact (if_neg fun pair => Nat.not_lt.mpr second_half pair.1).symm
  · next first_half =>
    refine if_congr ⟨?_, ?_⟩ rfl rfl
    · rintro ⟨low, high⟩
      exact ⟨Nat.lt_of_not_le first_half, ⟨Nat.le_trans (by decide) low, high⟩, low⟩
    · rintro ⟨-, both, low⟩
      exact ⟨low, both.2⟩

end

theorem expect?_unit_eq_none {pieces : List Piece} (no_unit : ∀ a b c d later, pieces ≠ .unit a b c d :: later)
    (rest : List Char) : expect? ['\\', 'u'] (body pieces ++ '"' :: rest) = none := by
  cases pieces with
  | nil => rfl
  | cons piece pieces =>
    cases piece with
    | plain c _ _ no_escape => simp [expect?, body, Piece.text, Ne.symm no_escape]
    | escape e => cases e <;> rfl
    | unit a b c d => exact absurd rfl (no_unit a b c d pieces)

section
variable {pieces : List Piece} {cs rest : List Char} {c : Char}

theorem readString?_plain (printable : 0x20 ≤ c.toNat) (no_quote : c ≠ '"') (no_escape : c ≠ '\\') (bound : Nat) :
    readString? (bound + 1) (c :: cs) = (readString? bound cs).map fun r => (c :: r.1, r.2) := by
  rw [readString?, if_neg no_quote, if_neg no_escape, if_neg (Nat.not_lt.mpr printable)]
  cases readString? bound cs <;> rfl

theorem readString?_escape (read : readEscape? cs = some (c, rest)) (bound : Nat) :
    readString? (bound + 1) ('\\' :: cs) = (readString? bound rest).map fun r => (c :: r.1, r.2) := by
  simp only [readString?, if_neg (by decide : '\\' ≠ '"'), if_true, read, bind, Option.bind_some]
  cases readString? bound rest <;> rfl

theorem readString?_escape_eq_none (read : readEscape? cs = none) (bound : Nat) :
    readString? (bound + 1) ('\\' :: cs) = none := by
  simp only [readString?, if_neg (by decide : '\\' ≠ '"'), if_true, read]
  rfl

theorem body_cons (piece : Piece) (pieces : List Piece) : body (piece :: pieces) = piece.text ++ body pieces :=
  List.flatMap_cons

theorem readString?_step {bound : Nat} (later : readString? bound (body pieces ++ '"' :: rest) = (decode? pieces).map (·, rest))
    (step : readString? (bound + 1) cs = (readString? bound (body pieces ++ '"' :: rest)).map fun r => (c :: r.1, r.2)) :
    readString? (bound + 1) cs = ((decode? pieces).map (c :: ·)).map (·, rest) := by
  rw [step, later, Option.map_map, Option.map_map]
  rfl

/-- The induction follows the pieces as they are decoded, a pair of units at a time. -/
theorem readString?_body (bound : Nat) (room : (body pieces).length < bound) :
    readString? bound (body pieces ++ '"' :: rest) = (decode? pieces).map (·, rest) := by
  obtain ⟨n, rfl⟩ : ∃ n, bound = n + 1 := ⟨bound - 1, by omega⟩
  fun_induction decode? pieces generalizing n with
  | case1 => rfl
  | case2 c printable no_quote no_escape pieces ih =>
    simp only [body_cons, Piece.text, List.length_append, List.length_cons] at room
    obtain ⟨n, rfl⟩ : ∃ k, n = k + 1 := ⟨n - 1, by omega⟩
    exact readString?_step (ih n (by omega)) (readString?_plain printable no_quote no_escape _)
  | case3 e pieces ih =>
    simp only [body_cons, Piece.text, List.length_append, List.length_cons] at room
    obtain ⟨n, rfl⟩ : ∃ k, n = k + 1 := ⟨n - 1, by omega⟩
    exact readString?_step (ih n (by omega)) (readString?_escape (readEscape?_letter e _) _)
  | case4 a b c d pieces single ih =>
    simp only [body_cons, Piece.text, List.length_append, List.length_cons] at room
    obtain ⟨n, rfl⟩ : ∃ k, n = k + 1 := ⟨n - 1, by omega⟩
    exact readString?_step (ih n (by omega)) (readString?_escape (readEscape?_unit single _) _)
  | case5 a b c d surrogate a' b' c' d' pieces pair ih =>
    simp only [body_cons, Piece.text, List.length_append, List.length_cons] at room
    obtain ⟨n, rfl⟩ : ∃ k, n = k + 1 := ⟨n - 1, by omega⟩
    have read := readEscape?_pair (not_not.mp surrogate) a' b' c' d' (body pieces ++ '"' :: rest)
    rw [if_pos pair] at read
    exact readString?_step (ih n (by omega)) (readString?_escape read _)
  | case6 a b c d surrogate a' b' c' d' pieces no_pair =>
    have read := readEscape?_pair (not_not.mp surrogate) a' b' c' d' (body pieces ++ '"' :: rest)
    rw [if_neg no_pair] at read
    exact readString?_escape_eq_none read _
  | case7 a b c d pieces surrogate no_unit =>
    have read := readEscape?_surrogate (not_not.mp surrogate) (body pieces ++ '"' :: rest)
    rw [expect?_unit_eq_none no_unit, Option.bind_none, ite_self] at read
    exact readString?_escape_eq_none read _

end

/-! ### Numbers -/

def Ends (rest : List Char) : Prop := ∀ c ∈ rest.head?, isDigit c = false ∧ c ≠ '.' ∧ c ≠ 'e' ∧ c ≠ 'E'

def Takes (read : List Char → Option (Number × List Char)) (word : List Char) : Prop :=
  ∃ result : Option Number, ∀ rest, Ends rest → read (word ++ rest) = result.map (·, rest)

variable (negative : Bool) (significand : Nat) (e : Int)

theorem Digits.takeWhile_append (ds : Digits) (stops : ∀ c ∈ rest.head?, isDigit c = false) :
    (ds.chars ++ rest).takeWhile isDigit = ds.chars := by
  rw [List.takeWhile_append_of_pos ds.digits]
  cases rest with
  | nil => simp
  | cons c rest => simp [stops c rfl]

theorem Digits.dropWhile_append (ds : Digits) (stops : ∀ c ∈ rest.head?, isDigit c = false) :
    (ds.chars ++ rest).dropWhile isDigit = rest := by
  rw [List.dropWhile_append_of_pos ds.digits]
  cases rest with
  | nil => simp
  | cons c rest => simp [stops c rfl]

theorem Ends.stops (ends : Ends rest) : ∀ c ∈ rest.head?, isDigit c = false :=
  fun c here => (ends c here).1

theorem Ends.stops_exponent (ends : Ends rest) (exponent : Option Exponent) :
    ∀ c ∈ (exponentText exponent ++ rest).head?, isDigit c = false := by
  cases exponent with
  | none => exact ends.stops
  | some x =>
    rintro c ⟨⟩
    cases x.capital <;> decide

theorem Digits.chars_eq_cons (ds : Digits) : ∃ c cs, ds.chars = c :: cs ∧ isDigit c ∧ c ≠ '+' ∧ c ≠ '-' := by
  obtain ⟨c, cs, first⟩ := List.exists_cons_of_ne_nil ds.some_digit
  have digit : isDigit c := ds.digits c (by simp [first])
  refine ⟨c, cs, first, digit, ?_, ?_⟩
  · rintro rfl
    revert digit
    decide
  · rintro rfl
    revert digit
    decide

theorem takes_readExponent? (x : Exponent) : Takes (readExponent? negative significand e) x.power := by
  let size := x.digits.chars.foldl (fun n c => n * 10 + digitValue c) 0
  let down := decide (x.sign = some .minus)
  let shift : Int := if down then -(size : Int) else size
  refine ⟨if size ≤ maxExponentDigits then
      toDouble? negative significand (max (-(Nat.pow 2 31 : Int)) (min (Nat.pow 2 31 - 1) (e + shift)))
    else if significand ≠ 0 ∧ !down then none else some (.double (.zero negative)), fun rest ends => ?_⟩
  unfold readExponent?
  split
  next going cs sign =>
  obtain ⟨rfl, rfl⟩ : down = going ∧ x.digits.chars ++ rest = cs := by
    cases signed : x.sign with
    | some s =>
      cases s with
      | plus =>
        simp only [Exponent.power, signed] at sign
        cases sign
        exact ⟨by simp [down, signed], rfl⟩
      | minus =>
        simp only [Exponent.power, signed] at sign
        cases sign
        exact ⟨by simp [down, signed], rfl⟩
    | none =>
      obtain ⟨c, ds, first, -, no_plus, no_minus⟩ := x.digits.chars_eq_cons
      have spelled : x.power ++ rest = c :: (ds ++ rest) := by simp [Exponent.power, signed, first]
      rw [spelled] at sign
      split at sign
      · next same => exact absurd (List.cons.inj same).1 no_plus
      · next same => exact absurd (List.cons.inj same).1 no_minus
      · cases sign
        exact ⟨by simp [down, signed], by simp [first]⟩
  have some_digit : ¬x.digits.chars.isEmpty := by simpa using x.digits.some_digit
  simp only [x.digits.takeWhile_append ends.stops, x.digits.dropWhile_append ends.stops, if_neg some_digit]
  split
  · cases toDouble? negative significand _ <;> rfl
  · split <;> rfl

theorem takes_readScaled? (exponent : Option Exponent) :
    Takes (readScaled? negative significand e) (exponentText exponent) := by
  cases exponent with
  | none =>
    refine ⟨toDouble? negative significand e, fun rest ends => ?_⟩
    cases rest with
    | nil => rfl
    | cons c rest =>
      obtain ⟨-, -, no_mark, no_capital⟩ := ends c rfl
      show readScaled? negative significand e (c :: rest) = _
      unfold readScaled?
      split
      · next same => exact absurd (List.cons.inj same).1 no_mark
      · next same => exact absurd (List.cons.inj same).1 no_capital
      · rfl
  | some x =>
    obtain ⟨result, takes⟩ := takes_readExponent? negative significand e x
    refine ⟨result, fun rest ends => ?_⟩
    rw [← takes rest ends]
    cases capital : x.capital <;> simp [exponentText, Exponent.text, capital, readScaled?]

theorem takes_readFraction? (ds : Digits) (exponent : Option Exponent) :
    Takes (readFraction? negative significand e) (ds.chars ++ exponentText exponent) := by
  let read := readSignificand significand ds.chars
  obtain ⟨result, takes⟩ :=
    takes_readScaled? negative read.1 (e - ((ds.chars.length - read.2.length : Nat) : Int)) exponent
  refine ⟨result, fun rest ends => ?_⟩
  have stops := ends.stops_exponent exponent
  have some_digit : ¬ds.chars.isEmpty := by simpa using ds.some_digit
  rw [List.append_assoc, readFraction?]
  simp only [ds.takeWhile_append stops, ds.dropWhile_append stops, if_neg some_digit]
  exact takes rest ends

theorem Whole.no_zero_first (w : Whole) {d : Char} {ds : List Char} : w.chars ≠ '0' :: d :: ds := by
  intro spelled
  have alone := w.no_zero (by simp [spelled])
  simp [spelled] at alone

theorem readUnsigned?_point (w : Whole) (cs : List Char) :
    readUnsigned? negative (w.chars ++ '.' :: cs) =
      readFraction? negative (readSignificand 0 w.chars).1 (readSignificand 0 w.chars).2.length cs := by
  have stops : ∀ c ∈ ('.' :: cs).head?, isDigit c = false := by rintro c ⟨⟩; decide
  unfold readUnsigned?
  simp only [w.takeWhile_append stops, w.dropWhile_append stops]
  split
  · next empty => exact absurd empty w.some_digit
  · next zero => exact absurd zero w.no_zero_first
  · rfl

theorem readUnsigned?_exponent (w : Whole) (x : Exponent) (cs : List Char) :
    readUnsigned? negative (w.chars ++ (x.text ++ cs)) =
      readExponent? negative (readSignificand 0 w.chars).1 (readSignificand 0 w.chars).2.length (x.power ++ cs) := by
  have stops : ∀ c ∈ (x.text ++ cs).head?, isDigit c = false := by
    rintro c ⟨⟩
    cases x.capital <;> decide
  unfold readUnsigned?
  simp only [w.takeWhile_append stops, w.dropWhile_append stops]
  split
  · next empty => exact absurd empty w.some_digit
  · next zero => exact absurd zero w.no_zero_first
  · cases capital : x.capital <;> simp [Exponent.text, capital]

theorem readUnsigned?_whole (w : Whole) (ends : Ends rest) :
    readUnsigned? negative (w.chars ++ rest) =
      (if (readSignificand 0 w.chars).2.isEmpty then wholeNumber negative (readSignificand 0 w.chars).1
      else toDouble? negative (readSignificand 0 w.chars).1 (readSignificand 0 w.chars).2.length).map (·, rest) := by
  unfold readUnsigned?
  simp only [w.takeWhile_append ends.stops, w.dropWhile_append ends.stops]
  split
  · next empty => exact absurd empty w.some_digit
  · next zero => exact absurd zero w.no_zero_first
  split
  · exact absurd rfl (ends _ rfl).2.1
  · exact absurd rfl (ends _ rfl).2.2.1
  · exact absurd rfl (ends _ rfl).2.2.2
  · split <;> rfl

theorem takes_readUnsigned? (n : Numeral) : Takes (readUnsigned? negative) n.unsigned := by
  unfold Numeral.unsigned
  cases n.fraction with
  | some ds =>
    obtain ⟨result, takes⟩ := takes_readFraction? negative (readSignificand 0 n.whole.chars).1
      (readSignificand 0 n.whole.chars).2.length ds n.exponent
    refine ⟨result, fun rest ends => ?_⟩
    rw [← takes rest ends, ← readUnsigned?_point]
    simp [fractionText]
  | none =>
    cases n.exponent with
    | some x =>
      obtain ⟨result, takes⟩ := takes_readExponent? negative (readSignificand 0 n.whole.chars).1
        (readSignificand 0 n.whole.chars).2.length x
      refine ⟨result, fun rest ends => ?_⟩
      rw [← takes rest ends, ← readUnsigned?_exponent]
      simp [fractionText, exponentText]
    | none =>
      have takes : Takes (readUnsigned? negative) n.whole.chars := ⟨_, fun _ => readUnsigned?_whole negative n.whole⟩
      simpa [fractionText, exponentText] using takes

theorem Numeral.unsigned_eq_cons (n : Numeral) : ∃ c cs, n.unsigned = c :: cs ∧ isDigit c ∧ c ≠ '-' := by
  obtain ⟨c, cs, first, digit, -, no_minus⟩ := n.whole.chars_eq_cons
  exact ⟨c, cs ++ (fractionText n.fraction ++ exponentText n.exponent), by rw [unsigned, first, List.cons_append], digit,
    no_minus⟩

theorem takes_readNumber? (n : Numeral) : Takes readNumber? n.text := by
  obtain ⟨result, takes⟩ := takes_readUnsigned? n.negative n
  refine ⟨result, fun rest ends => ?_⟩
  rw [← takes rest ends]
  cases negative : n.negative with
  | true => simp [Numeral.text, negative, readNumber?]
  | false =>
    obtain ⟨c, cs, first, -, no_minus⟩ := n.unsigned_eq_cons
    simp only [Numeral.text, negative, first, Bool.false_eq_true, if_false, List.cons_append]
    unfold readNumber?
    split
    · next same => exact absurd (List.cons.inj same).1 no_minus
    · rfl

/-- A number is read up to its end, and its value does not depend on what comes behind it. -/
theorem readNumber?_text (n : Numeral) (ends : Ends rest) :
    readNumber? (n.text ++ rest) = n.value?.map (·, rest) := by
  obtain ⟨result, takes⟩ := takes_readNumber? n
  have alone := takes [] (by rintro c ⟨⟩)
  rw [List.append_nil] at alone
  rw [takes rest ends, Numeral.value?, alone, Option.map_map]
  cases result <;> rfl

/-! ### Values -/

theorem ends_delimiter (delimits : c = ',' ∨ c = ']' ∨ c = '\x7d') (rest : List Char) : Ends (c :: rest) := by
  rintro d ⟨⟩
  rcases delimits with rfl | rfl | rfl <;> decide

theorem Blanks.ends (b : Blanks) (ends : Ends rest) : Ends (b.chars ++ rest) := by
  cases spelled : b.chars with
  | nil => exact ends
  | cons c cs =>
    rintro d ⟨⟩
    rcases b.blank c (by simp [spelled]) with rfl | rfl | rfl | rfl <;> decide

theorem readValue?_skipBlanks (bound : Nat) (cs : List Char) : readValue? bound (skipBlanks cs) = readValue? bound cs := by
  cases bound with
  | zero => rfl
  | succ bound => rw [readValue?, readValue?, skipBlanks_skipBlanks]

theorem readItems?_skipBlanks (bound : Nat) (cs : List Char) : readItems? bound (skipBlanks cs) = readItems? bound cs := by
  cases bound with
  | zero => rfl
  | succ bound => rw [readItems?, readItems?, readValue?_skipBlanks]

theorem readFields?_skipBlanks (bound : Nat) (before : Fields) (cs : List Char) :
    readFields? bound before (skipBlanks cs) = readFields? bound before cs := by
  cases bound with
  | zero => rfl
  | succ bound => rw [readFields?, readFields?, skipBlanks_skipBlanks]

theorem readValue?_blanks (bound : Nat) (b : Blanks) (cs : List Char) :
    readValue? bound (b.chars ++ cs) = readValue? bound cs := by
  rw [← readValue?_skipBlanks, b.skipBlanks_append, readValue?_skipBlanks]

theorem Numeral.text_eq_cons (n : Numeral) : ∃ c cs, n.text = c :: cs ∧ (c = '-' ∨ isDigit c) := by
  unfold Numeral.text
  split
  · exact ⟨_, _, rfl, .inl rfl⟩
  · obtain ⟨c, cs, first, digit, -⟩ := n.unsigned_eq_cons
    exact ⟨c, cs, first, .inr digit⟩

/-- The first character of a number tells it apart from every other value. -/
theorem ne_of_starts_number {d : Char} (starts : c = '-' ∨ isDigit c) (other : ¬(d = '-' ∨ isDigit d)) : c ≠ d :=
  fun same => other (same ▸ starts)

theorem isInk_of_starts_number (starts : c = '-' ∨ isDigit c) : IsInk c := by
  have other {d : Char} (no : ¬(d = '-' ∨ isDigit d)) : c ≠ d := ne_of_starts_number starts no
  exact not_or.mpr ⟨other (by decide), not_or.mpr ⟨other (by decide), not_or.mpr ⟨other (by decide), other (by decide)⟩⟩⟩

theorem readValue?_number (n : Numeral) (bound : Nat) (ends : Ends rest) :
    readValue? (bound + 1) (n.text ++ rest) = (n.value?.map Json.number).map (·, rest) := by
  obtain ⟨c, cs, spelled, starts⟩ := n.text_eq_cons
  have other {d : Char} (no : ¬(d = '-' ∨ isDigit d)) : c ≠ d := ne_of_starts_number starts no
  have number := readNumber?_text n ends
  rw [spelled, List.cons_append] at number ⊢
  rw [readValue?, skipBlanks_of_isInk (isInk_of_starts_number starts)]
  simp only [if_neg (other (d := 'n') (by decide)), if_neg (other (d := 't') (by decide)),
    if_neg (other (d := 'f') (by decide)), if_neg (other (d := '"') (by decide)),
    if_neg (other (d := '[') (by decide)), if_neg (other (d := '\x7b') (by decide)), number]
  cases n.value? <;> rfl

theorem readValue?_string (pieces : List Piece) (bound : Nat) (room : (body pieces).length < bound) (rest : List Char) :
    readValue? (bound + 1) (quoted pieces ++ rest) = ((content? pieces).map Json.string).map (·, rest) := by
  have spelled : quoted pieces ++ rest = '"' :: (body pieces ++ '"' :: rest) := by simp [quoted]
  rw [spelled, readValue?, skipBlanks_of_isInk (by decide)]
  simp only [if_neg (by decide : '"' ≠ 'n'), if_neg (by decide : '"' ≠ 't'), if_neg (by decide : '"' ≠ 'f'), if_true,
    readString?_body bound room, content?]
  cases decode? pieces <;> rfl

section
variable {bound : Nat} {cs rest : List Char}

theorem readValue?_array_nil (closes : skipBlanks cs = ']' :: rest) :
    readValue? (bound + 1) ('[' :: cs) = some (.array [], rest) := by
  have start : skipBlanks ('[' :: cs) = '[' :: cs := rfl
  simp [readValue?, start, closes]

theorem readValue?_array (holds : ∀ rest, skipBlanks cs ≠ ']' :: rest) :
    readValue? (bound + 1) ('[' :: cs) = (readItems? bound cs).map fun r => (.array r.1, r.2) := by
  have start : skipBlanks ('[' :: cs) = '[' :: cs := rfl
  rw [← readItems?_skipBlanks]
  simp [readValue?, start]

theorem readValue?_object_nil (closes : skipBlanks cs = '\x7d' :: rest) :
    readValue? (bound + 1) ('\x7b' :: cs) = some (.object [], rest) := by
  have start : skipBlanks ('\x7b' :: cs) = '\x7b' :: cs := rfl
  simp [readValue?, start, closes]

theorem readValue?_object (holds : ∀ rest, skipBlanks cs ≠ '\x7d' :: rest) :
    readValue? (bound + 1) ('\x7b' :: cs) = (readFields? bound .empty cs).map fun r => (.object r.1, r.2) := by
  have start : skipBlanks ('\x7b' :: cs) = '\x7b' :: cs := rfl
  rw [← readFields?_skipBlanks]
  simp [readValue?, start]

end

namespace Written

/-- A value starts with a character that is neither a blank nor a closing bracket. -/
theorem text_eq_cons (t : Written) : ∃ c cs, t.text = c :: cs ∧ IsInk c ∧ c ≠ ']' := by
  cases t with
  | null | string pieces | array start items | object start fields => exact ⟨_, _, rfl, by decide, by decide⟩
  | bool value => cases value <;> exact ⟨_, _, rfl, by decide, by decide⟩
  | number n =>
    obtain ⟨c, cs, spelled, starts⟩ := n.text_eq_cons
    exact ⟨c, cs, spelled, isInk_of_starts_number starts, ne_of_starts_number starts (by decide)⟩

/-- The reader gives the value and stops right behind its text. -/
def Readable (bound : Nat) (t : Written) : Prop :=
  ∀ rest, Ends rest → readValue? bound (t.text ++ rest) = t.value?.map (·, rest)

section
variable {bound : Nat} {value : Written} {c : Char} {tail : List Char}

theorem Readable.padded (readable : Readable bound value) (lead after : Blanks)
    (delimits : c = ',' ∨ c = ']' ∨ c = '\x7d') :
    readValue? bound (lead.chars ++ (value.text ++ (after.chars ++ c :: tail))) =
      value.value?.map (·, after.chars ++ c :: tail) := by
  rw [readValue?_blanks]
  exact readable _ (after.ends (ends_delimiter delimits tail))

theorem Readable.item (readable : Readable bound value) (lead after : Blanks) (delimits : c = ']' ∨ c = ',') :
    readItems? (bound + 1) (lead.chars ++ (value.text ++ (after.chars ++ c :: tail))) =
      value.value?.bind fun item =>
        if c = ']' then some ([item], tail) else (readItems? bound tail).map fun r => (item :: r.1, r.2) := by
  have ink : IsInk c := by rcases delimits with rfl | rfl <;> decide
  rw [readItems?, readable.padded lead after (by tauto)]
  cases value.value? with
  | none => rfl
  | some item =>
    simp only [Option.map_some, bind, Option.bind_some, after.skipBlanks_ink ink]
    rcases delimits with rfl | rfl
    · rfl
    · rw [if_neg (by decide), Option.map_eq_bind]
      rfl

theorem Readable.field (readable : Readable bound value) (key : Padded (List Piece)) (lead after : Blanks)
    (room : (body key.inner).length < bound) (delimits : c = '\x7d' ∨ c = ',') (before : Fields) :
    readFields? (bound + 1) before (key.before.chars ++ (quoted key.inner ++ (key.after.chars ++
        ':' :: (lead.chars ++ (value.text ++ (after.chars ++ c :: tail)))))) =
      (decode? key.inner).bind fun name => value.value?.bind fun v =>
        if c = '\x7d' then some ((before.insert name v).toList, tail) else readFields? bound (before.insert name v) tail := by
  have ink : IsInk c := by rcases delimits with rfl | rfl <;> decide
  have read : readValue? bound (lead.chars ++ (value.text ++ (after.chars ++ c :: tail))) =
      value.value?.map (·, after.chars ++ c :: tail) := readable.padded lead after (by tauto)
  generalize lead.chars ++ (value.text ++ (after.chars ++ c :: tail)) = cs at read
  have spelled : quoted key.inner ++ (key.after.chars ++ ':' :: cs) =
      '"' :: (body key.inner ++ '"' :: (key.after.chars ++ ':' :: cs)) := by simp [quoted]
  have colon : expect? [':'] (':' :: cs) = some cs := rfl
  rw [spelled, readFields?, key.before.skipBlanks_ink (by decide)]
  simp only [readString?_body bound room]
  cases decode? key.inner with
  | none => rfl
  | some name =>
    simp only [Option.map_some, bind, Option.bind_some, key.after.skipBlanks_ink (by decide : IsInk ':'), colon, read]
    cases value.value? with
    | none => rfl
    | some v =>
      simp only [Option.map_some, Option.bind_some, after.skipBlanks_ink ink]
      rcases delimits with rfl | rfl <;> rfl

end

theorem skipBlanks_items (start : Blanks) (item : Padded Written) (items : List (Padded Written)) (cs rest : List Char) :
    skipBlanks (start.chars ++ (separated (itemTexts (item :: items)) ++ cs)) ≠ ']' :: rest := by
  obtain ⟨before, value, after⟩ := item
  obtain ⟨c, text, spelled, ink, other⟩ := value.text_eq_cons
  obtain ⟨tail, first⟩ : ∃ tail, separated (itemTexts (⟨before, value, after⟩ :: items)) = before.chars ++ c :: tail := by
    cases items <;> simp [itemTexts, spelled]
  rw [first, List.append_assoc, start.skipBlanks_append, List.cons_append, before.skipBlanks_ink ink]
  exact fun same => other (List.cons.inj same).1

theorem skipBlanks_fields (start : Blanks) (field : Padded (List Piece) × Padded Written)
    (fields : List (Padded (List Piece) × Padded Written)) (cs rest : List Char) :
    skipBlanks (start.chars ++ (separated (fieldTexts (field :: fields)) ++ cs)) ≠ '\x7d' :: rest := by
  obtain ⟨key, before, value, after⟩ := field
  obtain ⟨tail, first⟩ : ∃ tail, separated (fieldTexts ((key, ⟨before, value, after⟩) :: fields)) =
      key.before.chars ++ '"' :: tail := by
    cases fields <;> simp [fieldTexts, quoted]
  rw [first, List.append_assoc, start.skipBlanks_append, List.cons_append, key.before.skipBlanks_ink (by decide)]
  exact fun same => absurd (List.cons.inj same).1 (by decide)

mutual
theorem readable_of_room (t : Written) (bound : Nat) (room : 2 * t.text.length < bound) : Readable bound t := by
  obtain ⟨bound, rfl⟩ : ∃ n, bound = n + 1 := ⟨bound - 1, by omega⟩
  intro rest ends
  cases t with
  | null => rfl
  | bool value => cases value <;> rfl
  | number n => exact readValue?_number n bound ends
  | string pieces =>
    simp only [text, quoted, List.length_cons, List.length_append] at room
    exact readValue?_string pieces bound (by omega) rest
  | array start items =>
    have spelled : (array start items).text ++ rest = '[' :: (start.chars ++ (separated (itemTexts items) ++ ']' :: rest)) := by
      simp [text]
    rw [spelled]
    cases items with
    | nil => exact readValue?_array_nil (start.skipBlanks_ink (by decide) rest)
    | cons item items =>
      simp only [text, List.length_cons, List.length_append] at room
      rw [readValue?_array (skipBlanks_items start item items _), ← readItems?_skipBlanks, start.skipBlanks_append,
        readItems?_skipBlanks, readItems?_text (item :: items) (by simp) bound (by omega), value?]
      cases itemValues? (item :: items) <;> rfl
  | object start fields =>
    have spelled : (object start fields).text ++ rest =
        '\x7b' :: (start.chars ++ (separated (fieldTexts fields) ++ '\x7d' :: rest)) := by
      simp [text]
    rw [spelled]
    cases fields with
    | nil => exact readValue?_object_nil (start.skipBlanks_ink (by decide) rest)
    | cons field fields =>
      simp only [text, List.length_cons, List.length_append] at room
      rw [readValue?_object (skipBlanks_fields start field fields _), ← readFields?_skipBlanks, start.skipBlanks_append,
        readFields?_skipBlanks, readFields?_text (field :: fields) (by simp) bound (by omega), value?]
      change ((fieldValues? [] (field :: fields)).map _).map _ = _
      cases fieldValues? [] (field :: fields) <;> rfl
theorem readItems?_text (items : List (Padded Written)) (some_item : items ≠ []) (bound : Nat)
    (room : 2 * (separated (itemTexts items)).length + 1 < bound) (rest : List Char) :
    readItems? bound (separated (itemTexts items) ++ ']' :: rest) = (itemValues? items).map (·, rest) := by
  obtain ⟨bound, rfl⟩ : ∃ n, bound = n + 1 := ⟨bound - 1, by omega⟩
  cases items with
  | nil => exact absurd rfl some_item
  | cons item items =>
    obtain ⟨lead, value, after⟩ := item
    cases items with
    | nil =>
      have spelled : separated (itemTexts [⟨lead, value, after⟩]) ++ ']' :: rest =
          lead.chars ++ (value.text ++ (after.chars ++ ']' :: rest)) := by simp [itemTexts]
      have size := congrArg List.length spelled
      simp only [List.length_append, List.length_cons] at size
      rw [spelled, (readable_of_room value bound (by omega)).item lead after (.inl rfl), itemValues?, itemValues?]
      cases value.value? <;> rfl
    | cons next items =>
      have spelled : separated (itemTexts (⟨lead, value, after⟩ :: next :: items)) ++ ']' :: rest =
          lead.chars ++ (value.text ++ (after.chars ++ ',' :: (separated (itemTexts (next :: items)) ++ ']' :: rest))) := by
        simp [itemTexts]
      have size := congrArg List.length spelled
      simp only [List.length_append, List.length_cons] at size
      have later := readItems?_text (next :: items) (by simp) bound (by omega) rest
      rw [spelled, (readable_of_room value bound (by omega)).item lead after (.inr rfl), itemValues?]
      simp only [if_neg (by decide : ',' ≠ ']'), later]
      cases value.value? with
      | none => rfl
      | some v => cases itemValues? (next :: items) <;> rfl
theorem readFields?_text (fields : List (Padded (List Piece) × Padded Written)) (some_field : fields ≠ []) (bound : Nat)
    (room : 2 * (separated (fieldTexts fields)).length + 1 < bound) (before : Fields)
    (rest : List Char) :
    readFields? bound before (separated (fieldTexts fields) ++ '\x7d' :: rest) =
      (fieldValues? before.toList fields).map (·, rest) := by
  obtain ⟨bound, rfl⟩ : ∃ n, bound = n + 1 := ⟨bound - 1, by omega⟩
  cases fields with
  | nil => exact absurd rfl some_field
  | cons field fields =>
    obtain ⟨key, lead, value, after⟩ := field
    cases fields with
    | nil =>
      have spelled : separated (fieldTexts [(key, ⟨lead, value, after⟩)]) ++ '\x7d' :: rest =
          key.before.chars ++ (quoted key.inner ++ (key.after.chars ++
            ':' :: (lead.chars ++ (value.text ++ (after.chars ++ '\x7d' :: rest))))) := by simp [fieldTexts]
      have size := congrArg List.length spelled
      simp only [quoted, List.length_append, List.length_cons] at size
      rw [spelled, (readable_of_room value bound (by omega)).field key lead after (by omega) (.inl rfl), fieldValues?, content?]
      cases decode? key.inner with
      | none => rfl
      | some name => cases value.value? <;> simp [fieldValues?]
    | cons next fields =>
      have spelled : separated (fieldTexts ((key, ⟨lead, value, after⟩) :: next :: fields)) ++ '\x7d' :: rest =
          key.before.chars ++ (quoted key.inner ++ (key.after.chars ++ ':' :: (lead.chars ++ (value.text ++
            (after.chars ++ ',' :: (separated (fieldTexts (next :: fields)) ++ '\x7d' :: rest)))))) := by
        simp [fieldTexts]
      have size := congrArg List.length spelled
      simp only [quoted, List.length_append, List.length_cons] at size
      have later (known : Fields) := readFields?_text (next :: fields) (by simp) bound (by omega) known rest
      rw [spelled, (readable_of_room value bound (by omega)).field key lead after (by omega) (.inr rfl), fieldValues?, content?]
      simp only [if_neg (by decide : ',' ≠ '\x7d'), later]
      cases decode? key.inner with
      | none => rfl
      | some name => cases value.value? <;> simp
end

end Written

theorem read?_text (d : Document) : read? (String.ofList d.text) = d.inner.value? := by
  have size : d.text.length = d.before.chars.length + d.inner.text.length + d.after.chars.length := by
    simp [Document.text, Nat.add_assoc]
  have ending : Ends d.after.chars := by
    have none_left : Ends [] := by rintro c ⟨⟩
    simpa using d.after.ends none_left
  have read := d.inner.readable_of_room (2 * d.text.length + 2) (by omega) d.after.chars ending
  have ended : skipBlanks d.after.chars = [] := by simpa [skipBlanks] using d.after.skipBlanks_append []
  rw [← readValue?_blanks _ d.before, ← List.append_assoc, ← Document.text] at read
  rw [read?, String.toList_ofList]
  simp only [read]
  cases d.inner.value? with
  | none => rfl
  | some v => simp [ended]

end ApexLayout.Json
