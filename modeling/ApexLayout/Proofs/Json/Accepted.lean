import ApexLayout.Proofs.Json.Reading
import Mathlib.Data.List.TakeWhile

/-!
What the reader accepts: a text with a value is the text of a document, and the value is that of the document
(`read?_eq_some_iff`). So the scan for brackets finds at least as many levels in a text as its value has
(`depth_le_nestingDepth`).
-/
namespace ApexLayout.Json

variable {c : Char} {cs rest : List Char}

theorem exists_blanks (cs : List Char) : ∃ b : Blanks, cs = b.chars ++ skipBlanks cs := by
  refine ⟨⟨_, fun c member => ?_⟩, List.takeWhile_append_dropWhile.symm⟩
  simpa [or_assoc] using List.mem_takeWhile_imp member

theorem eq_of_expect? {word : List Char} (read : expect? word cs = some rest) : cs = word ++ rest := by
  obtain ⟨starts, rfl⟩ : word.isPrefixOf cs ∧ cs.drop word.length = rest := by simpa [expect?] using read
  obtain ⟨rest, rfl⟩ := List.isPrefixOf_iff_prefix.mp starts
  rw [List.drop_left]

/-! ### Strings -/

theorem exists_unit_of_readUnit? {n : Nat} (read : readUnit? cs = some (n, rest)) :
    ∃ a b c d : HexDigit, cs = a.char :: b.char :: c.char :: d.char :: rest := by
  unfold readUnit? at read
  split at read
  · simp only [bind, Option.bind_eq_some_iff, Option.some.injEq, Prod.mk.injEq] at read
    obtain ⟨_, first, _, second, _, third, _, fourth, -, rfl⟩ := read
    have digit {c : Char} {n : Nat} (found : hexValue? c = some n) : (hexValue? c).isSome := by simp [found]
    exact ⟨⟨_, digit first⟩, ⟨_, digit second⟩, ⟨_, digit third⟩, ⟨_, digit fourth⟩, rfl⟩
  · cases read

/-- An escape of a number is one unit, or two. -/
theorem exists_pieces_of_readNumbered? (read : readNumbered? cs = some (c, rest)) :
    ∃ pieces, '\\' :: 'u' :: cs = body pieces ++ rest := by
  simp only [readNumbered?, bind, Option.bind_eq_some_iff, Prod.exists] at read
  obtain ⟨first, behind, unit, read⟩ := read
  obtain ⟨a, b, c', d, rfl⟩ := exists_unit_of_readUnit? unit
  split at read
  · cases read
    exact ⟨[.unit a b c' d], rfl⟩
  split at read
  · cases read
  simp only [Option.bind_eq_some_iff, Prod.exists] at read
  obtain ⟨pair, escape, second, further, other, read⟩ := read
  obtain rfl := eq_of_expect? escape
  obtain ⟨a', b', c'', d', rfl⟩ := exists_unit_of_readUnit? other
  split at read
  · simp only [Option.some.injEq, Prod.mk.injEq] at read
    obtain ⟨-, rfl⟩ := read
    exact ⟨[.unit a b c' d, .unit a' b' c'' d'], rfl⟩
  · cases read

theorem exists_pieces_of_readEscape? (read : readEscape? cs = some (c, rest)) :
    ∃ pieces, '\\' :: cs = body pieces ++ rest := by
  have letter (e : Escape) : ∃ pieces, '\\' :: e.letter :: rest = body pieces ++ rest := ⟨[.escape e], rfl⟩
  unfold readEscape? at read
  split at read
  case h_1 => cases read; exact letter .quote
  case h_2 => cases read; exact letter .backslash
  case h_3 => cases read; exact letter .slash
  case h_4 => cases read; exact letter .backspace
  case h_5 => cases read; exact letter .formFeed
  case h_6 => cases read; exact letter .lineFeed
  case h_7 => cases read; exact letter .carriageReturn
  case h_8 => cases read; exact letter .tab
  case h_9 => exact exists_pieces_of_readNumbered? read
  case h_10 => cases read

theorem body_append (pieces more : List Piece) : body (pieces ++ more) = body pieces ++ body more :=
  List.flatMap_append

theorem exists_body_of_readString? {bound : Nat} {text : List Char} (read : readString? bound cs = some (text, rest)) :
    ∃ pieces, cs = body pieces ++ '"' :: rest := by
  fun_induction readString? bound cs generalizing text rest with
  | case1 => cases read
  | case2 => cases read
  | case3 bound cs =>
    cases read
    exact ⟨[], rfl⟩
  | case4 bound cs _ ih =>
    simp only [bind, Option.bind_eq_some_iff, Prod.exists, Option.some.injEq, Prod.mk.injEq] at read
    obtain ⟨c, behind, escape, text, _, later, -, rfl⟩ := read
    obtain ⟨first, spelled⟩ := exists_pieces_of_readEscape? escape
    obtain ⟨pieces, rfl⟩ := ih behind later
    exact ⟨first ++ pieces, by rw [spelled, body_append, List.append_assoc]⟩
  | case5 => cases read
  | case6 bound c cs no_quote no_escape printable ih =>
    simp only [bind, Option.bind_eq_some_iff, Prod.exists, Option.some.injEq, Prod.mk.injEq] at read
    obtain ⟨text, _, later, -, rfl⟩ := read
    obtain ⟨pieces, rfl⟩ := ih later
    exact ⟨.plain c (Nat.not_lt.mp printable) no_quote no_escape :: pieces, rfl⟩

theorem exists_quoted_of_readString? {bound : Nat} {text : List Char} (read : readString? bound cs = some (text, rest)) :
    ∃ pieces, '"' :: cs = quoted pieces ++ rest := by
  obtain ⟨pieces, rfl⟩ := exists_body_of_readString? read
  exact ⟨pieces, by simp [quoted]⟩

/-! ### Numbers -/

section
variable {negative : Bool} {significand : Nat} {e : Int} {n : Number}

theorem exists_digits (some_digit : cs.takeWhile isDigit ≠ []) :
    ∃ ds : Digits, ds.chars = cs.takeWhile isDigit ∧ cs = ds.chars ++ cs.dropWhile isDigit :=
  ⟨⟨_, some_digit, fun _ => List.mem_takeWhile_imp⟩, rfl, List.takeWhile_append_dropWhile.symm⟩

theorem exists_power_of_readExponent? (read : readExponent? negative significand e cs = some (n, rest)) (capital : Bool) :
    ∃ x : Exponent, x.capital = capital ∧ cs = x.power ++ rest := by
  unfold readExponent? at read
  split at read
  next down behind sign =>
  obtain ⟨signed, rfl⟩ : ∃ signed : Option Sign, cs = signed.toList.map Sign.char ++ behind := by
    split at sign
    · cases sign
      exact ⟨some .plus, rfl⟩
    · cases sign
      exact ⟨some .minus, rfl⟩
    · cases sign
      exact ⟨none, rfl⟩
  dsimp only at read
  split at read
  · cases read
  next some_digit =>
  obtain ⟨ds, -, spelled⟩ := exists_digits (by simpa using some_digit)
  obtain rfl : behind.dropWhile isDigit = rest := by
    split at read
    · simp only [bind, Option.bind_eq_some_iff, Option.some.injEq, Prod.mk.injEq] at read
      obtain ⟨_, -, -, same⟩ := read
      exact same
    · split at read
      · cases read
      · cases read
        rfl
  refine ⟨⟨capital, signed, ds⟩, rfl, ?_⟩
  rw [Exponent.power, List.append_assoc, ← spelled]

theorem exists_exponent_of_readScaled? (read : readScaled? negative significand e cs = some (n, rest)) :
    ∃ exponent : Option Exponent, cs = exponentText exponent ++ rest := by
  unfold readScaled? at read
  split at read
  · obtain ⟨x, small, rfl⟩ := exists_power_of_readExponent? read false
    exact ⟨some x, by simp [exponentText, Exponent.text, small]⟩
  · obtain ⟨x, capital, rfl⟩ := exists_power_of_readExponent? read true
    exact ⟨some x, by simp [exponentText, Exponent.text, capital]⟩
  · obtain ⟨_, -, same⟩ := Option.map_eq_some_iff.mp read
    cases same
    exact ⟨none, rfl⟩

theorem exists_fraction_of_readFraction? (read : readFraction? negative significand e cs = some (n, rest)) :
    ∃ (ds : Digits) (exponent : Option Exponent), cs = ds.chars ++ (exponentText exponent ++ rest) := by
  unfold readFraction? at read
  dsimp only at read
  split at read
  · cases read
  next some_digit =>
  obtain ⟨ds, -, spelled⟩ := exists_digits (by simpa using some_digit)
  obtain ⟨exponent, behind⟩ := exists_exponent_of_readScaled? read
  exact ⟨ds, exponent, by rw [← behind, ← spelled]⟩

theorem exists_whole (some_digit : cs.takeWhile isDigit ≠ [])
    (no_zero : ∀ d ds, cs.takeWhile isDigit ≠ '0' :: d :: ds) : ∃ w : Whole, cs = w.chars ++ cs.dropWhile isDigit := by
  obtain ⟨ds, front, spelled⟩ := exists_digits some_digit
  refine ⟨⟨ds, fun zero => ?_⟩, spelled⟩
  rw [← front] at no_zero
  obtain ⟨_ | ⟨d, more⟩, tail⟩ := List.head?_eq_some_iff.mp zero
  · exact tail
  · exact absurd tail (no_zero d more)

theorem exists_numeral_of_readUnsigned? (read : readUnsigned? negative cs = some (n, rest)) (sign : Bool) :
    ∃ m : Numeral, m.negative = sign ∧ cs = m.unsigned ++ rest := by
  unfold readUnsigned? at read
  dsimp only at read
  split at read
  · cases read
  · cases read
  next some_digit no_zero =>
  obtain ⟨w, spelled⟩ := exists_whole some_digit no_zero
  obtain ⟨fraction, exponent, behind⟩ : ∃ fraction exponent,
      cs.dropWhile isDigit = fractionText fraction ++ (exponentText exponent ++ rest) := by
    split at read
    · next point =>
      obtain ⟨ds, exponent, rfl⟩ := exists_fraction_of_readFraction? read
      exact ⟨some ds, exponent, point⟩
    · next mark =>
      obtain ⟨x, small, rfl⟩ := exists_power_of_readExponent? read false
      exact ⟨none, some x, by simp [mark, fractionText, exponentText, Exponent.text, small]⟩
    · next mark =>
      obtain ⟨x, capital, rfl⟩ := exists_power_of_readExponent? read true
      exact ⟨none, some x, by simp [mark, fractionText, exponentText, Exponent.text, capital]⟩
    · have ended : cs.dropWhile isDigit = rest := by
        split at read
        all_goals
          obtain ⟨_, -, same⟩ := Option.map_eq_some_iff.mp read
          exact (Prod.mk.inj same).2
      exact ⟨none, none, ended⟩
  refine ⟨⟨sign, w, fraction, exponent⟩, rfl, ?_⟩
  rw [Numeral.unsigned, List.append_assoc, List.append_assoc, ← behind, ← spelled]

theorem exists_numeral_of_readNumber? (read : readNumber? cs = some (n, rest)) : ∃ m : Numeral, cs = m.text ++ rest := by
  unfold readNumber? at read
  split at read
  · obtain ⟨m, negative, rfl⟩ := exists_numeral_of_readUnsigned? read true
    exact ⟨m, by simp [Numeral.text, negative]⟩
  · obtain ⟨m, positive, rfl⟩ := exists_numeral_of_readUnsigned? read false
    exact ⟨m, by simp [Numeral.text, positive]⟩

end

/-! ### Values -/

namespace Written

theorem separated_itemTexts_cons {items : List (Padded Written)} (some_item : items ≠ []) (lead after : Blanks)
    (t : Written) : separated (itemTexts (⟨lead, t, after⟩ :: items)) =
      lead.chars ++ (t.text ++ (after.chars ++ ',' :: separated (itemTexts items))) := by
  cases items with
  | nil => exact absurd rfl some_item
  | cons item items => simp [itemTexts]

theorem separated_fieldTexts_cons {fields : List (Padded (List Piece) × Padded Written)} (some_field : fields ≠ [])
    (key : Padded (List Piece)) (lead after : Blanks) (t : Written) :
    separated (fieldTexts ((key, ⟨lead, t, after⟩) :: fields)) =
      key.before.chars ++ (quoted key.inner ++ (key.after.chars ++
        ':' :: (lead.chars ++ (t.text ++ (after.chars ++ ',' :: separated (fieldTexts fields)))))) := by
  cases fields with
  | nil => exact absurd rfl some_field
  | cons field fields => simp [fieldTexts]

mutual
theorem exists_of_readValue? (bound : Nat) {cs rest : List Char} {v : Json} (read : readValue? bound cs = some (v, rest)) :
    ∃ (lead : Blanks) (t : Written), cs = lead.chars ++ (t.text ++ rest) := by
  cases bound with
  | zero => simp [readValue?] at read
  | succ bound =>
    obtain ⟨lead, spelled⟩ := exists_blanks cs
    suffices found : ∃ t : Written, skipBlanks cs = t.text ++ rest by
      obtain ⟨t, start⟩ := found
      exact ⟨lead, t, by rw [← start, ← spelled]⟩
    rw [readValue?] at read
    split at read
    · cases read
    next c inner start =>
    rw [start]
    split at read
    · next isNull =>
      obtain ⟨_, word, same⟩ := Option.map_eq_some_iff.mp read
      cases same
      exact ⟨.null, by rw [isNull, eq_of_expect? word]; rfl⟩
    split at read
    · next isTrue =>
      obtain ⟨_, word, same⟩ := Option.map_eq_some_iff.mp read
      cases same
      exact ⟨.bool true, by rw [isTrue, eq_of_expect? word]; rfl⟩
    split at read
    · next isFalse =>
      obtain ⟨_, word, same⟩ := Option.map_eq_some_iff.mp read
      cases same
      exact ⟨.bool false, by rw [isFalse, eq_of_expect? word]; rfl⟩
    split at read
    · next quote =>
      obtain ⟨_, text, same⟩ := Option.map_eq_some_iff.mp read
      cases same
      obtain ⟨pieces, string⟩ := exists_quoted_of_readString? text
      exact ⟨.string pieces, by rw [quote, string]; rfl⟩
    split at read
    · next bracket =>
      obtain ⟨gap, behind⟩ := exists_blanks inner
      split at read
      · next close =>
        cases read
        exact ⟨.array gap [], by rw [bracket, behind, close]; simp [text, itemTexts]⟩
      · obtain ⟨⟨_, _⟩, found, same⟩ := Option.map_eq_some_iff.mp read
        cases same
        obtain ⟨items, -, rest_spelled⟩ := exists_of_readItems? bound found
        exact ⟨.array gap items, by rw [bracket, behind, rest_spelled]; simp [text]⟩
    split at read
    · next brace =>
      obtain ⟨gap, behind⟩ := exists_blanks inner
      split at read
      · next close =>
        cases read
        exact ⟨.object gap [], by rw [brace, behind, close]; simp [text, fieldTexts]⟩
      · obtain ⟨⟨_, _⟩, found, same⟩ := Option.map_eq_some_iff.mp read
        cases same
        obtain ⟨fields, -, rest_spelled⟩ := exists_of_readFields? bound found
        exact ⟨.object gap fields, by rw [brace, behind, rest_spelled]; simp [text]⟩
    · obtain ⟨_, number, same⟩ := Option.map_eq_some_iff.mp read
      cases same
      obtain ⟨m, numeral⟩ := exists_numeral_of_readNumber? number
      exact ⟨.number m, numeral⟩
theorem exists_of_readItems? (bound : Nat) {cs rest : List Char} {vs : List Json}
    (read : readItems? bound cs = some (vs, rest)) :
    ∃ items : List (Padded Written), items ≠ [] ∧ cs = separated (itemTexts items) ++ ']' :: rest := by
  cases bound with
  | zero => simp [readItems?] at read
  | succ bound =>
    simp only [readItems?, bind, Option.bind_eq_some_iff, Prod.exists] at read
    obtain ⟨_, behind, first, read⟩ := read
    obtain ⟨lead, t, rfl⟩ := exists_of_readValue? bound first
    obtain ⟨after, spelled⟩ := exists_blanks behind
    split at read
    · next close =>
      cases read
      refine ⟨[⟨lead, t, after⟩], List.cons_ne_nil _ _, ?_⟩
      rw [spelled, close]
      simp [itemTexts]
    · next comma =>
      simp only [Option.bind_eq_some_iff, Prod.exists, Option.some.injEq, Prod.mk.injEq] at read
      obtain ⟨_, _, found, -, rfl⟩ := read
      obtain ⟨items, some_item, later⟩ := exists_of_readItems? bound found
      refine ⟨⟨lead, t, after⟩ :: items, List.cons_ne_nil _ _, ?_⟩
      rw [spelled, comma, later, separated_itemTexts_cons some_item]
      simp
    · cases read
theorem exists_of_readFields? (bound : Nat) {before : Fields} {known : List (String × Json)} {cs rest : List Char}
    (read : readFields? bound before cs = some (known, rest)) :
    ∃ fields : List (Padded (List Piece) × Padded Written),
      fields ≠ [] ∧ cs = separated (fieldTexts fields) ++ '\x7d' :: rest := by
  cases bound with
  | zero => simp [readFields?] at read
  | succ bound =>
    obtain ⟨start, blanks⟩ := exists_blanks cs
    rw [readFields?] at read
    split at read
    · next inner quote =>
      simp only [bind, Option.bind_eq_some_iff, Prod.exists] at read
      obtain ⟨_, ahead, name, _, colon, _, behind, found, read⟩ := read
      obtain ⟨pieces, string⟩ := exists_quoted_of_readString? name
      obtain ⟨gap, around⟩ := exists_blanks ahead
      obtain ⟨lead, t, rfl⟩ := exists_of_readValue? bound found
      obtain ⟨after, spelled⟩ := exists_blanks behind
      rw [quote, string, around, eq_of_expect? colon] at blanks
      split at read
      · next close =>
        cases read
        refine ⟨[(⟨start, pieces, gap⟩, ⟨lead, t, after⟩)], List.cons_ne_nil _ _, ?_⟩
        rw [blanks, spelled, close]
        simp [fieldTexts]
      · next comma =>
        obtain ⟨fields, some_field, later⟩ := exists_of_readFields? bound read
        refine ⟨(⟨start, pieces, gap⟩, ⟨lead, t, after⟩) :: fields, List.cons_ne_nil _ _, ?_⟩
        rw [blanks, spelled, comma, later, separated_fieldTexts_cons some_field]
        simp
      · cases read
    · cases read
end

end Written

/-- A text has a value if and only if it is the text of a document with that value. -/
theorem read?_eq_some_iff {text : String} {v : Json} :
    read? text = some v ↔ ∃ d : Document, text = String.ofList d.text ∧ d.inner.value? = some v := by
  constructor
  · intro read
    have accepted := read
    simp only [read?, bind, Option.bind_eq_some_iff, Prod.exists] at accepted
    obtain ⟨v, rest, found, done⟩ := accepted
    split at done
    · next ended =>
      obtain ⟨lead, t, spelled⟩ := Written.exists_of_readValue? _ found
      obtain ⟨after, blank⟩ := exists_blanks rest
      rw [List.isEmpty_iff.mp ended, List.append_nil] at blank
      obtain rfl : text = String.ofList (Document.text ⟨lead, t, after⟩) := by
        rw [Document.text, List.append_assoc, ← blank, ← spelled, String.ofList_toList]
      exact ⟨⟨lead, t, after⟩, rfl, by rw [← read, read?_text]⟩
    · cases done
  · rintro ⟨d, rfl, value⟩
    rw [read?_text, value]

theorem depth_le_nestingDepth {text : String} {v : Json} (read : read? text = some v) : v.depth ≤ nestingDepth text := by
  obtain ⟨d, rfl, value⟩ := read?_eq_some_iff.mp read
  rw [nestingDepth_text]
  exact (Written.depth_value value).1

end ApexLayout.Json
