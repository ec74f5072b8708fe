import ApexLayout.Json.Reader

/-!
The grammar of JSON texts. A document is a value as it is written, with its blanks, pieces and digits. The scan for
brackets finds its levels (`nestingDepth_text`), and its value has at most as many (`Written.depth_value`). The scan
goes a character at a time; brackets around a text add one level to those it goes through (`Nests`).
-/
namespace ApexLayout.Json

/-! ### The scan for brackets -/

section
variable {c : Char} {cs rest : List Char}

/-- A character that is neither a bracket nor a quote. -/
def IsPlain (c : Char) : Prop := c ≠ '"' ∧ ¬(c = '\x7b' ∨ c = '[') ∧ ¬(c = '\x7d' ∨ c = ']')

instance : Decidable (IsPlain c) := inferInstanceAs (Decidable (_ ∧ _))

/-- The count of brackets is the same at two places of a text. -/
def Passes (cs rest : List Char) : Prop := ∀ depth, nesting depth .outside cs = nesting depth .outside rest

theorem Passes.refl (cs : List Char) : Passes cs cs := fun _ => rfl

theorem Passes.trans {further : List Char} (first : Passes cs rest) (second : Passes rest further) : Passes cs further :=
  fun depth => (first depth).trans (second depth)

theorem passes_cons (plain : IsPlain c) (cs : List Char) : Passes (c :: cs) cs := by
  obtain ⟨no_quote, no_open, no_close⟩ := plain
  intro depth
  rw [nesting, if_neg no_quote, if_neg no_open, if_neg no_close]

theorem passes_append {word : List Char} (plain : ∀ c ∈ word, IsPlain c) (cs : List Char) : Passes (word ++ cs) cs := by
  induction word with
  | nil => exact .refl cs
  | cons c word ih =>
    have later := ih fun other member => plain other (List.mem_cons_of_mem _ member)
    exact (passes_cons (plain c List.mem_cons_self) _).trans later

theorem isPlain_of_isDigit (digit : isDigit c) : IsPlain c := by
  obtain ⟨above, below⟩ : '0' ≤ c ∧ c ≤ '9' := by simpa [isDigit] using digit
  refine ⟨?_, ?_, ?_⟩
  · rintro rfl
    revert above
    decide
  · rintro (rfl | rfl) <;> (revert below; decide)
  · rintro (rfl | rfl) <;> (revert below; decide)

theorem nesting_inString (no_escape : c ≠ '\\') (no_quote : c ≠ '"') (depth : Nat) (cs : List Char) :
    nesting depth .inString (c :: cs) = nesting depth .inString cs := by
  rw [nesting, if_neg no_escape, if_neg no_quote]

theorem nesting_hexValue? {n : Nat} (digit : hexValue? c = some n) (depth : Nat) (cs : List Char) :
    nesting depth .inString (c :: cs) = nesting depth .inString cs := by
  have no_escape : hexValue? '\\' = none := by decide
  have no_quote : hexValue? '"' = none := by decide
  apply nesting_inString
  · rintro rfl
    simp [no_escape] at digit
  · rintro rfl
    simp [no_quote] at digit

/-- The deepest level of a text that goes on at some level. -/
def reach (depth : Nat) (cs : List Char) : Nat := max depth (nesting depth .outside cs)

theorem Passes.reach_eq (passes : Passes cs rest) (depth : Nat) : reach depth cs = reach depth rest := by
  rw [reach, reach, passes depth]

/-- The text goes through so many levels and comes back to the level it starts at. -/
def Nests (levels : Nat) (text : List Char) : Prop :=
  ∀ depth rest, reach depth (text ++ rest) = max (depth + levels) (reach depth rest)

variable {levels more : Nat} {text other : List Char}

theorem Nests.append (first : Nests levels text) (second : Nests more other) :
    Nests (max levels more) (text ++ other) := by
  intro depth rest
  rw [List.append_assoc, first, second]
  omega

theorem nests_plain (plain : ∀ c ∈ text, IsPlain c) : Nests 0 text := by
  intro depth rest
  rw [(passes_append plain rest).reach_eq, reach]
  omega

theorem Nests.bracketed {d : Char} (nests : Nests levels text)
    (opens : c = '\x7b' ∨ c = '[') (closes : d = '\x7d' ∨ d = ']') :
    Nests (1 + levels) (c :: (text ++ [d])) := by
  have no_quote : c ≠ '"' := by rintro rfl; revert opens; decide
  have no_quote' : d ≠ '"' := by rintro rfl; revert closes; decide
  have no_open : ¬(d = '\x7b' ∨ d = '[') := by rcases closes with rfl | rfl <;> decide
  intro depth rest
  have inner := nests (depth + 1) (d :: rest)
  simp only [reach, nesting, if_neg no_quote', if_neg no_open, if_pos closes, Nat.add_sub_cancel] at inner
  simp only [reach, List.cons_append, List.append_assoc, List.nil_append, nesting, if_neg no_quote, if_pos opens]
  omega

end

/-! ### Blanks and strings -/

/-- White space between tokens. -/
structure Blanks where
  chars : List Char
  blank : ∀ c ∈ chars, c = ' ' ∨ c = '\n' ∨ c = '\t' ∨ c = '\r'

/-- An escape of one letter. -/
inductive Escape where
  | quote
  | backslash
  | slash
  | backspace
  | formFeed
  | lineFeed
  | carriageReturn
  | tab
  deriving DecidableEq

/-- The letter behind the backslash. -/
def Escape.letter : Escape → Char
  | .quote => '"'
  | .backslash => '\\'
  | .slash => '/'
  | .backspace => 'b'
  | .formFeed => 'f'
  | .lineFeed => 'n'
  | .carriageReturn => 'r'
  | .tab => 't'

/-- The character that is meant. -/
def Escape.char : Escape → Char
  | .quote => '"'
  | .backslash => '\\'
  | .slash => '/'
  | .backspace => '\x08'
  | .formFeed => '\x0c'
  | .lineFeed => '\n'
  | .carriageReturn => '\r'
  | .tab => '\t'

/-- A digit of base sixteen, in either case. -/
structure HexDigit where
  char : Char
  valid : (hexValue? char).isSome

def HexDigit.value (digit : HexDigit) : Nat := (hexValue? digit.char).get digit.valid

theorem HexDigit.hexValue?_char (digit : HexDigit) : hexValue? digit.char = some digit.value :=
  (Option.some_get digit.valid).symm

/-- A part of a string, as it is written. -/
inductive Piece where
  | plain (c : Char) (printable : 0x20 ≤ c.toNat) (no_quote : c ≠ '"') (no_escape : c ≠ '\\')
  | escape (e : Escape)
  /-- A unit of sixteen bits. -/
  | unit (a b c d : HexDigit)

def Piece.text : Piece → List Char
  | .plain c _ _ _ => [c]
  | .escape e => ['\\', e.letter]
  | .unit a b c d => ['\\', 'u', a.char, b.char, c.char, d.char]

/-- What stands between the quotes. -/
def body (pieces : List Piece) : List Char := pieces.flatMap Piece.text

/-- A string as it is written. -/
def quoted (pieces : List Piece) : List Char := '"' :: (body pieces ++ ['"'])

/-- The unit that four digits spell. -/
def unitValue (a b c d : HexDigit) : Nat := ((a.value * 16 + b.value) * 16 + c.value) * 16 + d.value

/-- The unit is one half of a pair. -/
def IsSurrogate (unit : Nat) : Prop := 0xD800 ≤ unit ∧ unit ≤ 0xDFFF

instance (unit : Nat) : Decidable (IsSurrogate unit) := inferInstanceAs (Decidable (_ ∧ _))

/-- The characters of a string, unless a surrogate is not part of a pair. -/
def decode? : List Piece → Option (List Char)
  | [] => some []
  | .plain c _ _ _ :: pieces => (decode? pieces).map (c :: ·)
  | .escape e :: pieces => (decode? pieces).map (e.char :: ·)
  | .unit a b c d :: pieces =>
    if ¬IsSurrogate (unitValue a b c d) then (decode? pieces).map (Char.ofNat (unitValue a b c d) :: ·)
    else
      match pieces with
      | .unit a' b' c' d' :: pieces =>
        if unitValue a b c d < 0xDC00 ∧ IsSurrogate (unitValue a' b' c' d') ∧ 0xDC00 ≤ unitValue a' b' c' d' then
          (decode? pieces).map
            (Char.ofNat (0x10000 + (unitValue a b c d - 0xD800) * 0x400 + (unitValue a' b' c' d' - 0xDC00)) :: ·)
        else none
      | _ => none

/-- The string that is meant. -/
def content? (pieces : List Piece) : Option String := (decode? pieces).map String.ofList

/-! ### Numbers -/

/-- At least one digit. -/
structure Digits where
  chars : List Char
  some_digit : chars ≠ []
  digits : ∀ c ∈ chars, isDigit c

/-- The digits before the point: a zero stands alone. -/
structure Whole extends Digits where
  no_zero : chars.head? = some '0' → chars = ['0']

inductive Sign where
  | plus
  | minus
  deriving DecidableEq

def Sign.char : Sign → Char
  | .plus => '+'
  | .minus => '-'

/-- The power of ten behind a number. -/
structure Exponent where
  /-- The mark is a capital letter. -/
  capital : Bool
  sign : Option Sign
  digits : Digits

/-- A number as it is written. -/
structure Numeral where
  negative : Bool
  whole : Whole
  fraction : Option Digits
  exponent : Option Exponent

/-- The sign and the digits of an exponent. -/
def Exponent.power (x : Exponent) : List Char := x.sign.toList.map Sign.char ++ x.digits.chars

/-- An exponent with its mark. -/
def Exponent.text (x : Exponent) : List Char := (if x.capital then 'E' else 'e') :: x.power

/-- The fraction of a number with its point, if there is one. -/
def fractionText (fraction : Option Digits) : List Char := (fraction.map fun ds => '.' :: ds.chars).getD []

/-- The exponent of a number, if there is one. -/
def exponentText (exponent : Option Exponent) : List Char := (exponent.map Exponent.text).getD []

/-- A number without its sign. -/
def Numeral.unsigned (n : Numeral) : List Char := n.whole.chars ++ (fractionText n.fraction ++ exponentText n.exponent)

/-- A number with its sign. -/
def Numeral.text (n : Numeral) : List Char := if n.negative then '-' :: n.unsigned else n.unsigned

/-- The number, unless it is too large. -/
def Numeral.value? (n : Numeral) : Option Number := (readNumber? n.text).map (·.1)

/-! ### Values -/

/-- Something with blanks on both sides. -/
structure Padded (α : Type) where
  before : Blanks
  inner : α
  after : Blanks

/-- Texts with commas between them. -/
def separated (texts : List (List Char)) : List Char := List.intercalate [','] texts

@[simp] theorem separated_nil : separated [] = [] := rfl

@[simp] theorem separated_singleton (text : List Char) : separated [text] = text := by simp [separated, List.intercalate]

@[simp] theorem separated_cons_cons (text next : List Char) (texts : List (List Char)) :
    separated (text :: next :: texts) = text ++ ',' :: separated (next :: texts) := by
  simp [separated, List.intercalate]

/-- A value as it is written. -/
inductive Written where
  | null
  | bool (value : Bool)
  | number (n : Numeral)
  | string (pieces : List Piece)
  | array (start : Blanks) (items : List (Padded Written))
  | object (start : Blanks) (fields : List (Padded (List Piece) × Padded Written))

/-- The value of a text, and the blanks around it. -/
abbrev Document := Padded Written

namespace Written

mutual
/-- The text of a value. -/
def text : Written → List Char
  | .null => ['n', 'u', 'l', 'l']
  | .bool true => ['t', 'r', 'u', 'e']
  | .bool false => ['f', 'a', 'l', 's', 'e']
  | .number n => n.text
  | .string pieces => quoted pieces
  | .array start items => '[' :: (start.chars ++ separated (itemTexts items) ++ [']'])
  | .object start fields => '\x7b' :: (start.chars ++ separated (fieldTexts fields) ++ ['\x7d'])
/-- The texts of the items of an array. -/
def itemTexts : List (Padded Written) → List (List Char)
  | [] => []
  | ⟨before, value, after⟩ :: items => (before.chars ++ value.text ++ after.chars) :: itemTexts items
/-- The texts of the fields of an object. -/
def fieldTexts : List (Padded (List Piece) × Padded Written) → List (List Char)
  | [] => []
  | (key, ⟨before, value, after⟩) :: fields =>
    (key.before.chars ++ quoted key.inner ++ key.after.chars ++ [':'] ++ (before.chars ++ value.text ++ after.chars)) ::
      fieldTexts fields
end

mutual
/-- How deep objects and arrays are nested in what is written. -/
def depth : Written → Nat
  | .array _ items => 1 + itemDepths items
  | .object _ fields => 1 + fieldDepths fields
  | _ => 0
def itemDepths : List (Padded Written) → Nat
  | [] => 0
  | ⟨_, value, _⟩ :: items => max value.depth (itemDepths items)
def fieldDepths : List (Padded (List Piece) × Padded Written) → Nat
  | [] => 0
  | (_, ⟨_, value, _⟩) :: fields => max value.depth (fieldDepths fields)
end

mutual
/-- The value that is written. A repeated key keeps its first place and takes the last value. -/
def value? : Written → Option Json
  | .null => some .null
  | .bool value => some (.bool value)
  | .number n => n.value?.map .number
  | .string pieces => (content? pieces).map .string
  | .array _ items => (itemValues? items).map .array
  | .object _ fields => (fieldValues? [] fields).map .object
/-- The items of an array, if all of them have values. -/
def itemValues? : List (Padded Written) → Option (List Json)
  | [] => some []
  | ⟨_, value, _⟩ :: items => do
    let first ← value.value?
    let later ← itemValues? items
    some (first :: later)
/-- The fields of an object, added to those before them. -/
def fieldValues? (before : List (String × Json)) :
    List (Padded (List Piece) × Padded Written) → Option (List (String × Json))
  | [] => some before
  | (key, ⟨_, value, _⟩) :: fields => do
    let name ← content? key.inner
    let first ← value.value?
    fieldValues? (insert before name first) fields
end

/-- The keys of an object, as they are meant. -/
def keys (fields : List (Padded (List Piece) × Padded Written)) : List (Option String) :=
  fields.map fun field => content? field.1.inner

mutual
/-- No object has a key twice, whichever way it is spelled. -/
def KeysDistinct : Written → Prop
  | .array _ items => ItemsDistinct items
  | .object _ fields => (keys fields).Nodup ∧ FieldsDistinct fields
  | _ => True
def ItemsDistinct : List (Padded Written) → Prop
  | [] => True
  | ⟨_, value, _⟩ :: items => value.KeysDistinct ∧ ItemsDistinct items
def FieldsDistinct : List (Padded (List Piece) × Padded Written) → Prop
  | [] => True
  | (_, ⟨_, value, _⟩) :: fields => value.KeysDistinct ∧ FieldsDistinct fields
end

end Written

/-- The text of a document. -/
def Document.text (d : Document) : List Char := d.before.chars ++ d.inner.text ++ d.after.chars

section
variable {levels more : Nat} {text : List Char}

theorem Blanks.nests (b : Blanks) : Nests 0 b.chars := by
  apply nests_plain
  intro c member
  rcases b.blank c member with rfl | rfl | rfl | rfl <;> decide

theorem Nests.padded (nests : Nests levels text) (before after : Blanks) :
    Nests levels (before.chars ++ text ++ after.chars) := by
  simpa using (before.nests.append nests).append after.nests

theorem Nests.separated {texts : List (List Char)} (first : Nests levels text)
    (later : Nests more (separated texts)) :
    Nests (max levels more) (separated (text :: texts)) := by
  cases texts with
  | nil =>
    obtain rfl : more = 0 := by simpa [reach, nesting, eq_comm] using later 0 []
    simpa using first
  | cons next texts =>
    have comma : Nests 0 [','] := nests_plain (by simp [IsPlain])
    simpa using first.append (comma.append later)

end

/-! ### Levels of what is written -/

theorem nesting_body (pieces : List Piece) (depth : Nat) (rest : List Char) :
    nesting depth .inString (body pieces ++ rest) = nesting depth .inString rest := by
  induction pieces with
  | nil => rfl
  | cons piece pieces ih =>
    rw [body, List.flatMap_cons, List.append_assoc, ← body]
    cases piece with
    | plain c _ no_quote no_escape => exact (nesting_inString no_escape no_quote depth _).trans ih
    | escape e => exact ih
    | unit a b c d =>
      have digit (x : HexDigit) (cs : List Char) : nesting depth .inString (x.char :: cs) = nesting depth .inString cs :=
        nesting_hexValue? x.hexValue?_char depth cs
      calc nesting depth .inString (Piece.text (.unit a b c d) ++ (body pieces ++ rest))
          = nesting depth .inString (a.char :: b.char :: c.char :: d.char :: (body pieces ++ rest)) := rfl
        _ = nesting depth .inString (body pieces ++ rest) := by rw [digit, digit, digit, digit]
        _ = nesting depth .inString rest := ih

theorem nests_quoted (pieces : List Piece) : Nests 0 (quoted pieces) := by
  intro depth rest
  have passes : Passes (quoted pieces ++ rest) rest := by
    intro depth
    rw [quoted, List.cons_append, List.append_assoc, nesting, if_pos rfl, nesting_body]
    rfl
  rw [passes.reach_eq, reach]
  omega

theorem Digits.isPlain (ds : Digits) : ∀ c ∈ ds.chars, IsPlain c := fun c member => isPlain_of_isDigit (ds.digits c member)

theorem Exponent.isPlain (x : Exponent) : ∀ c ∈ x.text, IsPlain c := by
  simp only [Exponent.text, Exponent.power, List.mem_cons, List.mem_append, List.mem_map]
  rintro c (rfl | ⟨sign, -, rfl⟩ | member)
  · cases x.capital <;> decide
  · cases sign <;> decide
  · exact x.digits.isPlain c member

theorem Numeral.isPlain_unsigned (n : Numeral) : ∀ c ∈ n.unsigned, IsPlain c := by
  simp only [Numeral.unsigned, List.mem_append]
  rintro c (member | member | member)
  · exact n.whole.isPlain c member
  · cases found : n.fraction with
    | none => simp [found, fractionText] at member
    | some ds =>
      rcases List.mem_cons.mp (by simpa [found, fractionText] using member) with rfl | member
      · decide
      · exact ds.isPlain c member
  · cases found : n.exponent with
    | none => simp [found, exponentText] at member
    | some x => exact x.isPlain c (by simpa [found, exponentText] using member)

theorem Numeral.nests (n : Numeral) : Nests 0 n.text := by
  apply nests_plain
  unfold Numeral.text
  split
  · exact List.forall_mem_cons.mpr ⟨by decide, n.isPlain_unsigned⟩
  · exact n.isPlain_unsigned

namespace Written

mutual
theorem nests_text (t : Written) : Nests t.depth t.text := by
  cases t with
  | null => exact nests_plain (by simp [text, IsPlain])
  | bool value =>
    cases value with
    | true => exact nests_plain (by simp [text, IsPlain])
    | false => exact nests_plain (by simp [text, IsPlain])
  | number n => exact n.nests
  | string pieces => exact nests_quoted pieces
  | array start items =>
    have inner := start.nests.append (nests_itemTexts items)
    rw [Nat.zero_max] at inner
    exact inner.bracketed (.inr rfl) (.inr rfl)
  | object start fields =>
    have inner := start.nests.append (nests_fieldTexts fields)
    rw [Nat.zero_max] at inner
    exact inner.bracketed (.inl rfl) (.inl rfl)
theorem nests_itemTexts (items : List (Padded Written)) :
    Nests (itemDepths items) (separated (itemTexts items)) := by
  cases items with
  | nil => exact nests_plain (by simp [itemTexts])
  | cons item items =>
    obtain ⟨before, value, after⟩ := item
    exact (value.nests_text.padded before after).separated (nests_itemTexts items)
theorem nests_fieldTexts (fields : List (Padded (List Piece) × Padded Written)) :
    Nests (fieldDepths fields) (separated (fieldTexts fields)) := by
  cases fields with
  | nil => exact nests_plain (by simp [fieldTexts])
  | cons field fields =>
    obtain ⟨key, before, value, after⟩ := field
    have name := (nests_quoted key.inner).padded key.before key.after
    have colon : Nests 0 [':'] := nests_plain (by simp [IsPlain])
    have whole := (name.append colon).append (value.nests_text.padded before after)
    rw [Nat.max_self, Nat.zero_max] at whole
    exact whole.separated (nests_fieldTexts fields)
end

end Written

/-- The scan finds the levels of a document in its text. -/
theorem nestingDepth_text (d : Document) : nestingDepth (String.ofList d.text) = d.inner.depth := by
  have levels := d.inner.nests_text.padded d.before d.after 0 []
  simpa [reach, nestingDepth, nesting, Document.text] using levels

/-! ### Levels of the value -/

theorem fieldDepths_append (fields others : List (String × Json)) :
    fieldDepths (fields ++ others) = max (fieldDepths fields) (fieldDepths others) := by
  induction fields with
  | nil => simp [fieldDepths]
  | cons field fields ih =>
    obtain ⟨k, v⟩ := field
    rw [List.cons_append, fieldDepths, fieldDepths, ih]
    omega

/-- A field that is written again gives up the levels it had. -/
theorem fieldDepths_insert (fields : List (String × Json)) (key : String) (value : Json) :
    fieldDepths (insert fields key value) ≤ max (fieldDepths fields) value.depth := by
  induction fields with
  | nil => simp [insert, fieldDepths]
  | cons field fields ih =>
    obtain ⟨k, v⟩ := field
    rw [insert]
    split
    · simp only [fieldDepths]
      omega
    · simp only [fieldDepths]
      omega

namespace Written

mutual
/-- The value has no more levels than are written, and where no key comes twice no part of them is lost. -/
theorem depth_value {t : Written} {v : Json} (value : t.value? = some v) :
    v.depth ≤ t.depth ∧ (t.KeysDistinct → v.depth = t.depth) := by
  cases t with
  | null | bool b =>
    cases value
    exact ⟨Nat.le_refl _, fun _ => rfl⟩
  | number n | string pieces =>
    obtain ⟨_, -, rfl⟩ := Option.map_eq_some_iff.mp value
    exact ⟨Nat.le_refl _, fun _ => rfl⟩
  | array start items =>
    obtain ⟨vs, found, rfl⟩ := Option.map_eq_some_iff.mp value
    obtain ⟨le, eq⟩ := depths_itemValues found
    rw [Json.depth, depth]
    exact ⟨Nat.add_le_add_left le 1, fun distinct => congrArg (1 + ·) (eq distinct)⟩
  | object start fields =>
    obtain ⟨vs, found, rfl⟩ := Option.map_eq_some_iff.mp value
    obtain ⟨le, eq⟩ := fieldDepths_fieldValues found
    rw [Json.fieldDepths, Nat.zero_max] at le eq
    rw [Json.depth, depth]
    exact ⟨Nat.add_le_add_left le 1, fun distinct => congrArg (1 + ·) (eq distinct.2 distinct.1)⟩
theorem depths_itemValues {items : List (Padded Written)} {vs : List Json} (values : itemValues? items = some vs) :
    depths vs ≤ itemDepths items ∧ (ItemsDistinct items → depths vs = itemDepths items) := by
  cases items with
  | nil =>
    cases values
    exact ⟨Nat.le_refl _, fun _ => rfl⟩
  | cons item items =>
    obtain ⟨before, value, after⟩ := item
    simp only [itemValues?, bind, Option.bind_eq_some_iff, Option.some.injEq] at values
    obtain ⟨first, here, later, found, rfl⟩ := values
    obtain ⟨le, eq⟩ := depth_value here
    obtain ⟨le_later, eq_later⟩ := depths_itemValues found
    rw [depths, itemDepths]
    exact ⟨by omega, fun distinct => by rw [eq distinct.1, eq_later distinct.2]⟩
/-- None is lost if also the fields before have other keys. -/
theorem fieldDepths_fieldValues {fields : List (Padded (List Piece) × Padded Written)} {before vs : List (String × Json)}
    (values : fieldValues? before fields = some vs) :
    Json.fieldDepths vs ≤ max (Json.fieldDepths before) (fieldDepths fields) ∧
      (FieldsDistinct fields → (before.map (some ·.1) ++ keys fields).Nodup →
        Json.fieldDepths vs = max (Json.fieldDepths before) (fieldDepths fields)) := by
  cases fields with
  | nil =>
    cases values
    simp [fieldDepths]
  | cons field fields =>
    obtain ⟨key, lead, value, after⟩ := field
    simp only [fieldValues?, bind, Option.bind_eq_some_iff] at values
    obtain ⟨name, spelled, first, here, found⟩ := values
    obtain ⟨le, eq⟩ := depth_value here
    obtain ⟨le_later, eq_later⟩ := fieldDepths_fieldValues found
    rw [fieldDepths]
    constructor
    · have inserted := fieldDepths_insert before name first
      omega
    · intro distinct new
      have fresh : name ∉ before.map (·.1) := by
        intro member
        obtain ⟨field, inside, rfl⟩ := List.mem_map.mp member
        refine (List.nodup_append.mp new).2.2 (some field.1) (List.mem_map.mpr ⟨field, inside, rfl⟩) _ ?_ rfl
        simp [keys, spelled]
      rw [insert_of_not_mem fresh] at eq_later
      have onward := eq_later distinct.2 (by simpa [keys, spelled] using new)
      rw [onward, fieldDepths_append, Json.fieldDepths, Json.fieldDepths, eq distinct.1]
      omega
end

end Written
end ApexLayout.Json
