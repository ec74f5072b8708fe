import ApexLayout.Json.Basic

/-!
Reading JSON texts. A reader takes the characters still to be read and gives the value with the
characters after it, or nothing at a fault; which fault it is makes no difference. Values nest, so
the readers carry a bound on the characters left.
-/
namespace ApexLayout.Json

/-! ### Nesting

It is counted on the characters without reading them: brackets outside strings, whether or not they match. -/

inductive Place where
  | outside
  | inString
  /-- Right after a backslash. -/
  | escaped
  deriving Repr, DecidableEq

/-- The deepest nesting of the characters, from `depth` levels on. A closing bracket too many counts
    for nothing. -/
def nesting (depth : Nat) : Place → List Char → Nat
  | _, [] => 0
  | .escaped, _ :: cs => nesting depth .inString cs
  | .inString, c :: cs =>
    if c = '\\' then nesting depth .escaped cs
    else if c = '"' then nesting depth .outside cs
    else nesting depth .inString cs
  | .outside, c :: cs =>
    if c = '"' then nesting depth .inString cs
    else if c = '\x7b' ∨ c = '[' then max (depth + 1) (nesting (depth + 1) .outside cs)
    else if c = '\x7d' ∨ c = ']' then nesting (depth - 1) .outside cs
    else nesting depth .outside cs

def nestingDepth (text : String) : Nat := nesting 0 .outside text.toList

def maxDepth : Nat := 512

/-! ### Blanks and words -/

/-- The characters after blanks: spaces, tabs, line feeds and carriage returns. -/
def skipBlanks (cs : List Char) : List Char :=
  cs.dropWhile fun c => c == ' ' || c == '\n' || c == '\t' || c == '\r'

def expect? (word : List Char) (cs : List Char) : Option (List Char) :=
  if word.isPrefixOf cs then some (cs.drop word.length) else none

/-! ### Strings -/

def hexValue? (c : Char) : Option Nat :=
  if '0' ≤ c ∧ c ≤ '9' then some (c.toNat - 48)
  else if 'a' ≤ c ∧ c ≤ 'f' then some (c.toNat - 87)
  else if 'A' ≤ c ∧ c ≤ 'F' then some (c.toNat - 55)
  else none

def readUnit? : List Char → Option (Nat × List Char)
  | a :: b :: c :: d :: cs => do
    let a ← hexValue? a
    let b ← hexValue? b
    let c ← hexValue? c
    let d ← hexValue? d
    some (((a * 16 + b) * 16 + c) * 16 + d, cs)
  | _ => none

/-- The character of a numbered escape, whose first unit is read already up to its digits. A unit of a
    surrogate pair must be followed by its second half. -/
def readNumbered? (cs : List Char) : Option (Char × List Char) := do
  let (first, cs) ← readUnit? cs
  if first < 0xD800 ∨ 0xDFFF < first then some (Char.ofNat first, cs)
  else if 0xDC00 ≤ first then none
  else
    let cs ← expect? ['\\', 'u'] cs
    let (second, cs) ← readUnit? cs
    if 0xDC00 ≤ second ∧ second ≤ 0xDFFF then
      some (Char.ofNat (0x10000 + (first - 0xD800) * 0x400 + (second - 0xDC00)), cs)
    else none

def readEscape? : List Char → Option (Char × List Char)
  | '"' :: cs => some ('"', cs)
  | '\\' :: cs => some ('\\', cs)
  | '/' :: cs => some ('/', cs)
  | 'b' :: cs => some ('\x08', cs)
  | 'f' :: cs => some ('\x0c', cs)
  | 'n' :: cs => some ('\n', cs)
  | 'r' :: cs => some ('\r', cs)
  | 't' :: cs => some ('\t', cs)
  | 'u' :: cs => readNumbered? cs
  | _ => none

/-- The characters of a string up to its closing quote, after the opening one. -/
def readString? : Nat → List Char → Option (List Char × List Char)
  | 0, _ => none
  | _, [] => none
  | bound + 1, c :: cs =>
    if c = '"' then some ([], cs)
    else if c = '\\' then do
      let (c, cs) ← readEscape? cs
      let (text, cs) ← readString? bound cs
      some (c :: text, cs)
    else if c.toNat < 0x20 then none
    else do
      let (text, cs) ← readString? bound cs
      some (c :: text, cs)

/-! ### Numbers -/

def isDigit (c : Char) : Bool := '0' ≤ c && c ≤ '9'

def digitValue (c : Char) : Nat := c.toNat - 48

def maxWord : Nat := Nat.pow 2 64 - 1

/-- The value of digits from `start` on, as far as it fits into 64 bits, and the digits left over. -/
def readSignificand (start : Nat) : List Char → Nat × List Char
  | [] => (start, [])
  | c :: cs => if start * 10 + digitValue c ≤ maxWord then readSignificand (start * 10 + digitValue c) cs else (start, c :: cs)

/-- A double scaled by a power of ten, one rounding for the power and one for the product or
    quotient. A tiny number is first divided by `10 ^ 308`, as often as its exponent asks. -/
def scale? : Nat → Decimal.Double → Int → Option Decimal.Double
  | 0, _, _ => none
  | bound + 1, x, e =>
    if e.natAbs ≤ 308 then do
      let power ← Decimal.Double.ofNat? (Nat.pow 10 e.natAbs)
      if 0 ≤ e then x.mul? power else x.div? power
    else if x.isZero then some x
    else if 0 ≤ e then none
    else do
      let x ← x.div? (← Decimal.Double.ofNat? (Nat.pow 10 308))
      scale? bound x (e + 308)

def toDouble? (negative : Bool) (significand : Nat) (e : Int) : Option Number := do
  let x ← Decimal.Double.ofNat? significand
  let x ← scale? (e.natAbs + 1) x e
  some (.double (if negative then x.neg else x))

def maxExponentDigits : Nat := Nat.pow 2 31 - 1

/-- The exponent after its mark and the number it ends. An exponent of 2^31 or more makes zero of a
    number, unless the number would grow without bound. -/
def readExponent? (negative : Bool) (significand : Nat) (e : Int) (cs : List Char) : Option (Number × List Char) :=
  let (down, cs) :=
    match cs with
    | '+' :: cs => (false, cs)
    | '-' :: cs => (true, cs)
    | cs => (false, cs)
  let ds := cs.takeWhile isDigit
  let cs := cs.dropWhile isDigit
  if ds.isEmpty then none
  else
    let size := ds.foldl (fun n c => n * 10 + digitValue c) 0
    if size ≤ maxExponentDigits then do
      let shift : Int := if down then -(size : Int) else size
      let x ← toDouble? negative significand (max (-(Nat.pow 2 31 : Int)) (min (Nat.pow 2 31 - 1) (e + shift)))
      some (x, cs)
    else if significand ≠ 0 ∧ !down then none
    else some (.double (.zero negative), cs)

/-- What comes after a significand: an exponent or the end of the number. -/
def readScaled? (negative : Bool) (significand : Nat) (e : Int) (cs : List Char) : Option (Number × List Char) :=
  match cs with
  | 'e' :: cs => readExponent? negative significand e cs
  | 'E' :: cs => readExponent? negative significand e cs
  | cs => (toDouble? negative significand e).map (·, cs)

/-- The digits after the point. Digits that no longer fit into the significand are dropped. -/
def readFraction? (negative : Bool) (significand : Nat) (e : Int) (cs : List Char) : Option (Number × List Char) :=
  let ds := cs.takeWhile isDigit
  if ds.isEmpty then none
  else
    let (significand, dropped) := readSignificand significand ds
    readScaled? negative significand (e - ((ds.length - dropped.length : Nat) : Int)) (cs.dropWhile isDigit)

/-- A whole number that fits keeps its value; a minus sign before zero, or before more than 63 bits
    hold, makes a double. -/
def wholeNumber (negative : Bool) (significand : Nat) : Option Number :=
  if !negative then some (.int significand)
  else if significand ≠ 0 ∧ significand ≤ Nat.pow 2 63 then some (.int (-(significand : Int)))
  else (Decimal.Double.ofNat? significand).map fun x => .double x.neg

def readUnsigned? (negative : Bool) (cs : List Char) : Option (Number × List Char) :=
  let ds := cs.takeWhile isDigit
  let rest := cs.dropWhile isDigit
  match ds with
  | [] => none
  | '0' :: _ :: _ => none
  | ds =>
    let (significand, dropped) := readSignificand 0 ds
    let e : Int := dropped.length
    match rest with
    | '.' :: rest => readFraction? negative significand e rest
    | 'e' :: rest => readExponent? negative significand e rest
    | 'E' :: rest => readExponent? negative significand e rest
    | rest =>
      if dropped.isEmpty then (wholeNumber negative significand).map (·, rest)
      else (toDouble? negative significand e).map (·, rest)

def readNumber? : List Char → Option (Number × List Char)
  | '-' :: cs => readUnsigned? true cs
  | cs => readUnsigned? false cs

/-! ### Fields

Keys are kept apart from the fields, so that only one that is there already is looked for. -/

theorem insert_of_not_mem {fields : List (String × Json)} {key : String} {value : Json}
    (new : key ∉ fields.map (·.1)) : insert fields key value = fields ++ [(key, value)] := by
  induction fields with
  | nil => rfl
  | cons field fields ih =>
    obtain ⟨k, v⟩ := field
    simp only [List.map_cons, List.mem_cons, not_or] at new
    rw [insert, if_neg (Ne.symm new.1), ih new.2, List.cons_append]

theorem keys_insert_of_mem {fields : List (String × Json)} {key : String} {value : Json}
    (old : key ∈ fields.map (·.1)) : (insert fields key value).map (·.1) = fields.map (·.1) := by
  induction fields with
  | nil => cases old
  | cons field fields ih =>
    rw [insert]
    split
    · rfl
    · next other =>
      have later : key ∈ fields.map (·.1) := (List.mem_cons.mp old).resolve_left (Ne.symm other)
      rw [List.map_cons, ih later, List.map_cons]

/-- Keys by their characters: whether one ends here, and those that go on with a character. -/
inductive Keys where
  | node (ends : Bool) (longer : List (Char × Keys))

namespace Keys

def contains : Keys → List Char → Bool
  | node ends _, [] => ends
  | node _ longer, c :: cs =>
    match longer.lookup c with
    | some keys => keys.contains cs
    | none => false

def insert : Keys → List Char → Keys
  | node _ longer, [] => node true longer
  | node ends longer, c :: cs =>
    node ends ((c, ((longer.lookup c).getD (node false [])).insert cs) :: longer.filter (·.1 != c))

theorem lookup_filter_ne {c d : Char} (other : d ≠ c) (longer : List (Char × Keys)) :
    (longer.filter (·.1 != c)).lookup d = longer.lookup d := by
  induction longer with
  | nil => rfl
  | cons entry longer ih =>
    obtain ⟨e, keys⟩ := entry
    by_cases same : e = c
    · subst same
      simp [List.lookup_cons, beq_false_of_ne other, ih]
    · simp [same, List.lookup_cons, ih]

theorem contains_insert (keys : Keys) (key other : List Char) :
    (keys.insert key).contains other = (other == key || keys.contains other) := by
  induction key generalizing keys other with
  | nil =>
    obtain ⟨ends, longer⟩ := keys
    cases other <;> simp [insert, contains]
  | cons c cs ih =>
    obtain ⟨ends, longer⟩ := keys
    cases other with
    | nil => simp [insert, contains]
    | cons d ds =>
      simp only [insert, contains, List.lookup_cons]
      by_cases same : d = c
      · subst same
        cases there : longer.lookup d with
        | none => cases ds <;> simp [ih, contains]
        | some keys => simp [ih]
      · simp [beq_false_of_ne same, lookup_filter_ne same]

end Keys

/-- The fields of an object as far as they are read, the latest first, with their keys. -/
structure Fields where
  keys : Keys
  latest : List (String × Json)
  known : ∀ key, keys.contains key = true ↔ String.ofList key ∈ latest.map (·.1)

namespace Fields

def empty : Fields := ⟨.node false [], [], fun key => by cases key <;> simp [Keys.contains]⟩

def toList (fields : Fields) : List (String × Json) := fields.latest.reverse

def insert (fields : Fields) (key : List Char) (value : Json) : Fields :=
  if there : fields.keys.contains key then
    { fields with
      latest := (Json.insert fields.toList (String.ofList key) value).reverse
      known := fun other => by
        have old : String.ofList key ∈ fields.toList.map (·.1) := by simpa [toList] using (fields.known key).mp there
        rw [fields.known, List.map_reverse, List.mem_reverse, keys_insert_of_mem old, toList, List.map_reverse,
          List.mem_reverse] }
  else
    { keys := fields.keys.insert key
      latest := (String.ofList key, value) :: fields.latest
      known := fun other => by
        simp only [Keys.contains_insert, Bool.or_eq_true, beq_iff_eq, fields.known, List.map_cons, List.mem_cons,
          String.ofList_inj] }

@[simp] theorem toList_insert (fields : Fields) (key : List Char) (value : Json) :
    (fields.insert key value).toList = Json.insert fields.toList (String.ofList key) value := by
  unfold insert
  split
  · simp [toList]
  · next new =>
    rw [insert_of_not_mem fun old => new ((fields.known key).mpr (by simpa [toList] using old))]
    simp [toList]

end Fields
/-! ### Values -/

mutual
def readValue? : Nat → List Char → Option (Json × List Char)
  | 0, _ => none
  | bound + 1, cs =>
    match skipBlanks cs with
    | [] => none
    | c :: cs =>
      if c = 'n' then (expect? ['u', 'l', 'l'] cs).map (.null, ·)
      else if c = 't' then (expect? ['r', 'u', 'e'] cs).map (.bool true, ·)
      else if c = 'f' then (expect? ['a', 'l', 's', 'e'] cs).map (.bool false, ·)
      else if c = '"' then (readString? bound cs).map fun (text, cs) => (.string (String.ofList text), cs)
      else if c = '[' then
        match skipBlanks cs with
        | ']' :: cs => some (.array [], cs)
        | cs => (readItems? bound cs).map fun (items, cs) => (.array items, cs)
      else if c = '\x7b' then
        match skipBlanks cs with
        | '\x7d' :: cs => some (.object [], cs)
        | cs => (readFields? bound .empty cs).map fun (fields, cs) => (.object fields, cs)
      else (readNumber? (c :: cs)).map fun (n, cs) => (.number n, cs)
def readItems? : Nat → List Char → Option (List Json × List Char)
  | 0, _ => none
  | bound + 1, cs => do
    let (item, cs) ← readValue? bound cs
    match skipBlanks cs with
    | ']' :: cs => some ([item], cs)
    | ',' :: cs =>
      let (items, cs) ← readItems? bound cs
      some (item :: items, cs)
    | _ => none
/-- The fields of an object that is not empty, up to its closing brace, added to those before them. -/
def readFields? : Nat → Fields → List Char → Option (List (String × Json) × List Char)
  | 0, _, _ => none
  | bound + 1, before, cs =>
    match skipBlanks cs with
    | '"' :: cs => do
      let (key, cs) ← readString? bound cs
      let cs ← expect? [':'] (skipBlanks cs)
      let (value, cs) ← readValue? bound cs
      let fields := before.insert key value
      match skipBlanks cs with
      | '\x7d' :: cs => some (fields.toList, cs)
      | ',' :: cs => readFields? bound fields cs
      | _ => none
    | _ => none
end

/-- The value of a text that holds one value and nothing else but blanks. -/
def read? (text : String) : Option Json := do
  let cs := text.toList
  let (value, rest) ← readValue? (2 * cs.length + 2) cs
  if (skipBlanks rest).isEmpty then some value else none

end ApexLayout.Json
