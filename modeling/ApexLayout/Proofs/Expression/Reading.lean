import ApexLayout.Proofs.Expression.Printing
import ApexLayout.Proofs.Lexis.Basic
import ApexLayout.Proofs.Occurrence.Walk

/-!
Printed expressions, read back. The operators are read as they were printed, unless a sign stands right before an
operand that starts with the same sign: the two are then read as one operator.
-/
namespace ApexLayout
open Doc (Leaf textLeaf joinLeaves Typeset isSteady isSpacing)
open Lexis (isToken isWord isNumber isQuoted isWordChar symbols tokenize Apart)
open scoped Lexis

namespace Expression

def areWords (names : List String) : Bool := !names.isEmpty && names.all (isWord ·.toList)

/-- The expression is made of names, literals, operators and parentheses, and each name and literal is one
    token. -/
def isPlain : Expression → Bool
  | .literal text => isWord text.toList || isNumber text.toList || isQuoted text.toList
  | .variable names => areWords names
  | .member receiver _ names => receiver.isPlain && areWords names
  | .operation left _ right => left.isPlain && right.isPlain
  | .assignment left _ right => left.isPlain && right.isPlain
  | .before _ operand => operand.isPlain
  | .behind operand _ => operand.isPlain
  | .nested inner => inner.isPlain
  | _ => false

def signs : List String := ["+", "-", "!", "~", "++", "--"]

def steps : List String := ["++", "--"]

def hasSymbols : Expression → Bool
  | .member receiver _ _ => receiver.hasSymbols
  | .operation left op right => left.hasSymbols && symbols.contains op && right.hasSymbols
  | .assignment left op right => left.hasSymbols && symbols.contains op && right.hasSymbols
  | .before op operand => signs.contains op && operand.hasSymbols
  | .behind operand op => operand.hasSymbols && steps.contains op
  | .nested inner => inner.hasSymbols
  | _ => true

def firstChar? (e : Expression) : Option Char := (e.unparse.flatMap String.toList).head?

/-- The operator is a sign, and the operand starts with the same one. -/
def doubles (op : String) (operand : Expression) : Bool :=
  (op == "+" || op == "-") && operand.firstChar? == op.toList.head?

/-- No sign stands before an operand that starts with the same sign. -/
def isSafe : Expression → Bool
  | .member receiver _ _ => receiver.isSafe
  | .operation left _ right => left.isSafe && right.isSafe
  | .assignment left _ right => left.isSafe && right.isSafe
  | .before op operand => !doubles op operand && operand.isSafe
  | .behind operand _ => operand.isSafe
  | .nested inner => inner.isSafe
  | _ => true

end Expression

/-! ### Between tokens -/

namespace Lexis

variable {rest cs : List Char} {ts : List String} {s : String}

theorem tokenize_cons_iff (token : isToken s.toList) (apart : Apart s.toList rest) :
    tokenize (s.toList ++ rest) = some (s :: ts) ↔ tokenize rest = some ts := by
  rw [tokenize_token token apart, String.ofList_toList]
  simp

/-- What may follow an operand: white space, an operator behind it, a parenthesis, or a dot with a name. -/
def Follow (rest : List Char) : Prop :=
  ∀ c cs, rest = c :: cs → isSpacing c ∨ c ∈ [')', '+', '-', '?'] ∨ c = '.' ∧ ∀ d ∈ cs.head?, d.isDigit = false

theorem follow_nil : Follow [] := by
  intro c cs same
  cases same

theorem follow_blank {blanks : List Char} (some_there : blanks ≠ []) (spacing : ∀ c ∈ blanks, isSpacing c) :
    Follow (blanks ++ rest) := by
  intro c cs same
  cases blanks with
  | nil => exact absurd rfl some_there
  | cons d blanks =>
    obtain ⟨rfl, -⟩ := List.cons.inj same
    exact .inl (spacing d List.mem_cons_self)

theorem Follow.not_isWordChar (follow : Follow rest) : ∀ c ∈ rest.head?, isWordChar c = false := by
  intro c head
  cases rest with
  | nil => cases head
  | cons d rest =>
    obtain rfl : d = c := by simpa using head
    rcases follow d rest rfl with spacing | member | ⟨rfl, -⟩
    · rcases isSpacing_iff.1 spacing with rfl | rfl | rfl <;> decide
    · have none_there : ∀ c ∈ [')', '+', '-', '?'], isWordChar c = false := by decide
      exact none_there d member
    · decide

theorem Follow.apart_word (follow : Follow rest) (word : isWord cs) : Apart cs rest :=
  Lexis.apart_word word follow.not_isWordChar

theorem Follow.apart_number (follow : Follow rest) (number : isNumber cs) : Apart cs rest := by
  refine Lexis.apart_number number follow.not_isWordChar ?_
  rintro d more rfl
  rcases follow '.' (d :: more) rfl with spacing | member | ⟨-, no_digit⟩
  · cases spacing
  · simp at member
  · exact no_digit d rfl

theorem Follow.apart_symbol (follow : Follow rest) (ends : s ∈ [")", "++", "--"]) : Apart s.toList rest := by
  have all_symbols : ∀ s ∈ [")", "++", "--"], s ∈ symbols := by decide
  refine Lexis.apart_symbol (all_symbols s ends) ?_
  intro c head
  cases rest with
  | nil => cases head
  | cons d rest =>
    obtain rfl : d = c := by simpa using head
    have none_longer : ∀ s ∈ [")", "++", "--"], ∀ c ∈ [' ', '\t', '\n', ')', '+', '-', '?', '.'], extends? s c = false := by
      decide
    refine none_longer s ends d ?_
    rcases follow d rest rfl with spacing | member | ⟨rfl, -⟩
    · rcases isSpacing_iff.1 spacing with rfl | rfl | rfl <;> simp
    · simp only [List.mem_cons, List.not_mem_nil, or_false] at member
      rcases member with rfl | rfl | rfl | rfl <;> simp
    · simp

theorem extends?_of_not_mem {c : Char} (none_there : ∀ longer ∈ symbols, c ∉ longer.toList)
    (other : s = "." → c.isDigit = false) : extends? s c = false := by
  simp only [extends?, Bool.or_eq_false_iff, List.any_eq_false]
  refine ⟨?_, ?_⟩
  · intro longer member inside
    obtain ⟨more, same⟩ := List.isPrefixOf_iff_prefix.1 inside
    exact none_there longer member (by simp [← same])
  · by_cases dot : s = "."
    · simp [other dot]
    · simp [dot]

theorem extends?_of_isWordChar {c : Char} (letter : isWordChar c) (other : s = "." → c.isDigit = false) :
    extends? s c = false := by
  refine extends?_of_not_mem ?_ other
  intro longer member inside
  have no_letter := (symbol_chars longer member c inside).1
  rw [letter] at no_letter
  cases no_letter

theorem apart_blank {blanks : List Char} (symbol : s ∈ symbols) (some_there : blanks ≠ [])
    (spacing : ∀ c ∈ blanks, isSpacing c) : Apart s.toList (blanks ++ rest) := by
  refine apart_symbol symbol ?_
  intro c head
  cases blanks with
  | nil => exact absurd rfl some_there
  | cons d blanks =>
    obtain rfl : d = c := by simpa using head
    have blank := spacing d List.mem_cons_self
    refine extends?_of_not_mem ?_ fun _ => ?_
    · intro longer member inside
      have ink := (symbol_chars longer member d inside).2.2
      rw [blank] at ink
      cases ink
    · rcases isSpacing_iff.1 blank with rfl | rfl | rfl <;> rfl

theorem isToken_of_symbol (symbol : s ∈ symbols) : isToken s.toList := by
  have is_symbol : isSymbol s.toList := isSymbol_iff.2 ⟨s, symbol, rfl⟩
  simp [isToken, is_symbol]

theorem isToken_of_word (word : isWord cs) : isToken cs := by
  simp [isToken, word]

theorem head_of_isWord (word : isWord cs) : ∃ c more, cs = c :: more ∧ isWordChar c ∧ c.isDigit = false := by
  cases cs with
  | nil => cases word
  | cons c more =>
    simp only [isWord, Bool.and_eq_true, Bool.not_eq_true'] at word
    exact ⟨c, more, rfl, word.1.2, word.1.1⟩

end Lexis

/-! ### Expressions -/

namespace Expression
open Lexis

variable {cs rest : List Char} {ts : List String} {s op : String} {leaves : List Leaf} {names : List String}

theorem dottedLeaves_cons_cons (name next : String) (names : List String) :
    dottedLeaves (name :: next :: names) = textLeaf name ++ [.text "."] ++ dottedLeaves (next :: names) := rfl

theorem textLeaf_of_isToken (token : isToken s.toList) : textLeaf s = [.text s] := by
  rw [textLeaf, if_neg]
  rintro rfl
  cases token

/-- A text is set as it is, before what is set for the rest. -/
theorem typeset_textLeaf (token : isToken s.toList)
    (typeset : Typeset (textLeaf s ++ leaves) cs) : ∃ ds, cs = s.toList ++ ds ∧ Typeset leaves ds := by
  rw [textLeaf_of_isToken token] at typeset
  cases typeset with
  | text later => exact ⟨_, rfl, later⟩

theorem head_of_names (words : areWords names) (typeset : Typeset (dottedLeaves names) cs) :
    ∃ c more, cs = c :: more ∧ isWordChar c ∧ c.isDigit = false ∧
      ((names.intersperse ".").flatMap String.toList).head? = some c := by
  cases names with
  | nil => cases words
  | cons name names =>
    obtain ⟨word, -⟩ : isWord name.toList ∧ ∀ other ∈ names, isWord other.toList := by
      simpa [areWords] using words
    obtain ⟨c, more, same, letter, no_digit⟩ := head_of_isWord word
    have split : ∃ leaves, dottedLeaves (name :: names) = textLeaf name ++ leaves := by
      cases names with
      | nil => exact ⟨[], (List.append_nil _).symm⟩
      | cons next names => exact ⟨_, (List.append_assoc ..).trans rfl⟩
    obtain ⟨leaves, is_split⟩ := split
    rw [is_split] at typeset
    obtain ⟨ds, rfl, -⟩ := typeset_textLeaf (isToken_of_word word) typeset
    refine ⟨c, more ++ ds, by simp [same], letter, no_digit, ?_⟩
    cases names <;> simp [same]

theorem apart_dot (dot : s = "." ∨ s = "?.") (words : areWords names)
    (typeset : Typeset (dottedLeaves names) cs) : Apart s.toList (cs ++ rest) := by
  obtain ⟨c, more, rfl, letter, no_digit, -⟩ := head_of_names words typeset
  have symbol : s ∈ symbols := by
    rcases dot with rfl | rfl <;> decide
  refine apart_symbol symbol ?_
  intro d head
  obtain rfl : c = d := by simpa using head
  exact extends?_of_isWordChar letter fun _ => no_digit

theorem tokenize_names (words : areWords names) (typeset : Typeset (dottedLeaves names) cs)
    (follow : Follow rest) :
    tokenize (cs ++ rest) = some (names.intersperse "." ++ ts) ↔ tokenize rest = some ts := by
  induction names generalizing cs with
  | nil => cases words
  | cons name names ih =>
    obtain ⟨word, others⟩ : isWord name.toList ∧ ∀ other ∈ names, isWord other.toList := by
      simpa [areWords] using words
    have token := isToken_of_word word
    cases names with
    | nil =>
      have single : dottedLeaves [name] = [.text name] := textLeaf_of_isToken token
      rw [single, Typeset.text_iff] at typeset
      rw [typeset]
      exact tokenize_cons_iff token (follow.apart_word word)
    | cons next names =>
      have words : areWords (next :: names) := by simpa [areWords] using others
      rw [dottedLeaves_cons_cons, List.append_assoc] at typeset
      obtain ⟨_, rfl, behind⟩ := typeset_textLeaf token typeset
      cases behind with
      | @text _ _ ds later =>
        calc tokenize (name.toList ++ (".".toList ++ ds) ++ rest) = some (name :: "." :: ((next :: names).intersperse "." ++ ts))
          _ ↔ tokenize (".".toList ++ (ds ++ rest)) = some ("." :: ((next :: names).intersperse "." ++ ts)) := by
            rw [List.append_assoc, List.append_assoc]
            exact tokenize_cons_iff token (apart_word word (by simp; decide))
          _ ↔ tokenize (ds ++ rest) = some ((next :: names).intersperse "." ++ ts) :=
            tokenize_cons_iff (isToken_of_symbol (by decide)) (apart_dot (.inl rfl) words later)
          _ ↔ tokenize rest = some ts := ih words later

def Starts (c : Char) : Prop := isWordChar c ∨ c ∈ ['.', '\'', '(', '+', '-', '!', '~']

theorem isToken_of_literal {text : String} (plain : (literal text).isPlain) : isToken text.toList := by
  simp only [isPlain] at plain
  rw [isToken, plain, Bool.true_or]

theorem head_of_literal {text : String} (plain : (literal text).isPlain) :
    ∃ c more, text.toList = c :: more ∧ Starts c := by
  simp only [isPlain, Bool.or_eq_true] at plain
  cases chars : text.toList with
  | nil =>
    rw [chars] at plain
    rcases plain with (word | number) | quoted
    · cases word
    · cases number
    · cases quoted
  | cons c more =>
    refine ⟨c, more, rfl, ?_⟩
    rw [chars] at plain
    rcases plain with (word | number) | quoted
    · obtain ⟨_, _, same, letter, -⟩ := head_of_isWord word
      obtain ⟨rfl, -⟩ := List.cons.inj same
      exact .inl letter
    · rcases head_of_isNumber number with digit | rfl
      · exact .inl (isWordChar_of_isDigit digit)
      · exact .inr (by simp)
    · obtain rfl := head_of_isQuoted quoted
      exact .inr (by simp)

theorem head_of_sign (sign : op ∈ signs) :
    op ∈ symbols ∧ ∃ c more, op.toList = c :: more ∧ Starts c := by
  have table : ∀ op ∈ signs, op ∈ symbols ∧ op.toList ≠ [] ∧ ∀ c ∈ op.toList.head?, c ∈ ['.', '\'', '(', '+', '-', '!', '~'] := by
    decide
  obtain ⟨symbol, some_there, starts⟩ := table op sign
  obtain ⟨c, more, same⟩ := List.exists_cons_of_ne_nil some_there
  exact ⟨symbol, c, more, same, .inr (starts c (by simp [same]))⟩

theorem firstChar_append {e : Expression} {c : Char} (first : e.firstChar? = some c) (parts : List String) :
    ((e.unparse ++ parts).flatMap String.toList).head? = some c := by
  rw [List.flatMap_append, List.head?_append, show (e.unparse.flatMap String.toList).head? = some c from first]
  rfl

theorem head_of_typeset : ∀ (e : Expression) {cs : List Char}, e.isPlain → e.hasSymbols → Typeset e.leaves cs →
    ∃ c more, cs = c :: more ∧ e.firstChar? = some c ∧ Starts c
  | .literal text, cs, plain, _, typeset => by
    obtain ⟨c, more, same, starts⟩ := head_of_literal plain
    have some_there : text ≠ "" := by
      rintro rfl
      simp at same
    rw [leaves, textLeaf, if_neg some_there, Typeset.text_iff] at typeset
    exact ⟨c, more, typeset.trans same, by simp [firstChar?, unparse, same], starts⟩
  | .variable names, cs, plain, _, typeset => by
    obtain ⟨c, more, same, letter, -, first⟩ := head_of_names plain typeset
    exact ⟨c, more, same, first, .inl letter⟩
  | .member receiver safe names, cs, plain, known, typeset => by
    simp only [isPlain, Bool.and_eq_true] at plain
    rw [leaves, List.append_assoc] at typeset
    obtain ⟨_, ds, rfl, here, -⟩ := typeset.split
    obtain ⟨c, more, rfl, first, starts⟩ := head_of_typeset receiver plain.1 known here
    exact ⟨c, more ++ ds, rfl, firstChar_append first _, starts⟩
  | .operation left op right, cs, plain, known, typeset
  | .assignment left op right, cs, plain, known, typeset => by
    simp only [isPlain, hasSymbols, Bool.and_eq_true] at plain known
    simp only [leaves, List.append_assoc] at typeset
    obtain ⟨_, ds, rfl, here, -⟩ := typeset.split
    obtain ⟨c, more, rfl, first, starts⟩ := head_of_typeset left plain.1 known.1.1 here
    exact ⟨c, more ++ ds, rfl, firstChar_append first _, starts⟩
  | .behind operand op, cs, plain, known, typeset => by
    simp only [hasSymbols, Bool.and_eq_true] at known
    rw [leaves] at typeset
    obtain ⟨_, ds, rfl, here, -⟩ := typeset.split
    obtain ⟨c, more, rfl, first, starts⟩ := head_of_typeset operand plain known.1 here
    exact ⟨c, more ++ ds, rfl, firstChar_append first _, starts⟩
  | .before op operand, cs, plain, known, typeset => by
    simp only [hasSymbols, Bool.and_eq_true, List.contains_iff_mem] at known
    obtain ⟨symbol, c, more, same, starts⟩ := head_of_sign known.1
    obtain ⟨ds, rfl, -⟩ := typeset_textLeaf (isToken_of_symbol symbol) typeset
    exact ⟨c, more ++ ds, by simp [same], by simp [firstChar?, unparse, same], starts⟩
  | .nested inner, cs, _, _, typeset => by
    cases typeset with
    | @text _ _ ds later => exact ⟨'(', ds, rfl, rfl, .inr (by simp)⟩

theorem not_isSelf {e : Expression} (plain : e.isPlain) : e.isSelf = false := by
  cases e with
  | thisObject => cases plain
  | superObject => cases plain
  | _ => rfl

theorem typeset_dot {receiver : Expression} {safe : Bool} (plain : receiver.isPlain)
    (typeset : Typeset (dotLeaves receiver safe ++ leaves) cs) :
    ∃ blanks ds, cs = blanks ++ ((dot safe).toList ++ ds) ∧ (∀ c ∈ blanks, isSpacing c) ∧ Typeset leaves ds := by
  have other := not_isSelf plain
  cases safe with
  | false =>
    simp only [dotLeaves, other] at typeset
    cases typeset with
    | softLine spacing later =>
      cases later with
      | text later => exact ⟨_, _, rfl, spacing, later⟩
  | true =>
    simp only [dotLeaves, other] at typeset
    cases typeset with
    | softLine spacing later =>
      cases later with
      | text later =>
        cases later with
        | text later => exact ⟨_, _, rfl, spacing, later⟩

/-- A dot with names may follow an operand, also with white space before it. -/
theorem follow_dot {safe : Bool} {blanks : List Char} (spacing : ∀ c ∈ blanks, isSpacing c)
    (words : areWords names) (typeset : Typeset (dottedLeaves names) cs) :
    Follow (blanks ++ ((dot safe).toList ++ (cs ++ rest))) := by
  by_cases none_there : blanks = []
  · intro c behind same
    obtain ⟨d, more, rfl, -, no_digit, -⟩ := head_of_names words typeset
    cases safe with
    | false =>
      obtain ⟨rfl, rfl⟩ : '.' = c ∧ d :: (more ++ rest) = behind := by simpa [none_there, dot] using same
      exact .inr (.inr ⟨rfl, by simpa using no_digit⟩)
    | true =>
      obtain ⟨rfl, -⟩ : '?' = c ∧ '.' :: d :: (more ++ rest) = behind := by simpa [none_there, dot] using same
      exact .inr (.inl (by simp))
  · exact follow_blank none_there spacing

/-- An operator between two operands, with white space around it. -/
theorem typeset_blank {line : Bool}
    (typeset : Typeset ([if line then Leaf.line else .text " "] ++ leaves) cs) :
    ∃ blanks ds, cs = blanks ++ ds ∧ blanks ≠ [] ∧ (∀ c ∈ blanks, isSpacing c) ∧ Typeset leaves ds := by
  cases line with
  | true =>
    cases typeset with
    | line some_there spacing later => exact ⟨_, _, rfl, some_there, spacing, later⟩
  | false =>
    cases typeset with
    | text later => exact ⟨_, _, rfl, by simp, by decide, later⟩

/-- An operator with blanks around it is read as it is. -/
theorem tokenize_between (line : Bool) {before behind : List Leaf} {L R : List String} {P Q : Prop} (symbol : op ∈ symbols)
    (typeset : Typeset (before ++ ([.text " "] ++ (textLeaf op ++ ([if line then .line else .text " "] ++ behind)))) cs)
    (left : ∀ {as rest ts}, Typeset before as → Follow rest →
      (tokenize (as ++ rest) = some (L ++ ts) ↔ P ∧ tokenize rest = some ts))
    (right : ∀ {ds}, Typeset behind ds → (tokenize (ds ++ rest) = some (R ++ ts) ↔ Q ∧ tokenize rest = some ts)) :
    tokenize (cs ++ rest) = some (L ++ op :: R ++ ts) ↔ (P ∧ Q) ∧ tokenize rest = some ts := by
  obtain ⟨as, _, rfl, here, spaced⟩ := typeset.split
  cases spaced with
  | text signed =>
    obtain ⟨_, rfl, apart⟩ := typeset_textLeaf (isToken_of_symbol symbol) signed
    obtain ⟨blanks, ds, rfl, some_there, spacing, later⟩ := typeset_blank apart
    have gap : ∀ c ∈ " ".toList, isSpacing c := by decide
    simp only [List.append_assoc, List.cons_append]
    rw [left here (follow_blank (by simp) gap), tokenize_blanks gap,
      tokenize_cons_iff (isToken_of_symbol symbol) (apart_blank symbol some_there spacing), tokenize_blanks spacing,
      right later, and_assoc]

/-- The prefix operators, before what an operand may start with. -/
theorem extends?_before (sign : op ∈ signs) {c : Char} (starts : Starts c) :
    extends? op c = true ↔ (op = "+" ∨ op = "-") ∧ some c = op.toList.head? := by
  rcases starts with letter | member
  · have no_dot : ∀ op ∈ signs, op ≠ "." := by decide
    have other := no_dot op sign
    rw [extends?_of_isWordChar letter fun is_dot => absurd is_dot other]
    refine ⟨by rintro ⟨⟩, ?_⟩
    rintro ⟨rfl | rfl, same⟩
    · obtain rfl : c = '+' := by simpa using same
      cases letter
    · obtain rfl : c = '-' := by simpa using same
      cases letter
  · have table : ∀ op ∈ signs, ∀ c ∈ ['.', '\'', '(', '+', '-', '!', '~'],
        (extends? op c = true ↔ (op = "+" ∨ op = "-") ∧ some c = op.toList.head?) := by decide
    exact table op sign c member

/-- The operands and the operators are read as they were printed, unless two signs come together. -/
theorem tokenize_iff : ∀ (e : Expression) {cs rest : List Char} {ts : List String}, e.isPlain → e.hasSymbols →
    Typeset e.leaves cs → Follow rest → (tokenize (cs ++ rest) = some (e.unparse ++ ts) ↔ e.isSafe ∧ tokenize rest = some ts)
  | .literal text, cs, rest, ts, plain, _, typeset, follow => by
    have token := isToken_of_literal plain
    have apart : Apart text.toList rest := by
      simp only [isPlain, Bool.or_eq_true] at plain
      rcases plain with (word | number) | quoted
      · exact follow.apart_word word
      · exact follow.apart_number number
      · exact apart_quoted quoted
    rw [leaves, textLeaf_of_isToken token, Typeset.text_iff] at typeset
    rw [typeset]
    simpa [isSafe, unparse] using tokenize_cons_iff token apart
  | .variable names, cs, rest, ts, plain, _, typeset, follow => by
    simpa [isSafe, unparse] using tokenize_names plain typeset follow
  | .member receiver safe names, cs, rest, ts, plain, known, typeset, follow => by
    simp only [isPlain, Bool.and_eq_true] at plain
    rw [leaves, List.append_assoc] at typeset
    obtain ⟨as, _, rfl, here, behind⟩ := typeset.split
    obtain ⟨blanks, ds, rfl, spacing, later⟩ := typeset_dot plain.1 behind
    have dotted : dot safe = "." ∨ dot safe = "?." := by
      cases safe
      · exact .inl rfl
      · exact .inr rfl
    have symbol : dot safe ∈ symbols := by
      rcases dotted with same | same <;> rw [same] <;> decide
    simp only [unparse, isSafe, List.append_assoc, List.cons_append]
    rw [tokenize_iff receiver plain.1 known here (follow_dot spacing plain.2 later), tokenize_blanks spacing,
      tokenize_cons_iff (isToken_of_symbol symbol) (apart_dot dotted plain.2 later), tokenize_names plain.2 later follow]
  | .operation left op right, cs, rest, ts, plain, known, typeset, follow => by
    simp only [isPlain, hasSymbols, Bool.and_eq_true, List.contains_iff_mem] at plain known
    simp only [leaves, List.append_assoc] at typeset
    simp only [unparse, isSafe, Bool.and_eq_true]
    exact tokenize_between true known.1.2 typeset (tokenize_iff left plain.1 known.1.1)
      fun later => tokenize_iff right plain.2 known.2 later follow
  | .assignment left op right, cs, rest, ts, plain, known, typeset, follow => by
    simp only [isPlain, hasSymbols, Bool.and_eq_true, List.contains_iff_mem] at plain known
    simp only [leaves, List.append_assoc] at typeset
    simp only [unparse, isSafe, Bool.and_eq_true]
    exact tokenize_between right.isOperation known.1.2 typeset (tokenize_iff left plain.1 known.1.1)
      fun later => tokenize_iff right plain.2 known.2 later follow
  | .behind operand op, cs, rest, ts, plain, known, typeset, follow => by
    simp only [hasSymbols, Bool.and_eq_true, List.contains_iff_mem] at known
    have all_symbols : ∀ op ∈ steps, op ∈ symbols ∧ op ∈ [")", "++", "--"] ∧
        op.toList ≠ [] ∧ ∀ c ∈ op.toList.head?, c ∈ [')', '+', '-', '?'] := by
      decide
    obtain ⟨symbol, ends, some_there, goes_on⟩ := all_symbols op known.2
    obtain ⟨c, more, same⟩ := List.exists_cons_of_ne_nil some_there
    rw [leaves] at typeset
    obtain ⟨as, _, rfl, here, behind⟩ := typeset.split
    rw [textLeaf_of_isToken (isToken_of_symbol symbol), Typeset.text_iff] at behind
    have follows : Follow (op.toList ++ rest) := by
      intro d ds split
      obtain ⟨rfl, -⟩ : c = d ∧ more ++ rest = ds := by simpa [same] using split
      exact .inr (.inl (goes_on c (by simp [same])))
    simp only [unparse, isSafe, behind, List.append_assoc, List.cons_append, List.nil_append]
    rw [tokenize_iff operand plain known.1 here follows, tokenize_cons_iff (isToken_of_symbol symbol) (follow.apart_symbol ends)]
  | .before op operand, cs, rest, ts, plain, known, typeset, follow => by
    simp only [hasSymbols, Bool.and_eq_true, List.contains_iff_mem] at known
    obtain ⟨symbol, -⟩ := head_of_sign known.1
    obtain ⟨ds, rfl, later⟩ := typeset_textLeaf (isToken_of_symbol symbol) typeset
    obtain ⟨c, more, split, first, starts⟩ := head_of_typeset operand plain known.2 later
    have fuses : extends? op c = true ↔ doubles op operand = true := by
      rw [extends?_before known.1 starts, doubles, first]
      simp
    simp only [unparse, isSafe, List.append_assoc, List.cons_append, Bool.and_eq_true, Bool.not_eq_true']
    cases doubled : doubles op operand with
    | true =>
      -- The sign and the first character of the operand make one operator.
      have fused := fuses.2 doubled
      obtain ⟨sign, same⟩ := (extends?_before known.1 starts).1 fused
      have longer : isToken (op.toList ++ [c]) := by
        rcases sign with rfl | rfl
        · obtain rfl : c = '+' := by simpa using same
          decide
        · obtain rfl : c = '-' := by simpa using same
          decide
      have some_there : op.toList ≠ [] := by
        rintro none_there
        simp [none_there] at same
      have within : [c] <+: ds ++ rest := by simp [split]
      have otherwise := tokenize_fused (List.cons_ne_nil c []) within longer some_there (operand.unparse ++ ts)
      rw [String.ofList_toList] at otherwise
      simp [otherwise]
    | false =>
      have apart : Apart op.toList (ds ++ rest) := by
        refine apart_symbol symbol ?_
        intro d head
        obtain rfl : c = d := by simpa [split] using head
        rw [Bool.eq_false_iff]
        intro fused
        rw [fuses.1 fused] at doubled
        cases doubled
      rw [tokenize_cons_iff (isToken_of_symbol symbol) apart, tokenize_iff operand plain known.2 later follow]
      simp
  | .nested inner, cs, rest, ts, plain, known, typeset, follow => by
    cases typeset with
    | text behind =>
      obtain ⟨as, _, rfl, here, last⟩ := behind.split
      rw [Typeset.text_iff] at last
      have follows : Follow (")".toList ++ rest) := by
        intro c cs split
        obtain ⟨rfl, -⟩ : ')' = c ∧ rest = cs := by simpa using split
        exact .inr (.inl (by simp))
      have opens : Apart "(".toList (as ++ (")".toList ++ rest)) := by
        obtain ⟨c, more, rfl, -, starts⟩ := head_of_typeset inner plain known here
        refine apart_symbol (by decide) ?_
        intro d head
        obtain rfl : c = d := by simpa using head
        rcases starts with letter | member
        · exact extends?_of_isWordChar letter fun same => absurd same (by decide)
        · have none_longer : ∀ c ∈ ['.', '\'', '(', '+', '-', '!', '~'], extends? "(" c = false := by decide
          exact none_longer c member
      simp only [unparse, isSafe, last, List.append_assoc, List.cons_append, List.nil_append]
      rw [tokenize_cons_iff (isToken_of_symbol (by decide)) opens, tokenize_iff inner plain known here follows,
        tokenize_cons_iff (isToken_of_symbol (by decide)) (follow.apart_symbol (by simp))]

theorem isSteady_token (token : isToken s.toList) (firm : Bool) (leaves : List Leaf) :
    isSteady firm (textLeaf s ++ leaves) = isSteady true leaves := by
  rw [textLeaf_of_isToken token]
  rcases List.eq_nil_or_concat s.toList with none_there | ⟨before, last, same⟩
  · rw [none_there] at token
    cases token
  · rw [List.concat_eq_append] at same
    rw [same] at token
    have is_firm : Leaf.isFirm (.text s) = true := by
      simp [Leaf.isFirm, same, last_of_isToken token]
    rw [List.singleton_append, isSteady, is_firm]

theorem isSteady_names (words : areWords names) (firm : Bool) (leaves : List Leaf) :
    isSteady firm (dottedLeaves names ++ leaves) = isSteady true leaves := by
  induction names generalizing firm with
  | nil => cases words
  | cons name names ih =>
    obtain ⟨word, others⟩ : isWord name.toList ∧ ∀ other ∈ names, isWord other.toList := by
      simpa [areWords] using words
    cases names with
    | nil => exact isSteady_token (isToken_of_word word) firm leaves
    | cons next names =>
      rw [dottedLeaves_cons_cons, List.append_assoc, List.append_assoc, isSteady_token (isToken_of_word word)]
      exact ih (by simpa [areWords] using others) _

/-- An expression starts and ends with tokens, and so do its parts: white space stands between tokens only. -/
theorem isSteady_leaves : ∀ (e : Expression) (firm : Bool) (leaves : List Leaf), e.isPlain → e.hasSymbols →
    isSteady firm (e.leaves ++ leaves) = isSteady true leaves
  | .literal text, firm, rest, plain, _ => isSteady_token (isToken_of_literal plain) firm rest
  | .variable names, firm, rest, plain, _ => isSteady_names plain firm rest
  | .member receiver safe names, firm, rest, plain, known => by
    simp only [isPlain, Bool.and_eq_true] at plain
    have other := not_isSelf plain.1
    rw [leaves, List.append_assoc, List.append_assoc, isSteady_leaves receiver firm _ plain.1 known]
    cases safe with
    | false => simpa [dotLeaves, other, isSteady] using isSteady_names plain.2 _ rest
    | true => simpa [dotLeaves, other, isSteady] using isSteady_names plain.2 _ rest
  | .operation left op right, firm, rest, plain, known => by
    simp only [isPlain, hasSymbols, Bool.and_eq_true, List.contains_iff_mem] at plain known
    simp only [leaves, List.append_assoc]
    rw [isSteady_leaves left firm _ plain.1 known.1.1, List.singleton_append, isSteady,
      isSteady_token (isToken_of_symbol known.1.2), List.singleton_append, isSteady, Bool.true_and,
      isSteady_leaves right _ _ plain.2 known.2]
    simp
  | .assignment left op right, firm, rest, plain, known => by
    simp only [isPlain, hasSymbols, Bool.and_eq_true, List.contains_iff_mem] at plain known
    simp only [leaves, List.append_assoc]
    rw [isSteady_leaves left firm _ plain.1 known.1.1, List.singleton_append, isSteady,
      isSteady_token (isToken_of_symbol known.1.2), List.singleton_append]
    cases right.isOperation with
    | true => simpa [isSteady] using isSteady_leaves right _ rest plain.2 known.2
    | false => simpa [isSteady] using isSteady_leaves right _ rest plain.2 known.2
  | .before op operand, firm, rest, plain, known => by
    simp only [hasSymbols, Bool.and_eq_true, List.contains_iff_mem] at known
    rw [leaves, List.append_assoc, isSteady_token (isToken_of_symbol (head_of_sign known.1).1),
      isSteady_leaves operand _ _ plain known.2]
  | .behind operand op, firm, rest, plain, known => by
    simp only [hasSymbols, Bool.and_eq_true, List.contains_iff_mem] at known
    have all_symbols : ∀ op ∈ steps, op ∈ symbols := by decide
    rw [leaves, List.append_assoc, isSteady_leaves operand _ _ plain known.1,
      isSteady_token (isToken_of_symbol (all_symbols op known.2))]
  | .nested inner, firm, rest, plain, known => by
    rw [leaves, List.append_assoc, List.append_assoc, List.singleton_append, isSteady,
      isSteady_leaves inner _ _ plain known]
    rfl

end Expression

/-! ### Known operators -/

namespace Operator

variable {name op : String}

theorem binary?_mem {operator : Operator} (known : binary? name = some operator) :
    operator.symbol ∈ symbols := by
  unfold binary? at known
  split at known
  all_goals
    cases known
    try decide

theorem boolean?_mem {operator : Operator} (known : boolean? name = some operator) :
    operator.symbol ∈ symbols := by
  unfold boolean? at known
  split at known
  all_goals
    cases known
    try decide

theorem assignmentSymbol?_mem (known : assignmentSymbol? name = some op) : op ∈ symbols := by
  unfold assignmentSymbol? at known
  split at known
  all_goals
    cases known
    try decide

theorem beforeSymbol?_mem (known : beforeSymbol? name = some op) : op ∈ Expression.signs := by
  unfold beforeSymbol? at known
  split at known
  all_goals
    cases known
    try decide

theorem behindSymbol?_mem (known : behindSymbol? name = some op) : op ∈ Expression.steps := by
  unfold behindSymbol? at known
  split at known
  all_goals
    cases known
    try decide

end Operator

namespace Manuscript

variable {m : Manuscript} {fuel : Nat} {path : Path} {id : NodeId} {edge : Option Edge}

theorem Denotes.hasSymbols : ∀ (e : Expression) {id : NodeId}, m.Denotes id e → e.hasSymbols
  | .member receiver safe names, _, ⟨_, _, _, _, _, _, denotes⟩ => Denotes.hasSymbols receiver denotes
  | .operation left op right, _, ⟨_, operator, ⟨_, _, left_denotes⟩, _, _, right_denotes⟩ => by
    have symbol : op ∈ symbols := by
      rcases operator with ⟨_, _, _, known⟩ | ⟨_, _, _, known⟩
      · obtain ⟨operator, found, rfl⟩ := Option.map_eq_some_iff.1 known
        exact Operator.binary?_mem found
      · obtain ⟨operator, found, rfl⟩ := Option.map_eq_some_iff.1 known
        exact Operator.boolean?_mem found
    simp [Expression.hasSymbols, symbol, Denotes.hasSymbols left left_denotes, Denotes.hasSymbols right right_denotes]
  | .assignment left op right, _, ⟨_, ⟨_, _, _, known⟩, ⟨_, _, left_denotes⟩, _, _, right_denotes⟩ => by
    have symbol := Operator.assignmentSymbol?_mem known
    simp [Expression.hasSymbols, symbol, Denotes.hasSymbols left left_denotes, Denotes.hasSymbols right right_denotes]
  | .before op operand, _, ⟨_, ⟨_, _, _, known⟩, _, _, denotes⟩ => by
    have sign := Operator.beforeSymbol?_mem known
    simp [Expression.hasSymbols, sign, Denotes.hasSymbols operand denotes]
  | .behind operand op, _, ⟨_, ⟨_, _, _, known⟩, _, _, denotes⟩ => by
    have step := Operator.behindSymbol?_mem known
    simp [Expression.hasSymbols, step, Denotes.hasSymbols operand denotes]
  | .nested inner, _, ⟨_, _, _, denotes⟩ => Denotes.hasSymbols inner denotes
  | .thisObject, _, _ | .superObject, _, _ | .literal _, _, _ | .variable _, _, _ | .call .., _, _ | .memberCall .., _, _
  | .element .., _, _ | .nullCoalescing .., _, _ | .ternary .., _, _ | .cast .., _, _ | .instanceTest .., _, _ => rfl

theorem tight_of_ofTree {extents : Extents} {lines : Text.Lines} (narrow : m.tree.Narrow)
    (walked : m.occurrences = Occurrences.ofTree m.tree extents lines) : m.Tight := by
  refine ⟨narrow, fun edge blank => ?_⟩
  rw [walked] at blank
  exact Occurrences.separable_of_blankAfter blank

/-- Printed operators are read as printed, with two exceptions. Without comments and references in a narrow tree, an
    expression of names, literals, operators and parentheses is printed, and under all settings the text,
    cut into its longest tokens, has the parts of the expression for its tokens. It fails just where a plus
    stands before an operand that starts with a plus, or a minus before one that starts with a minus. -/
theorem tokenize_render_iff (bare : m.Bare) (ascends : m.tree.Ascends) (narrow : m.tree.Narrow) {extents : Extents}
    {lines : Text.Lines} (walked : m.occurrences = Occurrences.ofTree m.tree extents lines) {e : Expression}
    (denotes : m.Denotes id e) (plain : e.isPlain) (reaches : m.Reaches fuel path id edge)
    (alone : e.isChain → ¬ m.IsSubject path edge) :
    ∃ doc, m.printAt fuel path id edge = .ok doc ∧
      ∀ settings, tokenize (Doc.render settings doc).toList = some e.unparse ↔ e.isSafe := by
  have known := Denotes.hasSymbols e denotes
  have pending : m.Pending fuel path id edge e [] := by
    by_cases chain : e.isChain
    · exact pending_nil (alone chain)
    · rw [Pending, if_neg chain]
  obtain ⟨doc, printed, shows⟩ := (displays_expression bare ascends e _ _ _ _ _ denotes reaches pending).1
  have leaves_eq : doc.leaves = e.leaves := by simpa using shows.leaves_eq
  refine ⟨doc, printed, fun settings => ?_⟩
  have steady : isSteady true doc.leaves := by
    have whole := Expression.isSteady_leaves e true [] plain known
    rw [List.append_nil] at whole
    rw [leaves_eq, whole]
    rfl
  have typeset := Doc.render_typeset doc (shows.level (tight_of_ofTree narrow walked)) steady settings
  rw [leaves_eq] at typeset
  have read : tokenize ((Doc.render settings doc).toList ++ []) = some (e.unparse ++ []) ↔ e.isSafe ∧ tokenize [] = some [] :=
    Expression.tokenize_iff e plain known typeset Lexis.follow_nil
  simpa [tokenize] using read

def signedTree (outer inner : String) : Tree :=
  ⟨#[.of .prefixExpr [("expr", .node 1), ("op", .node 5)],
    .of .prefixExpr [("expr", .node 2), ("op", .node 4)],
    .of .variableExpr [("names", .array [.node 3])],
    .of .locationIdentifier [("value", .string "x")],
    .of .prefixOp [("$", .string inner)],
    .of .prefixOp [("$", .string outer)]]⟩

def signed (outer inner : String) : Manuscript where
  tree := signedTree outer inner
  occurrences := Occurrences.ofTree (signedTree outer inner) ⟨#[]⟩ (Text.Lines.ofText "")

/-- A minus before a plus is read as it is, but one before a minus is not. -/
theorem tokenize_render_iff_signed :
    (∃ doc, (signed "NEGATIVE" "POSITIVE").printAt 14 [] 0 none = .ok doc ∧
      ∀ settings, tokenize (Doc.render settings doc).toList = some ["-", "+", "x"]) ∧
    ∃ doc, (signed "NEGATIVE" "NEGATIVE").printAt 14 [] 0 none = .ok doc ∧
      ∀ settings, tokenize (Doc.render settings doc).toList ≠ some ["-", "-", "x"] := by
  have bare : ∀ outer inner, (signed outer inner).Bare := fun _ _ _ => rfl
  have walked : ∀ outer inner, (signed outer inner).occurrences =
      Occurrences.ofTree (signed outer inner).tree ⟨#[]⟩ (Text.Lines.ofText "") := fun outer inner => by
    rw [signed]
  have narrow : ∀ outer inner, (signed outer inner).tree.Narrow := fun outer inner => Tree.narrow_of_all (by
    simp [signed, signedTree, Node.IsNarrow, UInt16.size])
  have mixed : (signedTree "NEGATIVE" "POSITIVE").Ascends := Tree.ascends_of_all (by decide)
  have equal : (signedTree "NEGATIVE" "NEGATIVE").Ascends := Tree.ascends_of_all (by decide)
  have denotes {outer inner first second} (known : Operator.beforeSymbol? outer = some first)
      (also : Operator.beforeSymbol? inner = some second) :
      (signed outer inner).Denotes 0 (.before first (.before second (.variable ["x"]))) :=
    ⟨rfl, ⟨5, rfl, rfl, known⟩, 1, rfl, rfl, ⟨4, rfl, rfl, also⟩, 2, rfl, rfl,
      ⟨[3], rfl, .cons ⟨.inl rfl, "x", rfl, rfl⟩ .nil⟩, rfl⟩
  have reaches : ∀ outer inner, (signed outer inner).Reaches 14 [] 0 none := fun outer inner =>
    ⟨by simp, by simp, by simp [signed, signedTree, Tree.size], by simp⟩
  refine ⟨?_, ?_⟩
  · obtain ⟨doc, printed, read⟩ := tokenize_render_iff (bare _ _) mixed (narrow _ _) (walked _ _) (denotes rfl rfl) (by decide)
      (reaches "NEGATIVE" "POSITIVE") (fun chain => by cases chain)
    exact ⟨doc, printed, fun settings => (read settings).2 (by decide)⟩
  · obtain ⟨doc, printed, read⟩ := tokenize_render_iff (bare _ _) equal (narrow _ _) (walked _ _) (denotes rfl rfl) (by decide)
      (reaches "NEGATIVE" "NEGATIVE") (fun chain => by cases chain)
    exact ⟨doc, printed, fun settings same => absurd ((read settings).1 same) (by decide)⟩

end Manuscript
end ApexLayout
