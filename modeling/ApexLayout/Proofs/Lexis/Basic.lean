import ApexLayout.Printer.Operator
import ApexLayout.Proofs.Render.Texts

/-!
Reading a text back. It is cut into words, numbers, quoted texts and symbols, and at every place the
longest of them is taken. Two of them that stand next to each other are read as written if no longer
one starts with the first (`Apart`).
Reading the escapes of a string literal undoes escaping, and what is escaped is one quoted text on one line.
-/
namespace ApexLayout

namespace Lexis
open Doc (isSpacing)

variable {cs : List Char} {c : Char}

/-! ### Tokens -/

def isWordChar (c : Char) : Bool := c.isAlphanum || c == '_' || c == '$' || 128 ≤ c.toNat

def isWord : List Char → Bool
  | [] => false
  | c :: cs => !c.isDigit && isWordChar c && cs.all isWordChar

def isTypeLetter (c : Char) : Bool := c == 'l' || c == 'L' || c == 'd' || c == 'D'

def endsFraction : List Char → Bool
  | [] => true
  | [c] => c.isDigit || isTypeLetter c
  | c :: cs => c.isDigit && endsFraction cs

/-- What may stand behind a digit before the point. -/
def endsNumber : List Char → Bool
  | [] => true
  | [c] => c.isDigit || isTypeLetter c
  | '.' :: c :: cs => c.isDigit && endsFraction cs
  | c :: cs => c.isDigit && endsNumber cs

def isNumber : List Char → Bool
  | '.' :: c :: cs => c.isDigit && endsFraction cs
  | c :: cs => c.isDigit && endsNumber cs
  | [] => false

/-- What may stand behind the quote that opens a text. -/
def endsQuoted : List Char → Bool
  | [] => false
  | ['\''] => true
  | '\\' :: _ :: cs => endsQuoted cs
  | c :: cs => c != '\'' && c != '\\' && endsQuoted cs

def isQuoted : List Char → Bool
  | '\'' :: cs => endsQuoted cs
  | _ => false

def symbols : List String :=
  ["+", "-", "*", "/", "<<", ">>", ">>>", "^", "&", "|", "==", "===", "!==", "!=", "<>", "<", ">", "<=", ">=", "&&", "||",
    "=", "&=", "|=", "^=", "+=", "-=", "*=", "/=", "<<=", ">>=", ">>>=", "++", "--", "!", "~", "(", ")", "[", "]", ".",
    "?.", "?", "??", ":", ",", "=>"]

def isSymbol (cs : List Char) : Bool := symbols.any (·.toList == cs)

def isToken (cs : List Char) : Bool := isWord cs || isNumber cs || isQuoted cs || isSymbol cs

/-! ### The longest token -/

/-- The last place of the longest token at the start, among the first characters. -/
def longest (cs : List Char) : Nat → Option Nat
  | 0 => none
  | n + 1 => if isToken (cs.take (n + 1)) then some n else longest cs n

/-- The tokens of a text, unless it holds something else. -/
def tokenize : List Char → Option (List String)
  | [] => some []
  | c :: cs =>
    if isSpacing c then tokenize cs
    else
      match longest (c :: cs) (cs.length + 1) with
      | none => none
      | some n => (tokenize (cs.drop n)).map (String.ofList (c :: cs.take n) :: ·)
termination_by cs => cs.length
decreasing_by
  · simp
  · simp only [List.length_drop, List.length_cons]
    omega

/-- No longer token starts with the characters, followed by the rest. -/
def Apart (t rest : List Char) : Prop := ∀ more, more ≠ [] → more <+: rest → isToken (t ++ more) = false

theorem longest_of_apart {t rest : List Char} (token : isToken t) (apart : Apart t rest) (n : Nat) (enough : t.length ≤ n)
    (within : n ≤ (t ++ rest).length) : longest (t ++ rest) n = some (t.length - 1) := by
  induction n with
  | zero =>
    obtain rfl : t = [] := List.length_eq_zero_iff.1 (by omega)
    cases token
  | succ n ih =>
    rw [longest]
    by_cases here : t.length = n + 1
    · have taken : (t ++ rest).take (n + 1) = t := by rw [← here, List.take_left]
      rw [taken, if_pos token, here]
      rfl
    · have taken : (t ++ rest).take (n + 1) = t ++ rest.take (n + 1 - t.length) := by
        rw [List.take_append, List.take_of_length_le (by omega)]
      have longer : isToken (t ++ rest.take (n + 1 - t.length)) = false := by
        refine apart _ ?_ (List.take_prefix _ _)
        intro none_taken
        have short := congrArg List.length none_taken
        simp only [List.length_take, List.length_nil, List.length_append] at short within
        omega
      rw [taken, longer]
      exact ih (by omega) (by omega)

theorem longest_ge {k n : Nat} (token : isToken (cs.take (k + 1))) (less : k < n) :
    ∃ j, k ≤ j ∧ j < n ∧ longest cs n = some j := by
  induction n with
  | zero => omega
  | succ n ih =>
    rw [longest]
    by_cases here : isToken (cs.take (n + 1))
    · exact ⟨n, by omega, by omega, if_pos here⟩
    · rw [if_neg here]
      have other : k ≠ n := by
        rintro rfl
        exact here token
      obtain ⟨j, ge, lt, found⟩ := ih (by omega)
      exact ⟨j, ge, by omega, found⟩

/-! ### The first and the last character of a token -/

section
variable {P : Char → Prop} [DecidablePred P]

-- What is said of some characters is decided on these, not on all characters.
scoped instance (priority := high) decidableForallMem {cs : List Char} : Decidable (∀ c ∈ cs, P c) :=
  List.decidableBAll P cs

scoped instance (priority := high) decidableForallMemOption {first? : Option Char} : Decidable (∀ c ∈ first?, P c) :=
  Option.decidableForallMem first?

end

/-- No character of a symbol stands in a word, opens a quoted text or is white space. -/
theorem symbol_chars : ∀ s ∈ symbols, ∀ c ∈ s.toList, isWordChar c = false ∧ c ≠ '\'' ∧ isSpacing c = false := by
  decide

theorem isSymbol_iff : isSymbol cs ↔ ∃ s ∈ symbols, s.toList = cs := by
  simp [isSymbol]

theorem isSpacing_iff : isSpacing c ↔ c = ' ' ∨ c = '\t' ∨ c = '\n' := by
  simp [isSpacing, Text.isGap, or_assoc]

theorem isWordChar_of_isDigit (digit : c.isDigit) : isWordChar c := by
  simp [isWordChar, Char.isAlphanum, digit]

theorem isWordChar_of_isTypeLetter (letter : isTypeLetter c) : isWordChar c := by
  simp only [isTypeLetter, Bool.or_eq_true, beq_iff_eq] at letter
  rcases letter with ((rfl | rfl) | rfl) | rfl <;> decide

theorem mem_of_endsFraction (ends : endsFraction cs) : ∀ c ∈ cs, isWordChar c := by
  fun_induction endsFraction cs with
  | case1 => simp
  | case2 c =>
    intro d member
    rw [List.mem_singleton.1 member]
    rcases Bool.or_eq_true_iff.1 ends with digit | letter
    · exact isWordChar_of_isDigit digit
    · exact isWordChar_of_isTypeLetter letter
  | case3 c cs _ ih =>
    obtain ⟨digit, later⟩ := Bool.and_eq_true_iff.1 ends
    intro d member
    rcases List.mem_cons.1 member with rfl | behind
    · exact isWordChar_of_isDigit digit
    · exact ih later d behind

/-- In a number, a point is followed by a digit, and everything else is a digit or a letter. -/
theorem of_endsNumber (ends : endsNumber cs) :
    ∀ before c behind, cs = before ++ c :: behind → isWordChar c ∨ c = '.' ∧ ∃ d more, behind = d :: more ∧ d.isDigit := by
  fun_induction endsNumber cs with
  | case1 => simp
  | case2 c =>
    intro before d behind same
    obtain rfl : c = d := by
      cases before with
      | nil =>
        obtain ⟨first, -⟩ : c = d ∧ behind = [] := by simpa using same
        exact first
      | cons => simp at same
    rcases Bool.or_eq_true_iff.1 ends with digit | letter
    · exact .inl (isWordChar_of_isDigit digit)
    · exact .inl (isWordChar_of_isTypeLetter letter)
  | case3 d cs =>
    obtain ⟨digit, later⟩ := Bool.and_eq_true_iff.1 ends
    intro before c behind same
    cases before with
    | nil =>
      obtain ⟨rfl, rfl⟩ : '.' = c ∧ d :: cs = behind := by simpa using same
      exact .inr ⟨rfl, d, cs, rfl, digit⟩
    | cons first before =>
      obtain ⟨rfl, tail⟩ : '.' = first ∧ d :: cs = before ++ c :: behind := by simpa using same
      have member : c ∈ d :: cs := by simp [tail]
      rcases List.mem_cons.1 member with rfl | inside
      · exact .inl (isWordChar_of_isDigit digit)
      · exact .inl (mem_of_endsFraction later c inside)
  | case4 c cs _ _ ih =>
    obtain ⟨digit, later⟩ := Bool.and_eq_true_iff.1 ends
    intro before d behind same
    cases before with
    | nil =>
      obtain ⟨rfl, -⟩ : c = d ∧ cs = behind := by simpa using same
      exact .inl (isWordChar_of_isDigit digit)
    | cons first before =>
      obtain ⟨-, tail⟩ : c = first ∧ cs = before ++ d :: behind := by simpa using same
      exact ih later before d behind tail

theorem of_isNumber (number : isNumber cs) :
    ∀ before c behind, cs = before ++ c :: behind → isWordChar c ∨ c = '.' ∧ ∃ d more, behind = d :: more ∧ d.isDigit := by
  -- A digit before the number makes no difference.
  have longer : endsNumber cs := by
    unfold isNumber at number
    split at number
    · simpa [endsNumber] using number
    · next c cs _ =>
      obtain ⟨digit, ends⟩ := Bool.and_eq_true_iff.1 number
      cases cs with
      | nil => simp [endsNumber, digit]
      | cons d cs =>
        rw [endsNumber]
        · simp [digit, ends]
        · simp
        · simp_all
    · cases number
  exact of_endsNumber longer

theorem head_of_isNumber (number : isNumber (c :: cs)) : c.isDigit ∨ c = '.' := by
  unfold isNumber at number
  split at number
  · next same =>
    obtain ⟨rfl, -⟩ := List.cons.inj same
    exact .inr rfl
  · next same =>
    obtain ⟨rfl, -⟩ := List.cons.inj same
    exact .inl (Bool.and_eq_true_iff.1 number).1
  · cases number

theorem head_of_isQuoted (quoted : isQuoted (c :: cs)) : c = '\'' := by
  unfold isQuoted at quoted
  split at quoted
  · next same => exact (List.cons.inj same).1
  · cases quoted

theorem endsQuoted_append (ends : endsQuoted cs) (c : Char) (more : List Char) :
    endsQuoted (cs ++ c :: more) = false := by
  fun_induction endsQuoted cs with
  | case1 => cases ends
  | case2 => cases more <;> simp [endsQuoted]
  | case3 d cs ih => simpa [endsQuoted] using ih ends
  | case4 d cs _ _ ih =>
    simp only [Bool.and_eq_true, bne_iff_ne] at ends
    obtain ⟨⟨no_quote, no_slash⟩, later⟩ := ends
    rw [List.cons_append, endsQuoted]
    · simp [ih later]
    · simp_all
    · simp_all

theorem getLast?_of_endsQuoted (ends : endsQuoted cs) : cs.getLast? = some '\'' := by
  fun_induction endsQuoted cs with
  | case1 => cases ends
  | case2 => rfl
  | case3 d cs ih => simp [List.getLast?_cons, ih ends]
  | case4 d cs _ _ ih =>
    simp only [Bool.and_eq_true] at ends
    simp [List.getLast?_cons, ih ends.2]

/-- The first character of a token tells what it is. -/
theorem token_cases (token : isToken (c :: cs)) :
    isWord (c :: cs) ∧ isWordChar c ∧ c.isDigit = false ∨ isNumber (c :: cs) ∧ (c.isDigit ∨ c = '.') ∨
      isQuoted (c :: cs) ∧ c = '\'' ∨ isSymbol (c :: cs) ∧ isWordChar c = false ∧ c ≠ '\'' ∧ isSpacing c = false := by
  simp only [isToken, Bool.or_eq_true] at token
  rcases token with ((word | number) | quoted) | symbol
  · simp only [isWord, Bool.and_eq_true, Bool.not_eq_true'] at word
    exact .inl ⟨by simp [isWord, word], word.1.2, word.1.1⟩
  · exact .inr (.inl ⟨number, head_of_isNumber number⟩)
  · exact .inr (.inr (.inl ⟨quoted, head_of_isQuoted quoted⟩))
  · obtain ⟨s, member, same⟩ := isSymbol_iff.1 symbol
    exact .inr (.inr (.inr ⟨symbol, symbol_chars s member c (by simp [same])⟩))

theorem head_of_isToken (token : isToken (c :: cs)) : isSpacing c = false := by
  rw [Bool.eq_false_iff]
  intro spacing
  have no_word : isWordChar c = false := by
    rcases isSpacing_iff.1 spacing with rfl | rfl | rfl <;> decide
  rcases token_cases token with ⟨-, word, -⟩ | ⟨-, digit | rfl⟩ | ⟨-, rfl⟩ | ⟨-, -, -, ink⟩
  · simp [no_word] at word
  · simp [isWordChar_of_isDigit digit] at no_word
  · cases spacing
  · cases spacing
  · simp [spacing] at ink

theorem not_isGap_of_isWordChar (letter : isWordChar c) : Text.isGap c = false := by
  rw [Bool.eq_false_iff]
  intro gap
  simp only [Text.isGap, Bool.or_eq_true, beq_iff_eq] at gap
  rcases gap with rfl | rfl <;> cases letter

theorem last_of_isToken (token : isToken (cs ++ [c])) : Text.isGap c = false := by
  simp only [isToken, Bool.or_eq_true] at token
  rcases token with ((word | number) | quoted) | symbol
  · refine not_isGap_of_isWordChar ?_
    cases cs with
    | nil =>
      simp only [List.nil_append, isWord, Bool.and_eq_true] at word
      exact word.1.2
    | cons first cs =>
      simp only [List.cons_append, isWord, Bool.and_eq_true, List.all_eq_true] at word
      exact word.2 c (by simp)
  · rcases of_isNumber number cs c [] rfl with letter | ⟨-, d, more, none_there, -⟩
    · exact not_isGap_of_isWordChar letter
    · cases none_there
  · cases cs with
    | nil =>
      obtain rfl := head_of_isQuoted quoted
      rfl
    | cons first cs =>
      obtain rfl := head_of_isQuoted quoted
      have last := getLast?_of_endsQuoted quoted
      obtain rfl : c = '\'' := by simpa using last
      rfl
  · obtain ⟨s, member, same⟩ := isSymbol_iff.1 symbol
    have ink := (symbol_chars s member c (by simp [same])).2.2
    exact (Bool.or_eq_false_iff.1 ink).1

/-! ### Tokens that are read as written -/

theorem apart_nil (t : List Char) : Apart t [] := by
  intro more some_there within
  exact absurd (List.prefix_nil.1 within) some_there

theorem apart_cons {first : Char} {t : List Char}
    (none_longer : ∀ more, more <+: cs → ¬ isToken (first :: (t ++ c :: more))) : Apart (first :: t) (c :: cs) := by
  intro more some_there within
  cases more with
  | nil => exact absurd rfl some_there
  | cons d more =>
    obtain ⟨rfl, inside⟩ := List.cons_prefix_cons.1 within
    exact Bool.eq_false_iff.2 (none_longer more inside)

section
variable {t rest : List Char}

theorem apart_word (word : isWord t) (other : ∀ c ∈ rest.head?, isWordChar c = false) : Apart t rest := by
  cases rest with
  | nil => exact apart_nil t
  | cons c cs =>
    cases t with
    | nil => cases word
    | cons first t =>
      refine apart_cons fun more _ token => ?_
      have no_word : isWordChar c = false := other c rfl
      simp only [isWord, Bool.and_eq_true, Bool.not_eq_true'] at word
      rcases token_cases token with ⟨longer, -⟩ | ⟨-, digit | rfl⟩ | ⟨-, rfl⟩ | ⟨-, no_letter, -⟩
      · simp [isWord, no_word] at longer
      · simp [word.1.1] at digit
      · cases word.1.2
      · cases word.1.2
      · simp [word.1.2] at no_letter

/-- A number goes on with letters and digits, and with a point only before a digit. -/
theorem apart_number (number : isNumber t) (other : ∀ c ∈ rest.head?, isWordChar c = false)
    (point : ∀ c cs, rest = '.' :: c :: cs → c.isDigit = false) : Apart t rest := by
  cases rest with
  | nil => exact apart_nil t
  | cons c cs =>
    cases t with
    | nil => cases number
    | cons first t =>
      refine apart_cons fun more inside token => ?_
      have starts := head_of_isNumber number
      rcases token_cases token with ⟨-, letter, no_digit⟩ | ⟨longer, -⟩ | ⟨-, rfl⟩ | ⟨symbol, no_letter, -⟩
      · rcases starts with digit | rfl
        · simp [no_digit] at digit
        · cases letter
      · rcases of_isNumber longer (first :: t) c more rfl with letter | ⟨rfl, d, others, rfl, digit⟩
        · simp [other c rfl] at letter
        · obtain ⟨behind, rfl⟩ := inside
          simp [point d (others ++ behind) rfl] at digit
      · rcases starts with digit | point
        · cases digit
        · cases point
      · rcases starts with digit | rfl
        · simp [isWordChar_of_isDigit digit] at no_letter
        · -- Only the point itself is a symbol that starts with a point.
          obtain ⟨s, member, same⟩ := isSymbol_iff.1 symbol
          have alone : ∀ s ∈ symbols, s.toList.head? = some '.' → s.toList.length = 1 := by decide
          have length := alone s member (by simp [same])
          simp [same] at length

theorem apart_quoted (quoted : isQuoted t) : Apart t rest := by
  cases rest with
  | nil => exact apart_nil t
  | cons c cs =>
    cases t with
    | nil => cases quoted
    | cons first t =>
      obtain rfl := head_of_isQuoted quoted
      refine apart_cons fun more _ token => ?_
      rcases token_cases token with ⟨-, letter, -⟩ | ⟨-, digit | point⟩ | ⟨longer, -⟩ | ⟨-, -, no_quote, -⟩
      · cases letter
      · cases digit
      · cases point
      · have ended := endsQuoted_append quoted c more
        rw [show endsQuoted (t ++ c :: more) = true from longer] at ended
        cases ended
      · exact no_quote rfl

/-- The character may stand behind the symbol in a longer one. -/
def extends? (s : String) (c : Char) : Bool :=
  symbols.any (fun longer => (s.toList ++ [c]).isPrefixOf longer.toList) || s == "." && c.isDigit

theorem apart_symbol {s : String} (symbol : s ∈ symbols) (other : ∀ c ∈ rest.head?, extends? s c = false) :
    Apart s.toList rest := by
  cases rest with
  | nil => exact apart_nil _
  | cons c cs =>
    have no_more := other c rfl
    simp only [extends?, Bool.or_eq_false_iff, List.any_eq_false] at no_more
    have chars := symbol_chars s symbol
    cases is_list : s.toList with
    | nil =>
      have some_there : ∀ s ∈ symbols, s.toList ≠ [] := by decide
      exact absurd is_list (some_there s symbol)
    | cons first t =>
      refine apart_cons fun more _ token => ?_
      obtain ⟨no_letter, no_quote, -⟩ := chars first (by simp [is_list])
      rcases token_cases token with ⟨-, letter, -⟩ | ⟨number, digit | rfl⟩ | ⟨-, rfl⟩ | ⟨longer, -⟩
      · simp [no_letter] at letter
      · simp [isWordChar_of_isDigit digit] at no_letter
      · have alone : ∀ s ∈ symbols, s.toList.head? = some '.' → s = "." := by decide
        obtain rfl := alone s symbol (by simp [is_list])
        obtain rfl : t = [] := by simpa using is_list.symm
        rcases of_isNumber number [] '.' (c :: more) rfl with letter | ⟨-, d, others, same, digit⟩
        · cases letter
        · obtain ⟨rfl, -⟩ := List.cons.inj same
          simp [digit] at no_more
      · exact no_quote rfl
      · obtain ⟨other_symbol, member, same⟩ := isSymbol_iff.1 longer
        refine no_more.1 other_symbol member ?_
        rw [List.isPrefixOf_iff_prefix, same, is_list]
        exact ⟨more, by simp⟩

theorem tokenize_blanks {blanks : List Char} (spacing : ∀ c ∈ blanks, isSpacing c) :
    tokenize (blanks ++ rest) = tokenize rest := by
  induction blanks with
  | nil => rfl
  | cons c blanks ih =>
    rw [List.cons_append, tokenize, if_pos (spacing c List.mem_cons_self)]
    exact ih fun d member => spacing d (List.mem_cons_of_mem _ member)

theorem tokenize_token (token : isToken t) (apart : Apart t rest) :
    tokenize (t ++ rest) = (tokenize rest).map (String.ofList t :: ·) := by
  have found := longest_of_apart token apart (t ++ rest).length (by simp) le_rfl
  cases t with
  | nil => cases token
  | cons c t =>
    rw [List.cons_append, tokenize, if_neg (by simp [head_of_isToken token])]
    simp only [List.cons_append, List.length_cons, Nat.add_sub_cancel] at found
    simp only [found, List.drop_left, List.take_left]

theorem tokenize_fused {more : List Char} (some_there : more ≠ []) (within : more <+: rest) (longer : isToken (t ++ more))
    (read : t ≠ []) (ts : List String) : tokenize (t ++ rest) ≠ some (String.ofList t :: ts) := by
  obtain ⟨behind, rfl⟩ := within
  cases t with
  | nil => exact absurd rfl read
  | cons c t =>
    have taken : isToken ((c :: (t ++ (more ++ behind))).take (t.length + more.length + 1)) := by
      rw [← List.append_assoc, List.take_succ_cons, List.take_left' (by simp)]
      exact longer
    have within : t.length + more.length < (t ++ (more ++ behind)).length + 1 := by
      simp only [List.length_append]
      omega
    obtain ⟨k, ge, lt, found⟩ := longest_ge taken within
    rw [List.cons_append, tokenize, if_neg (by simp [head_of_isToken longer])]
    simp only [found]
    intro same
    obtain ⟨others, -, same⟩ := Option.map_eq_some_iff.1 same
    have lengths := congrArg (fun s : String => s.toList.length) (List.cons.inj same).1
    have positive : 0 < more.length := List.length_pos_iff.2 some_there
    simp only [String.toList_ofList, List.length_cons, List.length_take] at lengths
    omega

end

end Lexis

/-! ### String literals -/

namespace Printer

/-- What the letters behind a backslash stand for. -/
def escapes : List (Char × Char) :=
  [('\\', '\\'), ('b', '\x08'), ('t', '\t'), ('n', '\n'), ('f', '\x0c'), ('r', '\r'), ('\'', '\'')]

/-- The text that escapes stand for. Nothing but the letters of escapes may stand behind a backslash. -/
def unescape? : List Char → Option (List Char)
  | [] => some []
  | '\\' :: letter :: rest => (escapes.lookup letter).bind fun c => (unescape? rest).map (c :: ·)
  | c :: rest => if c = '\\' then none else (unescape? rest).map (c :: ·)

def controls : List Char := ['\x08', '\t', '\n', '\x0c', '\r']

theorem escapeLiteral_cases (c : Char) :
    (∃ letter, escapeLiteral c = ['\\', letter] ∧ escapes.lookup letter = some c ∧ letter ∉ controls) ∨
      escapeLiteral c = [c] ∧ c ≠ '\\' ∧ c ≠ '\'' ∧ c ∉ controls := by
  unfold escapeLiteral
  split
  iterate 7 exact .inl ⟨_, rfl, rfl, by decide⟩
  simp_all [controls]

/-- One character after the other, escaping adds nothing to read and no quote that is not escaped. -/
theorem escaped_cons (c : Char) (rest : List Char) :
    unescape? (escapeLiteral c ++ rest) = (unescape? rest).map (c :: ·) ∧
      Lexis.endsQuoted (escapeLiteral c ++ rest) = Lexis.endsQuoted rest ∧ ∀ d ∈ escapeLiteral c, d ∉ controls := by
  rcases escapeLiteral_cases c with ⟨letter, shown, stands, plain⟩ | ⟨shown, no_backslash, no_quote, plain⟩
  · have backslash : '\\' ∉ controls := by decide
    simp [shown, unescape?, stands, Lexis.endsQuoted, plain, backslash]
  · simp [shown, unescape?, Lexis.endsQuoted, no_backslash, no_quote, plain]

theorem escaped (cs : List Char) :
    unescape? (cs.flatMap escapeLiteral) = some cs ∧ Lexis.endsQuoted (cs.flatMap escapeLiteral ++ ['\'']) ∧
      ∀ d ∈ cs.flatMap escapeLiteral, d ∉ controls := by
  induction cs with
  | nil => exact ⟨rfl, rfl, by simp⟩
  | cons c cs ih =>
    obtain ⟨read, ends, plain⟩ := ih
    rw [List.flatMap_cons]
    refine ⟨by rw [(escaped_cons c _).1, read]; rfl, ?_, fun d member => ?_⟩
    · rwa [List.append_assoc, (escaped_cons c _).2.1]
    · rcases List.mem_append.mp member with here | later
      · exact (escaped_cons c []).2.2 d here
      · exact plain d later

/-- Reading the escapes of an escaped text gives the text back. As a literal it is printed between two quotes, the second
    of which is the first one not escaped, and no control of those that have an escape stands between them. -/
theorem render_quoted_escapeString (settings : FormatSettings) (s : String) :
    unescape? (escapeString s).toList = some s.toList ∧
      Doc.render settings (quoted (scalar (.string s))) = "'" ++ escapeString s ++ "'" ∧
      Lexis.isQuoted ("'" ++ escapeString s ++ "'").toList ∧ ∀ c ∈ (escapeString s).toList, c ∉ controls := by
  obtain ⟨read, ends, plain⟩ := escaped s.toList
  have chars : (escapeString s).toList = s.toList.flatMap escapeLiteral := String.toList_ofList
  rw [chars]
  refine ⟨read, ?_, by simpa [chars, Lexis.isQuoted] using ends, plain⟩
  simp [Doc.render, quoted, scalar, Doc.plain, Doc.plains, Doc.spreadBreaks, Doc.spreadBreaksAll, Doc.run, Doc.advance,
    Doc.Work.settle, Doc.Canvas.write, String.append_assoc]

end Printer
end ApexLayout
