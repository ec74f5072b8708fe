import ApexLayout.Decimal.Double

/-!
Strings, keys, numbers, dates and times of TOML, each read from the start of what is left of a text.
-/
namespace ApexLayout.Toml

/-- A reader gives what it reads, and what is left of the text. -/
abbrev Reader (α : Type) := List Char → Option (α × List Char)

def isSpace (c : Char) : Bool := c == ' ' || c == '\t'

/-- A character that may stand in a line: no control but the tab. -/
def isPrintable (c : Char) : Bool := c == '\t' || (' ' ≤ c && c != '\x7f')

def skipSpaces (cs : List Char) : List Char := cs.dropWhile isSpace

def lineEnd? : List Char → Option (List Char)
  | '\n' :: cs => some cs
  | '\r' :: '\n' :: cs => some cs
  | _ => none

def skipLines (inComment : Bool) : List Char → List Char
  | [] => []
  | '\n' :: cs => skipLines false cs
  | '\r' :: '\n' :: cs => skipLines false cs
  | c :: cs =>
    if inComment then if isPrintable c then skipLines true cs else c :: cs
    else if isSpace c then skipLines false cs
    else if c = '#' then skipLines true cs
    else c :: cs

/-- Skips spaces and a comment up to a line end or the end of the text. -/
def restOfLine? (cs : List Char) : Option (List Char) :=
  let rest := match skipSpaces cs with
    | '#' :: rest => rest.dropWhile isPrintable
    | rest => rest
  if rest.isEmpty then some [] else lineEnd? rest

/-! ### Strings -/

def digitValue? (base : Nat) (c : Char) : Option Nat :=
  let value :=
    if c.isDigit then c.toNat - '0'.toNat
    else if 'a' ≤ c && c ≤ 'f' then c.toNat - 'a'.toNat + 10
    else if 'A' ≤ c && c ≤ 'F' then c.toNat - 'A'.toNat + 10
    else 16
  if value < base then some value else none

def digitsFrom (base value : Nat) : List Char → Option Nat
  | [] => some value
  | c :: cs => (digitValue? base c).bind fun d => digitsFrom base (base * value + d) cs

/-- A character given by a number of hexadecimal digits. -/
def codePoint (count : Nat) : Reader Char := fun cs =>
  if (cs.take count).length = count then
    (digitsFrom 16 0 (cs.take count)).bind fun n =>
      if n.isValidChar then some (Char.ofNat n, cs.drop count) else none
  else none

def escaped : Reader Char
  | 'b' :: cs => some ('\x08', cs)
  | 't' :: cs => some ('\t', cs)
  | 'n' :: cs => some ('\n', cs)
  | 'f' :: cs => some ('\x0c', cs)
  | 'r' :: cs => some ('\r', cs)
  | '"' :: cs => some ('"', cs)
  | '\\' :: cs => some ('\\', cs)
  | 'u' :: cs => codePoint 4 cs
  | 'U' :: cs => codePoint 8 cs
  | _ => none

/-- The rest of a string on one line. Only in double quotes does a backslash escape. The bound is on the
    number of characters. -/
def shortString (quote : Char) : Nat → List Char → Reader String
  | 0, _, _ => none
  | _, _, [] => none
  | bound + 1, before, c :: cs =>
    if c = quote then some (String.ofList before.reverse, cs)
    else if c = '\\' ∧ quote = '"' then
      (escaped cs).bind fun (c, rest) => shortString quote bound (c :: before) rest
    else if isPrintable c then shortString quote bound (c :: before) cs
    else none

/-- Skips a line that ends in a backslash, with the spaces and line ends after it. -/
def joinedLine? (cs : List Char) : Option (List Char) :=
  (lineEnd? (skipSpaces cs)).map (skipBlankLines ·)
where
  skipBlankLines : List Char → List Char
    | [] => []
    | '\r' :: '\n' :: cs => skipBlankLines cs
    | c :: cs => if isSpace c || c = '\n' then skipBlankLines cs else c :: cs

/-- The rest of a string on several lines, which three quotes end. Up to two more quotes before these
    belong to the string. -/
def longString (quote : Char) : Nat → List Char → Reader String
  | 0, _, _ => none
  | _, _, [] => none
  | bound + 1, before, c :: cs =>
    if c = quote then
      let quotes := ((c :: cs).takeWhile (· = quote)).length
      if quotes < 3 then longString quote bound (c :: before) cs
      else if quotes ≤ 5 then
        some (String.ofList (before.reverse ++ List.replicate (quotes - 3) quote), (c :: cs).drop quotes)
      else none
    else if c = '\\' ∧ quote = '"' then
      match joinedLine? cs with
      | some rest => longString quote bound before rest
      | none => (escaped cs).bind fun (c, rest) => longString quote bound (c :: before) rest
    else
      match lineEnd? (c :: cs) with
      | some rest => longString quote bound ('\n' :: before) rest
      | none => if isPrintable c then longString quote bound (c :: before) cs else none

/-- A string on one line, or on several if it starts with three quotes. A line end right behind these is
    not part of it. -/
def stringIn (quote : Char) (cs : List Char) : Option (String × List Char) :=
  match cs with
  | a :: b :: rest =>
    if a = quote ∧ b = quote then longString quote (rest.length + 1) [] ((lineEnd? rest).getD rest)
    else shortString quote (cs.length + 1) [] cs
  | cs => shortString quote (cs.length + 1) [] cs

/-! ### Whole numbers -/

/-- The digits at the start of a text. Single underscores may stand between them. -/
def digitRun (base : Nat) : List Char → List Char × List Char
  | [] => ([], [])
  | '_' :: c :: cs =>
    if (digitValue? base c).isSome then
      let (digits, rest) := digitRun base cs
      (c :: digits, rest)
    else ([], '_' :: c :: cs)
  | c :: cs =>
    if (digitValue? base c).isSome then
      let (digits, rest) := digitRun base cs
      (c :: digits, rest)
    else ([], c :: cs)

def someDigits (base : Nat) : Reader (List Char) := fun cs =>
  if cs.head? = some '_' then none
  else
    match digitRun base cs with
    | ([], _) => none
    | run => some run

/-- The digits of a decimal number, without zeros before it. -/
def wholeDigits : Reader (List Char)
  | '0' :: cs => some (['0'], cs)
  | cs => someDigits 10 cs

/-- The number that a reader of digits in a base gives. -/
def inBase (base : Nat) (read : Reader (List Char)) : Reader Int := fun cs => do
  let (digits, rest) ← read cs
  let n ← digitsFrom base 0 digits
  return ((n : Int), rest)

/-- A number of 64 bits. A sign is allowed only in decimal. -/
def integer (cs : List Char) : Option (Int × List Char) :=
  let read := match cs with
    | '0' :: 'x' :: rest => inBase 16 (someDigits 16) rest
    | '0' :: 'o' :: rest => inBase 8 (someDigits 8) rest
    | '0' :: 'b' :: rest => inBase 2 (someDigits 2) rest
    | '+' :: rest => inBase 10 wholeDigits rest
    | '-' :: rest => (inBase 10 wholeDigits rest).map fun (n, rest) => (-n, rest)
    | cs => inBase 10 wholeDigits cs
  read.bind fun (n, rest) => if -(Nat.pow 2 63 : Int) ≤ n ∧ n < Nat.pow 2 63 then some (n, rest) else none

/-! ### Keys -/

def isBareKey (c : Char) : Bool := c.isAlphanum || c == '_' || c == '-'

/-- One part of a key: a bare word, or a string on one line. -/
def keyPart : Reader String
  | '"' :: cs => shortString '"' (cs.length + 1) [] cs
  | '\'' :: cs => shortString '\'' (cs.length + 1) [] cs
  | cs =>
    match cs.takeWhile isBareKey with
    | [] => none
    | word => some (String.ofList word, cs.dropWhile isBareKey)

/-- A key: one part or more with dots between them, and spaces around each. The bound is on the number
    of parts. -/
def keyParts : Nat → Reader (List String)
  | 0, _ => none
  | bound + 1, cs => do
    let (part, rest) ← keyPart (skipSpaces cs)
    match skipSpaces rest with
    | '.' :: rest =>
      let (parts, rest) ← keyParts bound rest
      return (part :: parts, rest)
    | rest => return ([part], rest)

/-- How many parts a key may have, and how deep arrays and inline tables may be nested. -/
def maxNesting : Nat := 79

def key : Reader (List String) := keyParts maxNesting

/-! ### Numbers with a point or an exponent -/

/-- Half way between the greatest double and the next power of two. -/
def doubleBound : Nat := Nat.pow 2 1024 - Nat.pow 2 970

/-- The number with these digits, times a power of ten, is too large for a double. It is compared exactly
    only if it has as many places before its point as the bound. -/
def exceedsDouble (digits : List Char) (scale : Int) : Bool :=
  let digits := digits.dropWhile (· = '0')
  let places := digits.length + scale
  let value := (digitsFrom 10 0 digits).getD 0
  if digits.isEmpty || places < 309 then false
  else if 309 < places then true
  else doubleBound * Nat.pow 10 (-scale).toNat ≤ value * Nat.pow 10 scale.toNat

/-- The digits behind a point, which may be absent. -/
def decimals : Reader (List Char)
  | '.' :: cs => someDigits 10 cs
  | cs => some ([], cs)

def exponent (cs : List Char) : Option (Int × List Char) :=
  match cs with
  | c :: cs' =>
    if c = 'e' || c = 'E' then
      match cs' with
      | '-' :: rest => (inBase 10 (someDigits 10) rest).map fun (n, rest) => (-n, rest)
      | '+' :: rest => inBase 10 (someDigits 10) rest
      | rest => inBase 10 (someDigits 10) rest
    else some (0, cs)
  | [] => some (0, [])

/-- The rest of a number behind its sign. It has a point, an exponent or both. -/
def fractionFrom (negative : Bool) (cs : List Char) : Option (List Char) :=
  match cs with
  | 'i' :: 'n' :: 'f' :: rest => some rest
  | 'n' :: 'a' :: 'n' :: rest => some rest
  | cs => do
    let (whole, afterWhole) ← wholeDigits cs
    let (decimals, afterDecimals) ← decimals afterWhole
    let (power, rest) ← exponent afterDecimals
    if rest.length = afterWhole.length then none
    else if !negative && exceedsDouble (whole ++ decimals) (power - decimals.length) then none
    else some rest

/-- What is left behind a number with a point or an exponent, or one that is not finite. -/
def fraction? : List Char → Option (List Char)
  | '+' :: cs => fractionFrom false cs
  | '-' :: cs => fractionFrom true cs
  | cs => fractionFrom false cs

/-! ### The calendar -/

def isLeapYear (year : Nat) : Bool := year % 4 == 0 && (year % 100 != 0 || year % 400 == 0)

def daysIn (year month : Nat) : Nat :=
  if month = 2 then if isLeapYear year then 29 else 28
  else if [4, 6, 9, 11].contains month then 30
  else 31

/-! ### Reading -/

/-- A number of so many digits between two others. -/
def numberIn (count least most : Nat) : Reader Nat := fun cs =>
  if (cs.take count).length = count then
    (digitsFrom 10 0 (cs.take count)).bind fun n =>
      if least ≤ n && n ≤ most then some (n, cs.drop count) else none
  else none

def behind (c : Char) (cs : List Char) : Option (List Char) := if cs.head? = some c then some cs.tail else none

def date? (cs : List Char) : Option (List Char) := do
  let (year, rest) ← numberIn 4 0 9999 cs
  let (month, rest) ← numberIn 2 1 12 (← behind '-' rest)
  let (_, rest) ← numberIn 2 1 (daysIn year month) (← behind '-' rest)
  return rest

def hourMinute? (cs : List Char) : Option (List Char) := do
  let (_, rest) ← numberIn 2 0 23 cs
  let (_, rest) ← numberIn 2 0 59 (← behind ':' rest)
  return rest

/-- What is left behind a time. A minute may have a leap second, and a second any number of decimals. -/
def time? (cs : List Char) : Option (List Char) := do
  let (_, rest) ← numberIn 2 0 60 (← behind ':' (← hourMinute? cs))
  match rest with
  | '.' :: c :: after => return if c.isDigit then after.dropWhile Char.isDigit else rest
  | _ => return rest

/-- What is left behind the distance from universal time, which may be absent. -/
def zone? : List Char → Option (List Char)
  | [] => some []
  | c :: cs =>
    if c = 'Z' || c = 'z' then some cs
    else if c = '+' || c = '-' then hourMinute? cs
    else some (c :: cs)

/-- What is left behind a time that follows a date, with a letter or a space between them. -/
def timeAfterDate? : List Char → Option (List Char)
  | c :: cs => if c = 'T' || c = 't' || c = ' ' then (time? cs).bind zone? else none
  | [] => none

/-- What is left behind a date, a time or both. -/
def moment? (cs : List Char) : Option (List Char) :=
  match date? cs with
  | some rest => some ((timeAfterDate? rest).getD rest)
  | none => time? cs

end ApexLayout.Toml
