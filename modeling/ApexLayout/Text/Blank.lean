/-!
Blank characters: the Unicode property White_Space, and the texts left after trimming it. Blank
lines, comment texts and source files are all trimmed by this one property; spaces and tabs alone
are the narrower `isGap`.
-/
namespace ApexLayout.Text

/-- The property White_Space. -/
def isBlank (c : Char) : Bool :=
  let n := c.toNat
  (9 ≤ n && n ≤ 13) || n == 0x20 || n == 0x85 || n == 0xA0 || n == 0x1680 ||
    (0x2000 ≤ n && n ≤ 0x200A) || n == 0x2028 || n == 0x2029 || n == 0x202F || n == 0x205F || n == 0x3000

def isGap (c : Char) : Bool := c == ' ' || c == '\t'

def dropWhileEnd (p : Char → Bool) (cs : List Char) : List Char := (cs.reverse.dropWhile p).reverse

def trimStart (s : String) : String := String.ofList (s.toList.dropWhile isBlank)

def trimEnd (s : String) : String := String.ofList (dropWhileEnd isBlank s.toList)

def trim (s : String) : String := String.ofList (dropWhileEnd isBlank (s.toList.dropWhile isBlank))

def allBlank (s : String) : Bool := s.toList.all isBlank

/-- The pieces between the characters equal to `sep`: one more than there are such characters. -/
def pieces (sep : Char) : List Char → List (List Char)
  | [] => [[]]
  | c :: cs =>
    if c = sep then [] :: pieces sep cs
    else
      match pieces sep cs with
      | [] => [[c]]
      | piece :: rest => (c :: piece) :: rest

def lines (s : String) : List String := (pieces '\n' s.toList).map String.ofList

def dropPrefix? (start s : String) : Option String :=
  if start.toList.isPrefixOf s.toList then some (String.ofList (s.toList.drop start.length)) else none

/-- The text ends with `final`, and this is what stands before it. -/
def dropSuffix? (final s : String) : Option String :=
  if final.toList.isSuffixOf s.toList then some (String.ofList (s.toList.take (s.length - final.length))) else none

end ApexLayout.Text
