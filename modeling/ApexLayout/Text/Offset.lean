import ApexLayout.Text.Blank

/-!
Byte offsets into a text. Offsets count the bytes of the UTF-8 form. `splitAt?` opens a text at an
offset into the characters behind it, nearest first, and the characters ahead of it; an offset that
lies inside a character or beyond the end opens nothing. A reported span may be inverted or lie outside
the text, so nothing is assumed of its two ends.
Lines are numbered from one and end at line feeds.
-/
namespace ApexLayout

/-- The offsets from `start` up to and without `stop`. -/
structure Span where
  start : Nat
  stop : Nat
  deriving Repr, DecidableEq

namespace Span

def cover (a b : Span) : Span := ⟨min a.start b.start, max a.stop b.stop⟩

def contains (a b : Span) : Bool := a.start ≤ b.start && b.stop ≤ a.stop

/-- The number of offsets, none if the span is inverted. -/
def length (a : Span) : Nat := a.stop - a.start

def isEmpty (a : Span) : Bool := a.stop ≤ a.start

def holds (a : Span) (offset : Nat) : Bool := a.start ≤ offset && offset < a.stop

/-- The least span over those that are there. -/
def cover? : Option Span → Option Span → Option Span
  | none, b => b
  | a, none => a
  | some a, some b => some (a.cover b)

end Span

namespace Text

/-- The bytes of the UTF-8 form. -/
def bytes (s : String) : List UInt8 := s.toList.flatMap String.utf8EncodeChar

def byteLength : List Char → Nat
  | [] => 0
  | c :: cs => c.utf8Size + byteLength cs

/-- The characters `behind` an offset, nearest first, and those ahead of it. -/
structure Opening where
  behind : List Char
  ahead : List Char
  deriving Repr, DecidableEq

/-- Moves `n` bytes further into the characters ahead; the steps must end between two characters. -/
def Opening.advance? (behind : List Char) : List Char → Nat → Option Opening
  | ahead, 0 => some ⟨behind, ahead⟩
  | [], _ + 1 => none
  | c :: cs, n + 1 => if c.utf8Size ≤ n + 1 then advance? (c :: behind) cs (n + 1 - c.utf8Size) else none

def splitAt? (s : String) (offset : Nat) : Option Opening := Opening.advance? [] s.toList offset

def slice? (s : String) (start stop : Nat) : Option String :=
  if start ≤ stop then
    match splitAt? s start with
    | none => none
    | some opening =>
      (Opening.advance? [] opening.ahead (stop - start)).map fun o => String.ofList o.behind.reverse
  else none

def withOffsets (start : Nat) : List Char → List (Nat × Char)
  | [] => []
  | c :: cs => (start, c) :: withOffsets (start + c.utf8Size) cs

/-- The byte offsets at which the character occurs, in ascending order. -/
def offsetsOf (c : Char) (s : String) : List Nat :=
  ((withOffsets 0 s.toList).filter (fun p => p.2 == c)).map (·.1)

/-! ### Code units

The serializer counts the 16-bit code units of the UTF-16 form of a text, while the text itself is
addressed by the bytes of its UTF-8 form. The two counts run in step over ASCII, so it is enough to
know where they stand before and after every other character. -/

def units (c : Char) : Nat := if c.toNat < 0x10000 then 1 else 2

/-- A place where both counts are known. -/
structure Mark where
  units : Nat
  bytes : Nat
  deriving Repr, DecidableEq

/-- The marks before and after every character outside ASCII. -/
def marks (at_ : Mark) : List Char → List Mark
  | [] => []
  | c :: cs =>
    let next : Mark := ⟨at_.units + units c, at_.bytes + c.utf8Size⟩
    if c.toNat < 128 then marks next cs else at_ :: next :: marks next cs

/-- The passage from code units to bytes for one text. -/
structure UnitMap where
  marks : List Mark
  byteLength : Nat
  deriving Repr, DecidableEq

namespace UnitMap

def ofText (s : String) : UnitMap := ⟨Text.marks ⟨0, 0⟩ s.toList, s.utf8ByteSize⟩

/-- The text is ASCII, so both counts are the same. -/
def isIdentity (m : UnitMap) : Bool := m.marks.isEmpty

/-- The byte offset for an offset in code units: counted on from the last mark before it, and never
    beyond the end. -/
def toByte (m : UnitMap) (offset : Nat) : Nat :=
  let byte :=
    match (m.marks.filter (·.units ≤ offset)).getLast? with
    | none => offset
    | some mark => mark.bytes + (offset - mark.units)
  min byte m.byteLength

end UnitMap

/-! ### Lines -/

/-- Where the lines of a text start, and which of them are blank. -/
structure Lines where
  /-- The offset of the start of each line, ascending. -/
  starts : List Nat
  /-- Whether each line is blank, in order. -/
  blanks : List Bool
  deriving Repr, DecidableEq

namespace Lines

def ofText (s : String) : Lines where
  starts := 0 :: (offsetsOf '\n' s).map (· + 1)
  blanks := (lines s).map allBlank

def count (l : Lines) : Nat := l.starts.length

/-- The lines that start at the offset or before it are the first ones. -/
def lineOf (l : Lines) (offset : Nat) : Nat := l.starts.findIdx (offset < ·)

def columnOf (l : Lines) (offset : Nat) : Nat := offset - (l.starts[l.lineOf offset - 1]?).getD 0

def startLine (l : Lines) (span : Span) : Nat := l.lineOf span.start

/-- The line that holds the last character of the span. -/
def endLine (l : Lines) (span : Span) : Nat := l.lineOf (max (span.stop - 1) span.start)

def isBlank (l : Lines) (line : Nat) : Bool :=
  match line with
  | 0 => false
  | n + 1 => (l.blanks[n]?).getD false

end Lines
end Text
end ApexLayout
