import ApexLayout.Text.Offset

/-!
Line ends around a byte offset: whether a line starts or ends there with only spaces and tabs in
between, whether the line before is empty, and how many line feeds separate a comment from what
stands before it.
-/
namespace ApexLayout.Text

def isLineEnd (c : Char) : Bool := c == '\n' || c == '\r' || c == '\u2028' || c == '\u2029'

/-- The directions of a scan. -/
inductive Way where
  | ahead
  | back
  deriving Repr, DecidableEq

/-! A scan moves a cursor over byte offsets, down to the one before the start and up to the end. -/

def charAt? (s : String) (cursor : Int) : Option Char :=
  if cursor < 0 then none else (splitAt? s cursor.toNat).bind (·.ahead.head?)

def charBefore? (s : String) (cursor : Int) : Option Char :=
  if cursor ≤ 0 then none else (splitAt? s cursor.toNat).bind (·.behind.head?)

/-- Moves by the character on the way, or by one where there is none. -/
def step (s : String) (way : Way) (cursor : Int) : Int :=
  match way with
  | .ahead => cursor + ((charAt? s cursor).map Char.utf8Size).getD 1
  | .back => cursor - ((charBefore? s cursor).map Char.utf8Size).getD 1

def bytesLeft (s : String) (way : Way) (cursor : Int) : Nat :=
  match way with
  | .ahead => (s.utf8ByteSize - cursor).toNat
  | .back => (cursor + 1).toNat

theorem width_pos (c? : Option Char) : 0 < (c?.map Char.utf8Size).getD 1 := by
  cases c? with
  | none => decide
  | some c => exact c.utf8Size_pos

theorem bytesLeft_step {s : String} (way : Way) {cursor : Int} (inside : 0 ≤ cursor ∧ cursor < s.utf8ByteSize) :
    bytesLeft s way (step s way cursor) < bytesLeft s way cursor := by
  cases way with
  | ahead =>
    have := width_pos (charAt? s cursor)
    simp only [bytesLeft, step]
    omega
  | back =>
    have := width_pos (charBefore? s cursor)
    simp only [bytesLeft, step]
    omega

/-- Passes characters of a kind. A cursor that comes to lie inside a character, or further out, is lost. -/
def skip (s : String) (way : Way) (passes : Char → Bool) (cursor : Int) : Option Int :=
  if 0 ≤ cursor ∧ cursor < s.utf8ByteSize then
    match charAt? s cursor with
    | none => none
    | some c => if passes c then skip s way passes (step s way cursor) else some cursor
  else if cursor = -1 ∨ cursor = s.utf8ByteSize then some cursor else none
termination_by bytesLeft s way cursor
decreasing_by exact bytesLeft_step way ‹_›

/-- Passes one line end. A carriage return with its line feed is passed by two bytes. -/
def skipLineEnd (s : String) (way : Way) (cursor : Int) : Int :=
  match charAt? s cursor, way with
  | none, _ => cursor
  | some c, .ahead =>
    if c = '\r' ∧ charAt? s (cursor + 1) = some '\n' then cursor + 2
    else if isLineEnd c then cursor + c.utf8Size else cursor
  | some c, .back =>
    if c = '\n' ∧ charBefore? s cursor = some '\r' then cursor - 2
    else if isLineEnd c then step s .back cursor else cursor

/-- Nothing but spaces and tabs stands between the cursor and a line end. -/
def meetsLineEnd (s : String) (way : Way) (cursor : Option Int) : Bool :=
  let reached := cursor.bind (skip s way isGap)
  reached != reached.map (skipLineEnd s way)

def endsLine (s : String) (offset : Nat) : Bool := meetsLineEnd s .ahead (some offset)

def startsLine (s : String) (offset : Nat) : Bool := meetsLineEnd s .back (some (step s .back offset))

def followsEmptyLine (s : String) (offset : Nat) : Bool :=
  meetsLineEnd s .back ((skip s .back isGap (step s .back offset)).map (skipLineEnd s .back))

def precedesEmptyLine (s : String) (offset : Nat) : Bool :=
  match (skip s .ahead isGap offset).map (skipLineEnd s .ahead) with
  | some cursor => 0 ≤ cursor && endsLine s cursor.toNat
  | none => false

def hasLineFeedBetween (s : String) (start stop : Nat) : Bool :=
  (offsetsOf '\n' s).any fun i => start ≤ i && i < stop

/-- The text between two offsets is free of anything but blanks, and has no line feed. Offsets that
    do not enclose a text enclose nothing. -/
def isBlankBetween (s : String) (start stop : Nat) : Bool :=
  ((slice? s start stop).getD "").toList.all fun c => c != '\n' && isBlank c

/-- The line feeds in the run of blanks that ends right before the offset. There is no answer if the
    byte before the offset starts no character; the run counts as empty if the character before it
    is longer than one byte. -/
def lineFeedsBefore? (s : String) (offset : Nat) : Option Nat :=
  match offset with
  | 0 => some 0
  | before + 1 =>
    match splitAt? s before with
    | none => none
    | some ⟨_, []⟩ => some 0
    | some ⟨earlier, c :: _⟩ =>
      let run := (c :: earlier).takeWhile isBlank
      let stop := (c :: earlier).dropWhile isBlank
      if c.utf8Size = 1 && (stop.head?.map Char.utf8Size).getD 1 = 1 then some (run.count '\n') else some 0

end ApexLayout.Text
