import ApexLayout.Proofs.Text.Offset
import Mathlib.Order.Interval.Set.Monotone
import Mathlib.Data.Nat.SuccPred
import ApexLayout.Format
import ApexLayout.Proofs.Outcome

/-!
Code units and bytes. Counting on from the last mark gives the bytes of the characters passed, wherever a character
starts (`countOn_marks`). Every unit further is at least one byte further, also in the middle of a surrogate pair
(`toByte_converts`).
Offsets in a source of ASCII characters need no conversion and are left as they are. Conversion would cut what lies
beyond the end of the source, so the two ways agree on a tree if and only if no reported offset lies there
(`toDoc_unconverted`).
-/
namespace ApexLayout

namespace Text

def unitLength : List Char → Nat
  | [] => 0
  | c :: cs => units c + unitLength cs

@[simp] theorem unitLength_append (cs ds : List Char) : unitLength (cs ++ ds) = unitLength cs + unitLength ds := by
  induction cs with
  | nil => simp [unitLength]
  | cons c cs ih => simp [unitLength, ih, Nat.add_assoc]

theorem units_pos (c : Char) : 0 < units c := by
  unfold units
  split <;> decide

theorem units_of_ascii {c : Char} (ascii : c.toNat < 128) : units c = 1 := if_pos (by omega)

theorem utf8Size_of_ascii {c : Char} (ascii : c.toNat < 128) : c.utf8Size = 1 := by
  have small : c.val ≤ 0x7F := UInt32.le_iff_toNat_le.mpr (Nat.le_of_lt_succ ascii)
  simp [Char.utf8Size, small]

theorem units_le_utf8Size (c : Char) : units c ≤ c.utf8Size := by
  by_cases single : c.toNat < 0x10000
  · rw [units, if_pos single]
    exact c.utf8Size_pos
  · have large : ∀ n : UInt32, n.toNat < 0x10000 → ¬ c.val ≤ n := by
      intro n small le
      have := UInt32.le_iff_toNat_le.mp le
      have same : c.val.toNat = c.toNat := rfl
      omega
    rw [units, if_neg single]
    simp [Char.utf8Size, large]

/-- Bytes counted on from the last mark at or before an offset, and from `start` if there is none. -/
def countOn (start : Mark) (marks : List Mark) (offset : Nat) : Nat :=
  let mark := ((marks.filter (·.units ≤ offset)).getLast?).getD start
  mark.bytes + (offset - mark.units)

theorem toByte_ofText (source : String) (offset : Nat) :
    (UnitMap.ofText source).toByte offset =
      min (countOn ⟨0, 0⟩ (marks ⟨0, 0⟩ source.toList) offset) source.utf8ByteSize := by
  simp only [UnitMap.toByte, UnitMap.ofText, countOn]
  cases ((marks ⟨0, 0⟩ source.toList).filter (·.units ≤ offset)).getLast? with
  | none => simp
  | some mark => rfl

variable {start next : Mark} {marks : List Mark} {offset : Nat}

theorem countOn_of_all_ahead (ahead : ∀ mark ∈ marks, offset < mark.units) :
    countOn start marks offset = start.bytes + (offset - start.units) := by
  have none_left : marks.filter (·.units ≤ offset) = [] := by
    rw [List.filter_eq_nil_iff]
    intro mark member
    simpa using ahead mark member
  rw [countOn, none_left]
  rfl

theorem countOn_cons (passed : next.units ≤ offset) : countOn start (next :: marks) offset = countOn next marks offset := by
  rw [countOn, countOn, List.filter_cons_of_pos (by simpa using passed), List.getLast?_cons]
  rfl

/-- Where both counts run in step, it makes no difference from where they are counted on. -/
theorem countOn_in_step {steps : Nat} (units : next.units = start.units + steps) (bytes : next.bytes = start.bytes + steps)
    (passed : next.units ≤ offset) : countOn start marks offset = countOn next marks offset := by
  rw [countOn, countOn]
  cases (marks.filter (·.units ≤ offset)).getLast? with
  | none =>
    simp only [Option.getD_none]
    omega
  | some mark => rfl

theorem le_units_of_mem_marks {mark : Mark} {cs : List Char} (member : mark ∈ Text.marks start cs) :
    start.units ≤ mark.units := by
  induction cs generalizing start with
  | nil => simp [Text.marks] at member
  | cons c cs ih =>
    rw [Text.marks] at member
    split at member
    · exact Nat.le_trans (Nat.le_add_right _ _) (ih member)
    · rcases List.mem_cons.mp member with rfl | member
      · exact Nat.le_refl _
      · rcases List.mem_cons.mp member with rfl | member
        · exact Nat.le_add_right _ _
        · exact Nat.le_trans (Nat.le_add_right _ _) (ih member)

/-- In the middle of a character, or at its start, the last mark is at its start or earlier. -/
theorem countOn_marks_inside (start : Mark) {rest : List Char} {inner : Nat} (inside : ∀ c ∈ rest.head?, inner < units c) :
    countOn start (Text.marks start rest) (start.units + inner) = start.bytes + inner := by
  cases rest with
  | nil => simp [Text.marks, countOn]
  | cons c rest =>
    have within : inner < units c := inside c rfl
    have ahead : ∀ mark ∈ Text.marks ⟨start.units + units c, start.bytes + c.utf8Size⟩ rest,
        start.units + inner < mark.units := by
      intro mark member
      have := le_units_of_mem_marks member
      simp only at this
      omega
    rw [Text.marks]
    split
    · rw [countOn_of_all_ahead ahead]
      omega
    · rw [countOn_cons (Nat.le_add_right _ _), countOn_of_all_ahead]
      · omega
      · intro mark member
        rcases List.mem_cons.mp member with rfl | member
        · exact Nat.add_lt_add_left within _
        · exact ahead mark member

/-- Counting on gives the bytes of the characters passed, and further bytes only within the next one. -/
theorem countOn_marks (start : Mark) (front : List Char) {rest : List Char} {inner : Nat}
    (inside : ∀ c ∈ rest.head?, inner < units c) :
    countOn start (Text.marks start (front ++ rest)) (start.units + (unitLength front + inner)) =
      start.bytes + (byteLength front + inner) := by
  induction front generalizing start with
  | nil => simpa [unitLength, byteLength] using countOn_marks_inside start inside
  | cons c front ih =>
    have later := ih ⟨start.units + units c, start.bytes + c.utf8Size⟩
    simp only [Nat.add_assoc] at later
    rw [List.cons_append, Text.marks, unitLength, byteLength]
    simp only [Nat.add_assoc]
    split
    · next ascii =>
      refine Eq.trans (countOn_in_step rfl ?_ ?_) later
      · simp only [units_of_ascii ascii, utf8Size_of_ascii ascii]
      · simp only
        omega
    · rw [countOn_cons (Nat.le_add_right _ _), countOn_cons (by simp only; omega)]
      exact later

variable {source : String} {front rest : List Char} {c : Char}

/-- At the start of a character, and at the end of the text, the characters before it are counted. -/
theorem toByte_unitLength (split : source.toList = front ++ rest) :
    (UnitMap.ofText source).toByte (unitLength front) = byteLength front := by
  have start : ∀ c ∈ rest.head?, 0 < units c := fun c _ => units_pos c
  have counted := countOn_marks ⟨0, 0⟩ front start
  simp only [Nat.zero_add, Nat.add_zero] at counted
  rw [toByte_ofText, ← byteLength_toList, split, counted, byteLength_append]
  omega

/-- Within a character, units are counted as bytes. -/
theorem toByte_inside (split : source.toList = front ++ c :: rest) {inner : Nat} (inside : inner < units c) :
    (UnitMap.ofText source).toByte (unitLength front + inner) = byteLength front + inner := by
  have within : ∀ d ∈ (c :: rest).head?, inner < units d := by simpa using inside
  have counted := countOn_marks ⟨0, 0⟩ front within
  simp only [Nat.zero_add] at counted
  have narrow := units_le_utf8Size c
  rw [toByte_ofText, ← byteLength_toList, split, counted, byteLength_append, byteLength]
  omega

/-- Every offset before the end lies at a character or within one. -/
theorem exists_inside {cs : List Char} {offset : Nat} (before : offset < unitLength cs) :
    ∃ front c rest inner, cs = front ++ c :: rest ∧ inner < units c ∧ offset = unitLength front + inner := by
  induction cs generalizing offset with
  | nil => simp [unitLength] at before
  | cons c cs ih =>
    rw [unitLength] at before
    by_cases here : offset < units c
    · exact ⟨[], c, cs, offset, rfl, here, by simp [unitLength]⟩
    · have later : offset - units c < unitLength cs := by omega
      obtain ⟨front, d, rest, inner, rfl, inside, same⟩ := ih later
      refine ⟨c :: front, d, rest, inner, rfl, inside, ?_⟩
      rw [unitLength]
      omega

theorem toByte_lt_succ {offset : Nat} (before : offset < unitLength source.toList) :
    (UnitMap.ofText source).toByte offset < (UnitMap.ofText source).toByte (offset + 1) := by
  obtain ⟨front, c, rest, inner, split, inside, rfl⟩ := exists_inside before
  rw [toByte_inside split inside]
  by_cases further : inner + 1 < units c
  · rw [Nat.add_assoc, toByte_inside split further]
    omega
  · -- The next unit is that of the character behind this one, which has at least as many bytes as units.
    have behind : source.toList = (front ++ [c]) ++ rest := by simp [split]
    have converted := toByte_unitLength behind
    simp only [unitLength_append, byteLength_append, unitLength, byteLength, Nat.add_zero] at converted
    have narrow := units_le_utf8Size c
    have same : unitLength front + inner + 1 = unitLength front + units c := by omega
    rw [same, converted]
    omega

/-- The number of units of a start of the text is converted to the number of its bytes. Up to the end of
    the text every further unit is further on in bytes, and nothing lies beyond the end. -/
theorem toByte_converts (source : String) :
    (∀ front rest : String, source = front ++ rest →
      (UnitMap.ofText source).toByte (unitLength front.toList) = front.utf8ByteSize) ∧
    StrictMonoOn (UnitMap.ofText source).toByte (Set.Iic (unitLength source.toList)) ∧
    ∀ offset, (UnitMap.ofText source).toByte offset ≤ source.utf8ByteSize := by
  refine ⟨?_, ?_, ?_⟩
  · intro front rest split
    rw [← byteLength_toList]
    have characters : source.toList = front.toList ++ rest.toList := by rw [split, String.toList_append]
    exact toByte_unitLength characters
  · exact strictMonoOn_Iic_of_lt_succ fun offset before => toByte_lt_succ before
  · intro offset
    exact Nat.min_le_right _ _

/-- A character of two units behind one of one unit. -/
theorem toByte_converts_adjacent :
    let map := UnitMap.ofText "aé😀b"
    "aé😀b" = "aé😀" ++ "b" ∧ map.toByte 4 = 7 ∧ map.toByte 2 < map.toByte 3 ∧ map.toByte 3 < map.toByte 4 := by
  obtain ⟨converts, increases, -⟩ := toByte_converts "aé😀b"
  have split : "aé😀b" = "aé😀" ++ "b" := by decide
  have size : unitLength "aé😀b".toList = 5 := by decide
  rw [size] at increases
  refine ⟨split, converts "aé😀" "b" split, ?_, ?_⟩
  · exact increases (by simp) (by simp) (by decide)
  · exact increases (by simp) (by simp) (by decide)

end Text

/-! ### Sources of ASCII characters -/

namespace Text

def IsAscii (source : String) : Prop := ∀ c ∈ source.toList, c.toNat < 128

theorem marks_eq_nil_iff (start : Mark) (cs : List Char) : marks start cs = [] ↔ ∀ c ∈ cs, c.toNat < 128 := by
  induction cs generalizing start with
  | nil => simp [marks]
  | cons c cs ih =>
    rw [marks]
    by_cases ascii : c.toNat < 128
    · rw [if_pos ascii, ih]
      simp [ascii]
    · rw [if_neg ascii]
      simp [ascii]

namespace UnitMap

theorem isIdentity_iff (source : String) : (ofText source).isIdentity ↔ IsAscii source := by
  rw [isIdentity, List.isEmpty_iff]
  exact marks_eq_nil_iff ⟨0, 0⟩ source.toList

theorem toByte_of_isAscii {source : String} (ascii : IsAscii source) (offset : Nat) :
    (ofText source).toByte offset = min offset source.utf8ByteSize := by
  have none_marked : (ofText source).marks = [] := List.isEmpty_iff.mp ((isIdentity_iff source).mpr ascii)
  simp only [toByte, none_marked]
  rfl

end UnitMap
end Text

namespace Tree

/-- Every reported offset lies in a text of so many bytes, or at its end. -/
def Reports (t : Tree) (size : Nat) : Prop :=
  ∀ node ∈ t.nodes, ∀ span, node.location = some span → span.start ≤ size ∧ span.stop ≤ size

theorem mapOffsets_eq_self_iff (t : Tree) (f : Nat → Nat) :
    t.mapOffsets f = t ↔
      ∀ node ∈ t.nodes, ∀ span, node.location = some span → f span.start = span.start ∧ f span.stop = span.stop := by
  obtain ⟨nodes⟩ := t
  have each (node : Node) : { node with location := node.location.map fun span => ⟨f span.start, f span.stop⟩ } = node ↔
      ∀ span, node.location = some span → f span.start = span.start ∧ f span.stop = span.stop := by
    obtain ⟨nodeClass, fields, location, origin⟩ := node
    cases location with
    | none => simp
    | some span =>
      obtain ⟨start, stop⟩ := span
      simp
  simp only [mapOffsets, Tree.mk.injEq]
  constructor
  · intro same node member
    obtain ⟨i, inside, rfl⟩ := Array.mem_iff_getElem.mp member
    rw [← each]
    have there : (nodes.map fun node =>
        { node with location := node.location.map fun span => ⟨f span.start, f span.stop⟩ })[i]? = nodes[i]? := by rw [same]
    simpa [inside] using there
  · intro same
    apply Array.ext_getElem?
    intro i
    by_cases inside : i < nodes.size
    · have here := (each nodes[i]).mpr (same _ (Array.getElem_mem inside))
      simp [inside, here]
    · simp [inside]

/-- In a source of ASCII characters, offsets are left as conversion gives them if and only if none lies
    beyond the end. -/
theorem mapOffsets_toByte_eq_self_iff {source : String} (ascii : Text.IsAscii source) (t : Tree) :
    t.mapOffsets (Text.UnitMap.ofText source).toByte = t ↔ t.Reports source.utf8ByteSize := by
  have kept (offset : Nat) : (Text.UnitMap.ofText source).toByte offset = offset ↔ offset ≤ source.utf8ByteSize := by
    rw [Text.UnitMap.toByte_of_isAscii ascii]
    omega
  rw [mapOffsets_eq_self_iff]
  simp only [kept, Reports]

theorem inBytes_of_isAscii {source : String} (ascii : Text.IsAscii source) (t : Tree) : t.inBytes source = t := by
  rw [inBytes, if_pos ((Text.UnitMap.isIdentity_iff source).mpr ascii)]

end Tree

/-- The document of a source, by the serializer's text for it, with the reported offsets converted in a
    given way. -/
def toDocThrough (convert : Tree → Tree) (text source : String) (settings : FormatSettings) : Outcome Draft := do
  let tree ← Tree.ofText text
  let output ← tree.parserOutput
  let tree := convert tree
  let comments := output.comments.filterMap fun id => (tree.node id).location
  let extents ← Extents.ofTree tree source comments
  let occurrences := Occurrences.ofTree tree extents (Text.Lines.ofText source)
  let shelf ← Site.bind ⟨tree, extents, source⟩ output.comments
  Manuscript.doc
    { tree, extents, occurrences, shelf := shelf.deferBlanks tree occurrences, source, settings, unit := output.unit }

theorem toDoc_eq_toDocThrough (text source : String) (settings : FormatSettings) :
    toDoc text source settings = toDocThrough (·.inBytes source) text source settings := by
  simp only [toDoc, toDocThrough, Manuscript.ofTree, bind_assoc, pure_bind]

/-- The document depends on the way of conversion only by what it makes of the tree. -/
theorem toDocThrough_congr {convert other : Tree → Tree} {text : String}
    (same : ∀ t, Tree.ofText text = .ok t → convert t = other t) (source : String) (settings : FormatSettings) :
    toDocThrough convert text source settings = toDocThrough other text source settings := by
  cases read : Tree.ofText text with
  | error e => simp only [toDocThrough, read, bind, Except.bind]
  | ok t => simp only [toDocThrough, read, bind, Except.bind, same t read]

/-- A source of ASCII characters is laid out without any conversion of offsets. Conversion would cut
    offsets beyond the end of the source, and change nothing else. So both ways give the same spans if and
    only if no reported offset lies beyond the end, and then they give the same document. -/
theorem toDoc_unconverted {source : String} (ascii : Text.IsAscii source) :
    (∀ offset, (Text.UnitMap.ofText source).toByte offset = min offset source.utf8ByteSize) ∧
    (∀ t : Tree, t.inBytes source = t) ∧
    (∀ t : Tree, t.inBytes source = t.mapOffsets (Text.UnitMap.ofText source).toByte ↔
      t.Reports source.utf8ByteSize) ∧
    ∀ text settings, (∀ t, Tree.ofText text = .ok t → t.Reports source.utf8ByteSize) →
      toDoc text source settings =
        toDocThrough (·.mapOffsets (Text.UnitMap.ofText source).toByte) text source settings := by
  refine ⟨Text.UnitMap.toByte_of_isAscii ascii, Tree.inBytes_of_isAscii ascii, ?_, ?_⟩
  · intro t
    rw [Tree.inBytes_of_isAscii ascii, eq_comm]
    exact Tree.mapOffsets_toByte_eq_self_iff ascii t
  · intro text settings reports
    rw [toDoc_eq_toDocThrough]
    apply toDocThrough_congr
    intro t read
    rw [Tree.inBytes_of_isAscii ascii]
    exact ((Tree.mapOffsets_toByte_eq_self_iff ascii t).mpr (reports t read)).symm

/-- An offset right behind the end of the source is kept without conversion, and would be cut by it. -/
theorem toDoc_unconverted_beyond :
    Text.IsAscii "class A {}" ∧
    (⟨#[{ location := some ⟨0, 10⟩ }]⟩ : Tree).inBytes "class A {}" =
      (⟨#[{ location := some ⟨0, 10⟩ }]⟩ : Tree).mapOffsets (Text.UnitMap.ofText "class A {}").toByte ∧
    (⟨#[{ location := some ⟨0, 11⟩ }]⟩ : Tree).inBytes "class A {}" ≠
      (⟨#[{ location := some ⟨0, 11⟩ }]⟩ : Tree).mapOffsets (Text.UnitMap.ofText "class A {}").toByte := by
  have ascii : Text.IsAscii "class A {}" := by simp [Text.IsAscii]
  have size : "class A {}".utf8ByteSize = 10 := by rfl
  obtain ⟨-, -, agree, -⟩ := toDoc_unconverted ascii
  refine ⟨ascii, (agree _).mpr ?_, fun same => ?_⟩
  · simp [Tree.Reports, size]
  · have reports := (agree _).mp same
    simp [Tree.Reports, size] at reports

end ApexLayout
