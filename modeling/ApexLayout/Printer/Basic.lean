import ApexLayout.Comment.Binding
import ApexLayout.Settings.Basic

/-!
Printing nodes to documents: where the printer is, and how it moves. The path from the document down
to the node being printed decides how the node is laid out, so it holds every node on the way, those
without class that wrap optional values included. No node is twice on the path.
-/
namespace ApexLayout

structure Manuscript where
  tree : Tree
  extents : Extents := ⟨#[]⟩
  occurrences : Occurrences := {}
  shelf : Shelf := {}
  source : String := ""
  settings : FormatSettings := {}
  /-- The unit to be printed. -/
  unit : NodeId := 0

/-- A node on the path, with the edge by which it was reached. -/
structure Frame where
  id : NodeId
  edge : Option Edge
  deriving Repr, DecidableEq

/-- The nodes from the one being printed up to the outermost one. -/
abbrev Path := List Frame

structure Printer where
  manuscript : Manuscript
  path : Path
  /-- Prints a node that is reached by an edge from the end of a path. -/
  printAt : Path → NodeId → Option Edge → Outcome Draft

namespace Manuscript

def slice (m : Manuscript) (id : NodeId) (span : Option Span) : Outcome String :=
  match span with
  | none => .error (.location (m.tree.className id) "node has no location")
  | some span =>
    match Text.slice? m.source span.start span.stop with
    | some text => .ok text
    | none =>
      .error (.location (m.tree.className id)
        ("span " ++ toString span.start ++ ".." ++ toString span.stop ++ " is outside the source"))

def sourceOf (m : Manuscript) (id : NodeId) : Outcome String := m.slice id (m.extents.get? id)

def reportedSourceOf (m : Manuscript) (id : NodeId) : Outcome String := m.slice id (m.tree.node id).location

/-! ### Comments -/

/-- The comments printed behind a node: the trailing ones, and those inside it that it has no body for. -/
def trailingComments (m : Manuscript) (id : NodeId) : List BoundComment :=
  (m.shelf.of id).filter fun c =>
    match c.anchor with
    | .trailing => true
    | .dangling => !m.tree.isAmong id bodyKinds
    | .leading => false

def hasLeadingComment (m : Manuscript) (id : NodeId) : Bool := !(m.shelf.leading id).isEmpty

def hasOwnLineLeadingComment (m : Manuscript) (id : NodeId) : Bool :=
  (m.shelf.leading id).any (·.placement == .ownLine)

def hasTrailingComment (m : Manuscript) (id : NodeId) : Bool := !(m.trailingComments id).isEmpty

def hasEndOfLineTrailingComment (m : Manuscript) (id : NodeId) : Bool :=
  (m.trailingComments id).any (·.placement == .endOfLine)

def hasOwnLineComment (m : Manuscript) (id : NodeId) : Bool := (m.shelf.of id).any (·.placement == .ownLine)

def danglingDocs (m : Manuscript) (id : NodeId) : List Draft :=
  Comment.danglingDocs m.source ((m.shelf.dangling id).map (·.toComment))

end Manuscript

namespace Printer

def tree (p : Printer) : Tree := p.manuscript.tree

/-! ### The path -/

def current (p : Printer) : NodeId := (p.path.head?.map Frame.id).getD p.tree.root

def parent? (p : Printer) : Option NodeId := (p.path[1]?).map Frame.id

/-- The field by which the node that many levels up was reached; elements of arrays have none. -/
def nameAt (p : Printer) (level : Nat) : String :=
  match (p.path[level]?).bind Frame.edge with
  | some edge => if edge.index.isNone then p.tree.fieldName edge else ""
  | none => ""

def flags (p : Printer) : Flags :=
  match p.path.head?.bind Frame.edge with
  | some edge => p.manuscript.occurrences.get edge
  | none => {}

/-- The failure at a node that is on the path already. -/
def cycle (tree : Tree) (id : NodeId) : FormatError := .malformed ("reference cycle through " ++ tree.className id)

/-- The path with further nodes at its end, none of which may be on it. -/
def extend (tree : Tree) (path : Path) : List Frame → Outcome Path
  | [] => .ok path
  | frame :: frames =>
    if path.any (·.id == frame.id) then .error (cycle tree frame.id) else extend tree (frame :: path) frames

/-- The printer, at the node around the one being printed. -/
def outward (p : Printer) : Printer := { p with path := p.path.tail }

/-! ### Moving to fields -/

/-- Where a sequence of field names leads: the nodes on the way, and the owner and place of the last
    field with its value. -/
structure Destination where
  frames : List Frame
  owner : NodeId
  slot : UInt16
  value : Value

def follow? (tree : Tree) (owner : NodeId) (frames : List Frame) : List String → Option Destination
  | [] => none
  | name :: names => do
    let slot ← (tree.node owner).slot? name
    let (_, value) ← (tree.node owner).fields[slot]?
    match names with
    | [] => some { frames, owner, slot := slot.toUInt16, value }
    | names =>
      let child ← value.node?
      follow? tree child (frames ++ [⟨child, some ⟨owner, slot.toUInt16, none⟩⟩]) names

def destination? (p : Printer) (names : List String) : Option Destination := follow? p.tree p.current [] names

/-- Backslash, quote and the controls with a short name are escaped in a string literal. -/
def escapeLiteral (c : Char) : List Char :=
  match c with
  | '\\' => ['\\', '\\']
  | '\x08' => ['\\', 'b']
  | '\t' => ['\\', 't']
  | '\n' => ['\\', 'n']
  | '\x0c' => ['\\', 'f']
  | '\r' => ['\\', 'r']
  | '\'' => ['\\', '\'']
  | c => [c]

def escapeString (s : String) : String := String.ofList (s.toList.flatMap escapeLiteral)

def scalar : Value → Draft
  | .string value => .text (escapeString value)
  | .number value => .text value.text
  | .bool true => "true"
  | .bool false => "false"
  | _ => Doc.empty

def printValue (p : Printer) (path : Path) (edge : Edge) : Value → Outcome Draft
  | .node id => p.printAt path id (some edge)
  | value => .ok (scalar value)

/-- Prints what the field names lead to; nothing if they lead nowhere. -/
def print (p : Printer) (names : List String) : Outcome Draft :=
  match p.destination? names with
  | none => .ok Doc.empty
  | some d => do
    let path ← extend p.tree p.path d.frames
    p.printValue path ⟨d.owner, d.slot, none⟩ d.value

def printItems (p : Printer) (path : Path) (owner : NodeId) (slot : UInt16) (index : Nat) :
    List Value → Outcome (List Draft)
  | [] => .ok []
  | item :: items => do
    let doc ← p.printValue path ⟨owner, slot, some index⟩ item
    let docs ← p.printItems path owner slot (index + 1) items
    return doc :: docs

def printEach (p : Printer) (names : List String) : Outcome (List Draft) :=
  match p.destination? names with
  | some { frames, owner, slot, value := .array items } => do
    let path ← extend p.tree p.path frames
    p.printItems path owner slot 0 items
  | _ => .ok []

def withNode (p : Printer) (names : List String) (f : Printer → Outcome α) : Outcome (Option α) :=
  match p.destination? names with
  | some { frames, owner, slot, value := .node id } => do
    let path ← extend p.tree p.path (frames ++ [⟨id, some ⟨owner, slot, none⟩⟩])
    some <$> f { p with path }
  | _ => .ok none

def withItems (p : Printer) (path : Path) (f : Printer → Outcome α) (owner : NodeId) (slot : UInt16) (index : Nat) :
    List Value → Outcome (List α)
  | [] => .ok []
  | .node id :: items => do
    let inner ← extend p.tree path [⟨id, some ⟨owner, slot, some index⟩⟩]
    let a ← f { p with path := inner }
    let rest ← p.withItems path f owner slot (index + 1) items
    return a :: rest
  | _ :: items => p.withItems path f owner slot (index + 1) items

def withNodes (p : Printer) (names : List String) (f : Printer → Outcome α) : Outcome (List α) :=
  match p.destination? names with
  | some { frames, owner, slot, value := .array items } => do
    let path ← extend p.tree p.path frames
    p.withItems path f owner slot 0 items
  | _ => .ok []

/-! ### Comments at the node being printed -/

/-- The comments before and behind the node being printed, if it has any here: only the occurrence that
    defines a node has its comments. Annotations print those behind them themselves. -/
def commentDocs? (p : Printer) (id : NodeId) : Option (List Draft × List Draft) :=
  match p.path with
  | [] => none
  | frame :: _ =>
    if p.tree.origin id == frame.edge && p.manuscript.shelf.hasAny id then
      let source := p.manuscript.source
      let leading := (p.manuscript.shelf.leading id).map (·.toComment.leadingDoc source)
      let trailing :=
        if p.tree.isKind id .annotationMark then []
        else Comment.trailingDocs source none ((p.manuscript.trailingComments id).map (·.toComment))
      some (leading, trailing)
    else none

def quoted (doc : Draft) : Draft := .concat ["'", doc, "'"]

def commaLines (docs : List Draft) : Draft := Doc.join Doc.commaLine docs

def bracketed (opening : Draft) (contents : Draft) (closing : Draft) : List Draft :=
  [opening, .softLine, contents, .dedent .softLine, closing]

end Printer
end ApexLayout
