import ApexLayout.Tree.Basic
import ApexLayout.Doc.Basic
import ApexLayout.Text.Scan

/-!
Comments: what stands in the source, the nodes around it, and the node it is bound to.
-/
namespace ApexLayout

inductive CommentKind where
  | block
  | inline
  deriving Repr, DecidableEq

/-- Where a comment stands on its line. -/
inductive Placement where
  /-- Alone. -/
  | ownLine
  /-- After code, with nothing behind it. -/
  | endOfLine
  /-- With code on both sides. -/
  | remaining
  deriving Repr, DecidableEq

/-- Where a comment stands at the node it is bound to. -/
inductive Anchor where
  | leading
  | trailing
  /-- Inside the node, beside nothing. -/
  | dangling
  deriving Repr, DecidableEq

/-- The nodes around a comment: the smallest one that holds it, and within that the nearest before and
    after it. -/
structure Neighbours where
  enclosing : Option NodeId := none
  preceding : Option NodeId := none
  following : Option NodeId := none
  deriving Repr, DecidableEq

structure Comment where
  /-- The place among all comments, in the order of the source. -/
  index : Nat := 0
  node : NodeId := 0
  kind : CommentKind
  text : String
  span : Span
  near : Neighbours := {}
  /-- A blank line is owed after the comment. The last comment of a source never has one. -/
  blankAfter : Option Bool := none
  deriving Repr, DecidableEq

namespace Comment

def isBlock (c : Comment) : Bool := c.kind == .block

def content? (c : Comment) : Option String :=
  let text := Text.trim c.text
  match c.kind with
  | .block => (Text.dropPrefix? "/*" text).map fun rest => (Text.dropSuffix? "*/" rest).getD rest
  | .inline => Text.dropPrefix? "//" text

def isIgnore (c : Comment) : Bool := (c.content?.map fun content => Text.trim content == "prettier-ignore").getD false

/-- Every line but the first and the last starts with a star, and there is more than one line. -/
def isDoc (c : Comment) : Bool :=
  match Text.lines c.text with
  | _ :: second :: rest =>
    ((second :: rest).dropLast).all fun line => (Text.trimStart line).toList.head? == some '*'
  | _ => false

end Comment

/-- A comment with the node it is bound to; no node stands for the whole document. -/
structure BoundComment extends Comment where
  placement : Placement
  owner : Option NodeId
  anchor : Anchor
  deriving Repr, DecidableEq

/-- The bound comments of a document, by their nodes, in the order in which they are printed. -/
structure Shelf where
  owned : List (NodeId × List BoundComment) := []
  /-- The comments that belong to no node. -/
  loose : List BoundComment := []
  deriving Repr

namespace Shelf

def of (s : Shelf) (id : NodeId) : List BoundComment := (s.owned.lookup id).getD []

def leading (s : Shelf) (id : NodeId) : List BoundComment := (s.of id).filter (·.anchor == .leading)

def trailing (s : Shelf) (id : NodeId) : List BoundComment := (s.of id).filter (·.anchor == .trailing)

def dangling (s : Shelf) (id : NodeId) : List BoundComment := (s.of id).filter (·.anchor == .dangling)

def hasAny (s : Shelf) (id : NodeId) : Bool := !(s.of id).isEmpty

def isIgnored (s : Shelf) (id : NodeId) : Bool := (s.leading id).any (·.toComment.isIgnore)

def modifyIn (id : NodeId) (f : List BoundComment → List BoundComment) :
    List (NodeId × List BoundComment) → List (NodeId × List BoundComment)
  | [] => [(id, f [])]
  | (key, list) :: rest => if key = id then (key, f list) :: rest else (key, list) :: modifyIn id f rest

def modify (s : Shelf) (id : NodeId) (f : List BoundComment → List BoundComment) : Shelf :=
  { s with owned := modifyIn id f s.owned }

def add (s : Shelf) (c : BoundComment) : Shelf :=
  match c.owner with
  | some id => s.modify id (· ++ [c])
  | none => { s with loose := s.loose ++ [c] }

def sort (s : Shelf) (id : NodeId) : Shelf :=
  s.modify id fun list => list.mergeSort fun a b => a.span.start ≤ b.span.start

def all (s : Shelf) : List BoundComment :=
  ((s.owned.map (·.2)).flatten ++ s.loose).mergeSort fun a b => a.index ≤ b.index

def owners (s : Shelf) : List NodeId :=
  ((s.owned.filter (!·.2.isEmpty)).map (·.1)).mergeSort (· ≤ ·)

end Shelf

/-! ### Documents of comments -/

/-- A document in which the texts of comments are noted. -/
abbrev Draft := Doc Comment

/-- The lines of a documentation comment, with one space before every line but the first. -/
def docLines : List String → List String
  | [] => []
  | first :: rest => Text.trim first :: go rest
where
  go : List String → List String
    | [] => []
    | [last] => [" " ++ Text.trimStart last]
    | line :: rest => (" " ++ Text.trim line) :: go rest

namespace Comment

/-- The text of a comment. Documentation comments are indented anew; a blank line that is owed follows. -/
def doc (c : Comment) : Draft :=
  let printed : Draft :=
    if c.isDoc then Doc.join Doc.hardLine ((docLines (Text.lines c.text)).map Doc.text) else .text c.text
  .note c (if c.blankAfter = some true then .concat [printed, Doc.hardLine] else printed)

/-- A comment before its node. A blank line after it is kept. -/
def leadingDoc (c : Comment) (source : String) : Draft :=
  let separator : Draft :=
    if !c.isBlock then Doc.hardLine
    else if !Text.endsLine source c.span.stop then " "
    else if Text.startsLine source c.span.start then Doc.hardLine
    else .line
  let blank := if Text.precedesEmptyLine source c.span.stop then [Doc.hardLine] else []
  .concat ([c.doc, separator] ++ blank)

/-- How the trailing comment before this one was printed. -/
structure Trail where
  isBlock : Bool
  isSuffix : Bool
  deriving Repr, DecidableEq

/-- A comment behind its node. It is held back to the end of the line if it stands on a line of its own,
    is an inline comment, or comes after one that is held back. -/
def trailingDoc (c : Comment) (source : String) (before : Option Trail) : Draft × Trail :=
  let afterSuffix := (before.map Trail.isSuffix).getD false
  let afterInline := (before.map fun trail => trail.isSuffix && !trail.isBlock).getD false
  if afterInline || Text.startsLine source c.span.start then
    let blank := if Text.followsEmptyLine source c.span.start then Doc.hardLine else Doc.empty
    (.lineSuffix (.concat [Doc.hardLine, blank, c.doc]), ⟨c.isBlock, true⟩)
  else if !c.isBlock || afterSuffix then
    (.concat [.lineSuffix (.concat [" ", c.doc]), if c.isBlock then Doc.empty else .breakParent], ⟨c.isBlock, true⟩)
  else (.concat [" ", c.doc], ⟨c.isBlock, false⟩)

def trailingDocs (source : String) (before : Option Trail) : List Comment → List Draft
  | [] => []
  | c :: rest =>
    let (doc, trail) := c.trailingDoc source before
    doc :: trailingDocs source (some trail) rest

/-- A comment in an empty body. Up to two line ends before it are kept, but none before the first. -/
def danglingDoc (c : Comment) (source : String) (isFirst : Bool) : Draft :=
  match Text.lineFeedsBefore? source c.span.start with
  | none => Doc.empty
  | some feeds =>
    let lines := if isFirst then 0 else min feeds 2
    .concat (List.replicate lines Doc.hardLine ++ [if c.isBlock then c.doc else .lineSuffix c.doc])

def danglingDocs (source : String) (comments : List Comment) : List Draft :=
  comments.zipIdx.map fun (c, index) => c.danglingDoc source (index == 0)

end Comment
end ApexLayout
