import ApexLayout.Error
import ApexLayout.Tree.Basic

/-!
The extents of nodes: the spans that reported locations, the contents of a node and the delimiters
around it give together. Extents are found bottom up, each node's once; an extent always covers what
the node holds. Comments have an extent and add nothing to what is around them.
-/
namespace ApexLayout

/-! ### The nearest delimiter outside comments -/

namespace Delimiter

def isCommented (comments : List Span) (offset : Nat) : Bool := comments.any (·.holds offset)

/-- The first offset of the byte, at the start of a search or behind it. -/
def next? (bytes : List UInt8) (target : UInt8) (start : Nat) : Option Nat :=
  ((bytes.drop start).findIdx? (· == target)).map (· + start)

/-- The last offset of the byte, at the start of a search or before it. -/
def previous? (bytes : List UInt8) (target : UInt8) (start : Nat) : Option Nat :=
  let front := bytes.take (start + 1)
  (front.reverse.findIdx? (· == target)).map (front.length - 1 - ·)

/-- A search in rounds. Each one goes on at another offset, with less left to search, or ends it. -/
structure Search where
  round : Nat → Nat ⊕ Except String Nat
  left : Nat → Nat
  falls {start further : Nat} : round start = .inl further → left further < left start

def Search.run (search : Search) (start : Nat) : Except String Nat :=
  match _went : search.round start with
  | .inl further => search.run further
  | .inr result => result
termination_by search.left start
decreasing_by exact search.falls _went

/-- Goes on right behind an occurrence in a comment. -/
def forward (bytes : List UInt8) (comments : List Span) (target : UInt8) : Search where
  round start :=
    match next? bytes target start with
    | none => .inr (.error ("no '" ++ (Char.ofUInt8 target).toString ++ "' after offset " ++ toString start))
    | some offset => if isCommented comments offset then .inl (offset + 1) else .inr (.ok offset)
  left start := bytes.length - start
  falls {start further} went := by
    split at went
    · cases went
    · next offset found =>
      obtain ⟨i, first, rfl⟩ := Option.map_eq_some_iff.mp found
      obtain ⟨inside, -⟩ := List.findIdx?_eq_some_iff_getElem.mp first
      rw [List.length_drop] at inside
      split at went
      · cases went
        omega
      · cases went

/-- Goes on right before an occurrence in a comment, unless the text starts with it. -/
def backward (bytes : List UInt8) (comments : List Span) (target : UInt8) : Search where
  round start :=
    match previous? bytes target start with
    | none => .inr (.error ("no '" ++ (Char.ofUInt8 target).toString ++ "' before offset " ++ toString start))
    | some offset =>
      if isCommented comments offset then
        match offset with
        | 0 => .inr (.error ("no uncommented '" ++ (Char.ofUInt8 target).toString ++ "' before offset 0"))
        | earlier + 1 => .inl earlier
      else .inr (.ok offset)
  left start := start
  falls {start further} went := by
    split at went
    · cases went
    · next offset found =>
      obtain ⟨i, -, rfl⟩ := Option.map_eq_some_iff.mp found
      simp only [List.length_take] at went
      split at went
      · split at went
        · cases went
        · cases went
          omega
      · cases went

end Delimiter

/-! ### Rules -/

inductive ExtentRule where
  /-- Exactly what the node holds. -/
  | contents
  /-- The node has no extent. -/
  | nothing
  /-- From the opening character before the start to the closing one after it. -/
  | between (opening closing : Char)
  | wholeSource
  /-- Up to the closing character after the end. -/
  | upTo (closing : Char)
  /-- From the sign of an annotation, up to the end of its parameters if it has any. -/
  | fromSign
  /-- Up to the end of the parameters of a method without a body. -/
  | signature
  deriving Repr, DecidableEq

namespace ExtentRule

def ofKind? : Kind → Option ExtentRule
  | .query | .search | .forInit | .enhancedForControl | .ternaryExpr | .variableExpr | .innerClassMember
  | .innerInterfaceMember | .innerEnumMember | .methodMember | .ifElseBlock | .nameValueParameter | .variableDecl
  | .binaryExpr | .booleanExpr | .assignmentExpr | .fieldMember | .valueWhen | .elseWhen | .variableDeclStmnt
  | .whereCompoundExpr | .whereOpExpr => some .contents
  | .selectInnerQuery | .nestedExpr => some (.between '(' ')')
  | .anonymousBlockUnit => some .wholeSource
  | .propertyMember | .switchStmnt | .newListLiteral | .newSetLiteral | .newMapLiteral => some (.upTo '\x7d')
  | .newStandard | .newKeyValue | .methodCallExpr => some (.upTo ')')
  | .variableDecls => some (.upTo ';')
  | .annotationMark => some .fromSign
  | .methodDecl => some .signature
  | _ => none

/-- The rule of a class: that of its kind, or else of its family. -/
def ofClass? (c : Class) : Option ExtentRule :=
  match c.kind?.bind ofKind? with
  | some rule => some rule
  | none =>
    match c.family? with
    | none => none
    | some family =>
      if family == Kind.queryAnd.family then some .nothing else (Kind.ofClassName? family).bind ofKind?

end ExtentRule

/-! ### Extents -/

structure Extents where
  spans : Array (Option Span)
  deriving Repr

namespace Extents

def get? (e : Extents) (id : NodeId) : Option Span := (e.spans[id]?).getD none

inductive Progress where
  | pending
  /-- The node is being looked at, further out. -/
  | visiting
  /-- What the node adds to what is around it. -/
  | done (part : Option Span)
  deriving Repr, DecidableEq, Inhabited

structure Survey where
  progress : Array Progress
  spans : Array (Option Span)

/-- What is the same for all nodes: the tree, the text and the spans of the comments. -/
structure Ground where
  tree : Tree
  source : String
  comments : List Span

namespace Ground

def expect (g : Ground) (id : NodeId) : Except String Nat → Outcome Nat
  | .ok offset => .ok offset
  | .error detail => .error (.location (g.tree.className id) detail)

def after (g : Ground) (id : NodeId) (target : UInt8) (start : Nat) : Outcome Nat :=
  g.expect id ((Delimiter.forward (Text.bytes g.source) g.comments target).run start)

def before (g : Ground) (id : NodeId) (target : UInt8) (start : Nat) : Outcome Nat :=
  g.expect id ((Delimiter.backward (Text.bytes g.source) g.comments target).run start)

def between (g : Ground) (id : NodeId) (opening closing : Char) (span : Span) : Outcome Span := do
  let start ← g.before id opening.toUInt8 span.start
  let stop ← g.after id closing.toUInt8 span.start
  return ⟨start, stop + 1⟩

def upTo (g : Ground) (id : NodeId) (closing : Char) (span : Span) : Outcome Span := do
  let stop ← g.after id closing.toUInt8 span.stop
  return ⟨span.start, stop + 1⟩

def apply (g : Ground) (rule : ExtentRule) (id : NodeId) (span : Span) : Outcome (Option Span) :=
  match rule with
  | .contents => .ok (some span)
  | .nothing => .ok none
  | .wholeSource => .ok (some ⟨0, g.source.utf8ByteSize⟩)
  | .between opening closing => some <$> g.between id opening closing span
  | .upTo closing => some <$> g.upTo id closing span
  | .fromSign =>
    if (g.tree.items id "parameters").isEmpty then do
      let start ← g.before id '@'.toUInt8 span.start
      return some ⟨start, span.stop⟩
    else some <$> g.between id '@' ')' span
  | .signature =>
    if (g.tree.optional? id "stmnt").isSome then .ok (some span) else some <$> g.upTo id ')' span

/-- The extent of a node, given the least span over what it holds. A rule starts from that span, or
    from the reported one if the node holds nothing with a span. -/
def extent (g : Ground) (id : NodeId) (held : Option Span) : Outcome (Option Span) := do
  let node := g.tree.node id
  let span ←
    match node.nodeClass.bind ExtentRule.ofClass?, held <|> node.location with
    | some rule, some span => g.apply rule id span
    | some _, none => pure none
    | none, _ => pure node.location
  return span.map fun s => ((held.map s.cover).getD s)

end Ground

mutual
def surveyValue (visit : NodeId → Survey → Outcome (Option Span × Survey)) :
    Value → Survey → Outcome (Option Span × Survey)
  | .node id, s => visit id s
  | .array items, s => surveyValues visit items s
  | _, s => .ok (none, s)
def surveyValues (visit : NodeId → Survey → Outcome (Option Span × Survey)) :
    List Value → Survey → Outcome (Option Span × Survey)
  | [], s => .ok (none, s)
  | value :: values, s => do
    let (first, s) ← surveyValue visit value s
    let (rest, s) ← surveyValues visit values s
    return (Span.cover? first rest, s)
end

/-- Finds the extents of a node and of all nodes below it. A node met again on the way down adds
    nothing. The bound is on the length of the way down, which holds no node twice. -/
def survey (g : Ground) : Nat → NodeId → Survey → Outcome (Option Span × Survey)
  | 0, _, s => .ok (none, s)
  | bound + 1, id, s =>
    match (s.progress[id]?).getD .visiting with
    | .done part => .ok (part, s)
    | .visiting => .ok (none, s)
    | .pending =>
      let s := { s with progress := s.progress.set! id .visiting }
      if g.tree.isComment id then
        .ok (none, ⟨s.progress.set! id (.done none), s.spans.set! id (g.tree.node id).location⟩)
      else do
        let (held, s) ← surveyValues (survey g bound) ((g.tree.node id).fields.map (·.2)) s
        let span ← g.extent id held
        let part := span <|> held
        return (part, ⟨s.progress.set! id (.done part), s.spans.set! id span⟩)

def ofTree (tree : Tree) (source : String) (comments : List Span) : Outcome Extents := do
  let (_, s) ← survey ⟨tree, source, comments⟩ (tree.size + 1) tree.root
    ⟨Array.replicate tree.size .pending, Array.replicate tree.size none⟩
  return ⟨s.spans⟩

end Extents
end ApexLayout
