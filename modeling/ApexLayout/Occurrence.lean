import ApexLayout.Extent.Basic

/-!
What holds of an occurrence of a node: whether a blank line follows it in the source and is kept,
and where it stands in an array, a chain of branches, a parameter list or an assignment.
-/
namespace ApexLayout

structure Flags where
  blankAfter : Bool := false
  isLast : Bool := false
  /-- An element of a list of parameters. -/
  inParentheses : Bool := false
  /-- The place in a chain of conditional branches. -/
  branch : Option Nat := none
  /-- A query or search below an assignment or a declaration of variables. -/
  inAssignment : Bool := false
  deriving Repr, DecidableEq

/-- The flags of all occurrences that have any, and the queries and searches of more than one line. -/
structure Occurrences where
  flags : List (Edge × Flags) := []
  multiline : List NodeId := []
  deriving Repr

namespace Occurrences

/-- The kinds that may keep a blank line after them. -/
def separable : List Kind :=
  [.blockStmnt, .expressionStmnt, .dmlInsertStmnt, .dmlUpdateStmnt, .dmlUpsertStmnt, .dmlDeleteStmnt,
    .dmlUndeleteStmnt, .dmlMergeStmnt, .variableDeclStmnt, .ifElseBlock, .tryCatchFinallyBlock, .doLoop, .forLoop,
    .whileLoop, .returnStmnt, .throwStmnt, .breakStmnt, .continueStmnt, .switchStmnt, .enumDecl, .classDecl,
    .interfaceDecl, .fieldMember, .propertyMember, .methodMember, .innerClassMember, .innerInterfaceMember,
    .innerEnumMember]

/-- The kinds below which a blank line belongs to the whole and to nothing inside. -/
def selfSeparating : List Kind :=
  [.variableDeclStmnt, .ifElseBlock, .tryCatchFinallyBlock, .doLoop, .forLoop, .whileLoop, .switchStmnt,
    .fieldMember, .propertyMember, .methodMember, .innerClassMember, .innerInterfaceMember, .innerEnumMember]

def get (o : Occurrences) (edge : Edge) : Flags := (o.flags.lookup edge).getD {}

/-- Changes the flags of an occurrence, from the usual ones if it has none yet. -/
def updateIn (edge : Edge) (f : Flags → Flags) : List (Edge × Flags) → List (Edge × Flags)
  | [] => [(edge, f {})]
  | (e, flags) :: rest => if e = edge then (e, f flags) :: rest else (e, flags) :: updateIn edge f rest

def update (o : Occurrences) (edge : Edge) (f : Flags → Flags) : Occurrences :=
  { o with flags := updateIn edge f o.flags }

def updateAll (o : Occurrences) (edges : List Edge) (f : Edge → Flags → Flags) : Occurrences :=
  edges.foldl (fun o edge => o.update edge (f edge)) o

def clearBlank (o : Occurrences) (edge : Edge) : Occurrences :=
  { o with flags := o.flags.map fun (e, flags) => (e, if e = edge then { flags with blankAfter := false } else flags) }

def blankEdges (o : Occurrences) : List Edge := (o.flags.filter (·.2.blankAfter)).map (·.1)

def isMultiline (o : Occurrences) (id : NodeId) : Bool := o.multiline.contains id

/-! ### The walk over the tree -/

/-- What is the same for all occurrences. -/
structure Ground where
  tree : Tree
  extents : Extents
  lines : Text.Lines

/-- What the nodes around an occurrence say of it. -/
structure Around where
  keepsBlanks : Bool := true
  inAssignment : Bool := false

/-- What a node says of the nodes below it. -/
def Around.below (around : Around) (kind : Option Kind) : Around :=
  let among (kinds : List Kind) : Bool := (kind.map kinds.contains).getD false
  { keepsBlanks :=
      if among selfSeparating then false else if among separable then true else around.keepsBlanks
    inAssignment := around.inAssignment || among [.assignmentExpr, .variableDecl] }

def elementEdges (tree : Tree) (id : NodeId) (name : String) : List Edge :=
  match (tree.node id).slot? name with
  | some slot => (List.range (tree.items id name).length).map fun i => ⟨id, slot.toUInt16, some i⟩
  | none => []

def hasBlankAfter (g : Ground) (id : NodeId) : Bool :=
  match g.extents.get? id with
  | some span => g.tree.isAmong id separable && g.lines.isBlank (g.lines.endLine span + 1)
  | none => false

def spansLines (g : Ground) (id : NodeId) : Bool :=
  match g.extents.get? id with
  | some span => g.lines.startLine span != g.lines.endLine span
  | none => false

/-- Sets the flags that a node has at an occurrence, and those of the elements of its lists. -/
def mark (g : Ground) (id : NodeId) (edge : Option Edge) (around : Around) (isLast : Bool) (o : Occurrences) :
    Occurrences :=
  let o :=
    if g.tree.isAmong id [.query, .search] && spansLines g id then { o with multiline := id :: o.multiline } else o
  let o :=
    if g.tree.isKind id .ifElseBlock then
      o.updateAll (elementEdges g.tree id "ifBlocks") fun edge flags => { flags with branch := edge.index }
    else o
  let o := o.updateAll (elementEdges g.tree id "inputParameters") fun _ flags => { flags with inParentheses := true }
  match edge with
  | none => o
  | some edge =>
    let o :=
      if around.inAssignment && g.tree.isAmong id [.soqlExpr, .soslExpr] then
        o.update edge fun flags => { flags with inAssignment := true }
      else o
    let o := if isLast then o.update edge fun flags => { flags with isLast := true } else o
    if around.keepsBlanks && !isLast && hasBlankAfter g id then
      o.update edge fun flags => { flags with blankAfter := true }
    else o

def shareLine (g : Ground) (first second : NodeId) : Bool :=
  match g.extents.get? first, g.extents.get? second with
  | some a, some b => g.lines.endLine a == g.lines.startLine b
  | _, _ => false

/-- What the walk does below a node: it goes on to an occurrence, or takes its blank line. -/
inductive Act where
  | visit (child : NodeId) (edge : Edge) (isLast : Bool)
  | join (edge : Edge)

def Act.run (visit : NodeId → Edge → Bool → Occurrences → Occurrences) (o : Occurrences) : Act → Occurrences
  | .visit child edge isLast => visit child edge isLast o
  | .join edge => o.clearBlank edge

/-- The next element is a node that starts on the line on which the first one ends. -/
def joins (g : Ground) (first : NodeId) : Option Value → Bool
  | some (.node second) => shareLine g first second
  | _ => false

/-- Neighbours in an array that share a line have no blank line between them. -/
def joinActs (g : Ground) (edge : Edge) (index : Nat) : List Value → List Act
  | .node first :: rest =>
    (if joins g first rest.head? then [.join { edge with index := some index }] else []) ++
      joinActs g edge (index + 1) rest
  | _ :: rest => joinActs g edge (index + 1) rest
  | [] => []

mutual
def valueActs (g : Ground) (edge : Edge) (isLast : Bool) : Value → List Act
  | .node id => [.visit id edge isLast]
  | .array items => itemActs g edge 0 items.length items ++ joinActs g edge 0 items
  | _ => []
def itemActs (g : Ground) (edge : Edge) (index count : Nat) : List Value → List Act
  | [] => []
  | item :: rest =>
    valueActs g { edge with index := some index } (index + 1 == count) item ++ itemActs g edge (index + 1) count rest
end

def acts (g : Ground) (id : NodeId) : List Act :=
  (g.tree.node id).fields.zipIdx.flatMap fun entry => valueActs g ⟨id, entry.2.toUInt16, none⟩ false entry.1.2

/-- Walks over a node and all below it, and marks it last. A node on the way down is not entered again;
    the bound is on the length of that way. -/
def walk (g : Ground) : Nat → List NodeId → Around → NodeId → Option Edge → Bool → Occurrences → Occurrences
  | 0, _, _, _, _, _, o => o
  | bound + 1, path, around, id, edge, isLast, o =>
    if path.contains id then o
    else
      let visit (child : NodeId) (edge : Edge) (isLast : Bool) (o : Occurrences) : Occurrences :=
        walk g bound (id :: path) (around.below (g.tree.kind? id)) child (some edge) isLast o
      mark g id edge around isLast ((acts g id).foldl (Act.run visit) o)

def ofTree (tree : Tree) (extents : Extents) (lines : Text.Lines) : Occurrences :=
  walk ⟨tree, extents, lines⟩ (tree.size + 1) [] {} tree.root none false {}

end Occurrences
end ApexLayout
