import ApexLayout.Json.Basic
import ApexLayout.Text.Offset
import ApexLayout.Tree.Kind

/-!
Syntax trees. Every object of the serializer's output is a node and is kept once; a reference to it
is a second occurrence of the same node. What belongs to an occurrence and not to a node is kept by
its edge.
-/
namespace ApexLayout

/-- The number of a node, in the order in which the objects start. -/
abbrev NodeId := Nat

/-- One occurrence of a node: below which node, in which field, and at which place of an array. -/
structure Edge where
  parent : NodeId
  /-- The number of the field among those the parent keeps, in sixteen bits. -/
  slot : UInt16
  index : Option Nat
  deriving Repr, DecidableEq

inductive Value where
  | null
  | bool (value : Bool)
  | number (value : Number)
  | string (value : String)
  | node (id : NodeId)
  | array (items : List Value)
  deriving Repr, Inhabited, BEq

/-- A node. Its class, id and location are not among its fields. -/
structure Node where
  nodeClass : Option Class := none
  fields : List (String × Value) := []
  /-- The span the parser reports. -/
  location : Option Span := none
  /-- The edge at which the node is defined; the root has none. -/
  origin : Option Edge := none
  deriving Repr, Inhabited

/-- A node of a known class. -/
@[simp] abbrev Node.of (kind : Kind) (fields : List (String × Value) := []) (location : Option Span := none)
    (origin : Option Edge := none) : Node :=
  ⟨some (.known kind), fields, location, origin⟩

structure Tree where
  nodes : Array Node
  deriving Repr, Inhabited

namespace Value

def node? : Value → Option NodeId
  | .node id => some id
  | _ => none

def string? : Value → Option String
  | .string value => some value
  | _ => none

def array? : Value → Option (List Value)
  | .array items => some items
  | _ => none

def bool? : Value → Option Bool
  | .bool value => some value
  | _ => none

def isNull : Value → Bool
  | .null => true
  | _ => false

end Value

namespace Node

def field? (node : Node) (name : String) : Option Value := node.fields.lookup name

/-- The place of a field among the fields kept. -/
def slot? (node : Node) (name : String) : Option Nat := node.fields.findIdx? (·.1 == name)

def kind? (node : Node) : Option Kind := node.nodeClass.bind Class.kind?

end Node

/-! ### Looking into a tree -/

namespace Tree

def root (_ : Tree) : NodeId := 0

def size (t : Tree) : Nat := t.nodes.size

def node (t : Tree) (id : NodeId) : Node := (t.nodes[id]?).getD {}

def ids (t : Tree) : List NodeId := List.range t.size

def origin (t : Tree) (id : NodeId) : Option Edge := (t.node id).origin

/-! ### Classes -/

def kind? (t : Tree) (id : NodeId) : Option Kind := (t.node id).kind?

def isKind (t : Tree) (id : NodeId) (kind : Kind) : Bool := t.kind? id == some kind

def isAmong (t : Tree) (id : NodeId) (kinds : List Kind) : Bool := ((t.kind? id).map kinds.contains).getD false

def family? (t : Tree) (id : NodeId) : Option String := (t.node id).nodeClass.bind Class.family?

def hasClass (t : Tree) (id : NodeId) : Bool := (t.node id).nodeClass.isSome

def className (t : Tree) (id : NodeId) : String := ((t.node id).nodeClass.map Class.name).getD "<no class>"

def isComment (t : Tree) (id : NodeId) : Bool := t.isAmong id [.blockComment, .inlineComment]

/-! ### Fields -/

def field? (t : Tree) (id : NodeId) (name : String) : Option Value := (t.node id).field? name

def child? (t : Tree) (id : NodeId) (name : String) : Option NodeId := (t.field? id name).bind Value.node?

/-- The value of an optional field. A node without class wraps the value of an optional field, and a
    null in it stands for none. -/
def optional? (t : Tree) (id : NodeId) (name : String) : Option Value :=
  match t.child? id name with
  | none => none
  | some wrapper =>
    if t.hasClass wrapper then t.field? id name else (t.field? wrapper "value").filter (!·.isNull)

def optionalChild? (t : Tree) (id : NodeId) (name : String) : Option NodeId := (t.optional? id name).bind Value.node?

def items (t : Tree) (id : NodeId) (name : String) : List Value := ((t.field? id name).bind Value.array?).getD []

def nodesIn (t : Tree) (id : NodeId) (name : String) : List NodeId := (t.items id name).filterMap Value.node?

def string? (t : Tree) (id : NodeId) (name : String) : Option String := (t.field? id name).bind Value.string?

def flag (t : Tree) (id : NodeId) (name : String) : Bool := ((t.field? id name).bind Value.bool?).getD false

/-- The constant that a node in a field stands for, such as an operator. -/
def constant? (t : Tree) (id : NodeId) (name : String) : Option String := (t.child? id name).bind (t.string? · "$")

def name? (t : Tree) (id : NodeId) (name : String) : Option String := (t.child? id name).bind (t.string? · "value")

/-! ### Occurrences -/

def fieldName (t : Tree) (edge : Edge) : String := (((t.node edge.parent).fields[edge.slot.toNat]?).map (·.1)).getD ""

def target? (t : Tree) (edge : Edge) : Option NodeId :=
  match (t.node edge.parent).fields[edge.slot.toNat]?, edge.index with
  | some (_, .node id), none => some id
  | some (_, .array items), some i => (items[i]?).bind Value.node?
  | _, _ => none

mutual
/-- The occurrences of nodes in a value. In arrays within arrays the innermost place counts. -/
def occurrences (edge : Edge) : Value → List (Edge × NodeId)
  | .node id => [(edge, id)]
  | .array items => occurrencesFrom edge 0 items
  | _ => []
def occurrencesFrom (edge : Edge) (index : Nat) : List Value → List (Edge × NodeId)
  | [] => []
  | item :: items => occurrences { edge with index := some index } item ++ occurrencesFrom edge (index + 1) items
end

/-- Every occurrence of a node right below another one, in the order of the fields. -/
def children (t : Tree) (id : NodeId) : List (Edge × NodeId) :=
  ((t.node id).fields.zipIdx.map fun (field, slot) => occurrences ⟨id, slot.toUInt16, none⟩ field.2).flatten

def mapOffsets (t : Tree) (f : Nat → Nat) : Tree :=
  ⟨t.nodes.map fun node => { node with location := node.location.map fun span => ⟨f span.start, f span.stop⟩ }⟩

end Tree
end ApexLayout
