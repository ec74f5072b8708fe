import ApexLayout.Error
import ApexLayout.Json.Reader
import ApexLayout.Tree.Basic

/-!
Building a tree from the serializer's JSON. An object is numbered and its id registered before its
fields are read, so that a reference may point to any object that starts before it, those around it
included. Locations are taken out of the fields; they have ids of their own and are no nodes.
-/
namespace ApexLayout

inductive Target where
  | node (id : NodeId)
  | location (span : Span)
  deriving Repr, DecidableEq

/-- The nodes so far, and what their ids stand for, the latest first. -/
structure Builder where
  nodes : Array Node := #[]
  targets : List (String × Target) := []

namespace Builder

/-- The text by which an id is known: strings as they are, other values as JSON. -/
def idText : Json → String
  | .string value => value
  | json => json.compact

def target? (b : Builder) (id : String) : Option Target := b.targets.lookup id

/-- Makes the object's id, if it has one, stand for a target. -/
def register (b : Builder) (fields : List (String × Json)) (target : Target) : Builder :=
  match fields.lookup "@id" with
  | some id => { b with targets := (idText id, target) :: b.targets }
  | none => b

def resolve (b : Builder) (reference : Json) : Outcome NodeId :=
  let id := idText reference
  match b.target? id with
  | some (.node node) => .ok node
  | some (.location _) =>
    .error (.malformed ("@reference '" ++ id ++ "' points at a location outside a location field"))
  | none => .error (.reference id)

/-- The value of a location field is a location and not a node: a reference to one, or an object with
    both offsets. -/
def isLocation (b : Builder) : Json → Bool
  | .object fields =>
    match fields.lookup "@reference" with
    | some reference =>
      match b.target? (idText reference) with
      | some (.location _) => true
      | _ => false
    | none => (fields.lookup "startIndex").isSome && (fields.lookup "endIndex").isSome
  | _ => false

/-- The span of a location's own fields, unless an offset is not a whole number. -/
def spanOf (fields : List (String × Json)) : Option Span :=
  match (fields.lookup "startIndex").bind Json.nat?, (fields.lookup "endIndex").bind Json.nat? with
  | some start, some stop => some ⟨start, stop⟩
  | _, _ => none

def readLocation (b : Builder) : Json → Option Span × Builder
  | .object fields =>
    match fields.lookup "@reference" with
    | some reference =>
      match b.target? (idText reference) with
      | some (.location span) => (some span, b)
      | _ => (none, b)
    | none =>
      match spanOf fields with
      | some span => (some span, b.register fields (.location span))
      | none => (none, b)
  | _ => (none, b)

def start (b : Builder) (origin : Option Edge) (fields : List (String × Json)) : NodeId × Builder :=
  let id := b.nodes.size
  (id, { b with nodes := b.nodes.push { origin } }.register fields (.node id))

/-- Puts the fields of a node in place. -/
def finish (b : Builder) (id : NodeId) (node : Node) : Builder := { b with nodes := b.nodes.set! id node }

def isLocationName (name : String) : Bool := name == "loc" || name == "location"

mutual
def readValue (edge : Option Edge) (b : Builder) : Json → Outcome (Value × Builder)
  | .null => .ok (.null, b)
  | .bool value => .ok (.bool value, b)
  | .number value => .ok (.number value, b)
  | .string value => .ok (.string value, b)
  | .array items => do
    let (items, b) ← readItems edge 0 b items
    return (.array items, b)
  | .object fields =>
    match fields.lookup "@reference" with
    | some reference => do
      let id ← b.resolve reference
      return (.node id, b)
    | none => do
      let (id, b) := b.start edge fields
      let nodeClass := ((fields.lookup "@class").bind Json.string?).map Class.ofName
      let (kept, location, b) ← readFields id 0 none b fields
      return (.node id, b.finish id { nodeClass, fields := kept, location, origin := edge })
def readItems (edge : Option Edge) (index : Nat) (b : Builder) : List Json → Outcome (List Value × Builder)
  | [] => .ok ([], b)
  | item :: items => do
    let (value, b) ← readValue (edge.map ({ · with index := some index })) b item
    let (values, b) ← readItems edge (index + 1) b items
    return (value :: values, b)
def readFields (id : NodeId) (slot : UInt16) (location : Option Span) (b : Builder) :
    List (String × Json) → Outcome (List (String × Value) × Option Span × Builder)
  | [] => .ok ([], location, b)
  | (name, json) :: fields =>
    if name == "@id" || name == "@class" then readFields id slot location b fields
    else if isLocationName name && b.isLocation json then
      let (location, b) := b.readLocation json
      readFields id slot location b fields
    else do
      let (value, b) ← readValue (some ⟨id, slot, none⟩) b json
      let (kept, location, b) ← readFields id (slot + 1) location b fields
      return ((name, value) :: kept, location, b)
end

end Builder

def Tree.ofJson (json : Json) : Outcome Tree :=
  match json with
  | .object _ => do
    let (_, b) ← Builder.readValue none {} json
    return ⟨b.nodes⟩
  | _ => .error (.malformed "top level value is not an object")

/-- The JSON value of the serializer's output, unless it is nested too deeply. -/
def readOutput (text : String) : Outcome Json :=
  let depth := Json.nestingDepth text
  if Json.maxDepth < depth then
    .error (.malformed
      ("AST nests " ++ toString depth ++ " levels deep, the limit is " ++ toString Json.maxDepth))
  else
    match Json.read? text with
    | some json => .ok json
    | none => .error .json

def Tree.ofText (text : String) : Outcome Tree := readOutput text >>= Tree.ofJson

/-! ### The parser's output in a tree -/

structure ParserOutput where
  unit : NodeId
  /-- The comments, in the order in which they are listed. -/
  comments : List NodeId
  deriving Repr, DecidableEq

namespace Tree

/-- The node of the parser's output: the root or a field of it. -/
def outputNode (t : Tree) : Outcome NodeId :=
  if t.isKind t.root .parserOutput then .ok t.root
  else
    match t.child? t.root Kind.parserOutput.className with
    | some id => .ok id
    | none => .error (.malformed ("missing " ++ Kind.parserOutput.className))

def parseErrors (t : Tree) (output : NodeId) : List String :=
  (t.nodesIn output "parseErrors").map fun error =>
    (t.string? error "message").getD "Unknown parse error" ++ "."

def hiddenToken? (entry : Value) : Option NodeId :=
  match entry with
  | .array (_ :: token :: _) => token.node?
  | _ => none

/-- The comments among the hidden tokens, each of which must have a location. -/
def commentTokens (t : Tree) : List NodeId → Outcome (List NodeId)
  | [] => .ok []
  | token :: tokens =>
    if !t.isComment token then t.commentTokens tokens
    else if (t.node token).location.isNone then .error (.malformed (t.className token ++ " without a location"))
    else do
      let rest ← t.commentTokens tokens
      return token :: rest

/-- The parser's output, unless the parser reported errors. -/
def parserOutput (t : Tree) : Outcome ParserOutput := do
  let output ← t.outputNode
  let errors := t.parseErrors output
  if !errors.isEmpty then throw (.parse ("\r\n".intercalate errors))
  match t.child? output "unit" with
  | none => throw (.malformed "parser output has no unit")
  | some unit =>
    let comments ← t.commentTokens ((t.items output "hiddenTokenMap").filterMap hiddenToken?)
    return { unit, comments }

end Tree
end ApexLayout
