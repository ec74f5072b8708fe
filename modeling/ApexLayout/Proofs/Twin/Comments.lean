import ApexLayout.Proofs.Extent.Containment
import ApexLayout.Proofs.Printing.Conservation
import ApexLayout.Proofs.Tree.Order
import ApexLayout.Proofs.Twin.Build
import ApexLayout.Proofs.Twin.Kinds

/-!
Comments change no code. The output for a source and the same output without its comments give twin trees and twin
manuscripts, and so documents with the same code (`toDoc_code`).
-/
namespace ApexLayout

variable {r : NodeId → NodeId → Prop}

/-! ### Offsets in bytes -/

namespace Tree

variable {t t' : Tree}

/-- Counting bytes moves the locations, in every tree in the same way, and changes nothing else. -/
theorem exists_inBytes (source : String) : ∃ shift : Span → Span, ∀ (t : Tree) (id : NodeId),
    (t.inBytes source).node id = { t.node id with location := (t.node id).location.map shift } := by
  by_cases ascii : (Text.UnitMap.ofText source).isIdentity
  · exact ⟨id, fun t id => by simp [inBytes, ascii]⟩
  · let f := (Text.UnitMap.ofText source).toByte
    refine ⟨fun span => ⟨f span.start, f span.stop⟩, fun t id => ?_⟩
    simp only [inBytes, ascii, Bool.false_eq_true, if_false]
    exact node_mapOffsets t f id

theorem size_inBytes (t : Tree) (source : String) : (t.inBytes source).size = t.size := by
  simp only [inBytes]
  split
  · rfl
  · simp [mapOffsets, size]

theorem child_inBytes {source : String} {p d : NodeId} : (t.inBytes source).Child p d ↔ t.Child p d := by
  obtain ⟨shift, same⟩ := exists_inBytes source
  rw [Extents.child_iff, Extents.child_iff, same]

theorem Twins.inBytes (twins : t.Twins r t') (source : String) :
    (t.inBytes source).Twins r (t'.inBytes source) := by
  obtain ⟨shift, same⟩ := exists_inBytes source
  intro id id' here
  obtain ⟨nodeClass, fields, location, origin⟩ := twins here
  rw [same, same]
  exact ⟨nodeClass, fields, by simp [location], origin⟩

theorem Twins.isBranch (twins : t.Twins r t') {e e' : Edge} (same : e.Twin r e') :
    Occurrences.isBranch t e = Occurrences.isBranch t' e' := by
  have lengths := (twins.items same.parent (by decide : "ifBlocks" ≠ hiddenField)).length_eq
  have slots := (twins same.parent).slot? "ifBlocks"
  rw [Bool.eq_iff_iff]
  simp only [Occurrences.isBranch, Bool.and_eq_true, List.contains_iff_mem, Occurrences.mem_elementEdges]
  rw [twins.isKind same.parent, slots, lengths, same.slot, same.index]

theorem Twins.outputNode (twins : t.Twins r t') (root : r t.root t'.root) :
    Agree r t.outputNode t'.outputNode := by
  have inner := twins.child? root (by decide : Kind.parserOutput.className ≠ hiddenField)
  unfold Tree.outputNode
  rw [← twins.isKind root]
  split
  · exact .ok root
  · generalize t.child? t.root Kind.parserOutput.className = child,
      t'.child? t'.root Kind.parserOutput.className = child' at inner
    cases inner with
    | none => exact .error
    | some here => exact .ok here

theorem parserOutput_eq_ok {output : ParserOutput} (found : t.parserOutput = .ok output) :
    ∃ id, t.outputNode = .ok id ∧ t.child? id "unit" = some output.unit := by
  obtain ⟨id, at_node, found⟩ := bind_eq_ok.mp found
  refine ⟨id, at_node, ?_⟩
  simp only at found
  split at found
  · cases found
  · split at found
    · cases found
    · next unit there =>
      obtain ⟨comments, -, made⟩ := bind_eq_ok.mp found
      obtain rfl := pure_eq_ok.mp made
      exact there

theorem Twins.unit (twins : t.Twins r t') (root : r t.root t'.root) {output output' : ParserOutput}
    (found : t.parserOutput = .ok output) (found' : t'.parserOutput = .ok output') : r output.unit output'.unit := by
  obtain ⟨id, at_node, unit⟩ := parserOutput_eq_ok found
  obtain ⟨id', at_node', unit'⟩ := parserOutput_eq_ok found'
  have here := twins.outputNode root id id' at_node at_node'
  have units := twins.child? here (by decide : "unit" ≠ hiddenField)
  rw [unit, unit'] at units
  cases units with
  | some related => exact related

end Tree

/-! ### Twin manuscripts -/

/-- The kinds of nodes that hold no nodes: comments, and the words of an order. -/
def leafKinds : List Kind := orderKinds ++ [.blockComment, .inlineComment]

namespace Manuscript

variable {id : NodeId}

/-- Comments and orders hold no nodes, and nothing is put around a document that prints nothing. -/
structure Plain (m : Manuscript) : Prop where
  leaves {id : NodeId} : m.tree.isAmong id leafKinds → m.tree.children id = []
  heard : m.Heard

variable {m : Manuscript} {tree : Tree} {output : ParserOutput} {source : String} {settings : FormatSettings}

theorem parts_ofTree (made : ofTree tree output source settings = .ok m) :
    m.tree = tree.inBytes source ∧ m.source = source ∧ m.unit = output.unit ∧
      (∃ comments, Extents.ofTree m.tree source comments = .ok m.extents) ∧
      (∃ lines, m.occurrences = Occurrences.ofTree m.tree m.extents lines) ∧
      ∃ shelf, Site.bind ⟨m.tree, m.extents, source⟩ output.comments = .ok shelf ∧
        m.shelf = shelf.deferBlanks m.tree m.occurrences := by
  obtain ⟨extents, spans, made⟩ := bind_eq_ok.mp made
  obtain ⟨shelf, bound, made⟩ := bind_eq_ok.mp made
  obtain rfl := pure_eq_ok.mp made
  dsimp only
  exact ⟨rfl, rfl, rfl, ⟨_, spans⟩, ⟨_, rfl⟩, shelf, bound, rfl⟩

theorem not_isIgnored (unignored : ∀ c ∈ m.shelf.held, c.toComment.isIgnore = false) (id : NodeId) :
    m.shelf.isIgnored id = false := by
  simp only [Shelf.isIgnored, List.any_eq_false]
  intro c member
  have held := (Shelf.of_sublist_held m.shelf id).subset (List.mem_of_mem_filter member)
  simp [unignored c held]

theorem bare_ofTree (made : ofTree tree output source settings = .ok m) (silent : output.comments = []) : m.Bare := by
  obtain ⟨-, -, nodes⟩ := shelf_ofTree made
  have empty : m.shelf.held = [] := by simpa [silent] using nodes
  intro id
  have listed := Shelf.of_sublist_held m.shelf id
  rw [empty] at listed
  exact List.sublist_nil.mp listed

/-- No comment stands in the place of members that comments find. -/
theorem dangling_ofTree (made : ofTree tree output source settings = .ok m)
    (furnished : Site.Furnished ⟨m.tree, m.extents, source⟩) (id : NodeId) (body : m.tree.isAmong id bodyKinds)
    (listed : m.tree.members id ≠ []) : m.shelf.dangling id = [] := by
  obtain ⟨filed, -, -⟩ := shelf_ofTree made
  obtain ⟨-, -, -, -, -, shelf, bound, deferred⟩ := parts_ofTree made
  obtain ⟨comments, holds, -⟩ := Site.bind_holds _ bound
  obtain ⟨-, same⟩ := Shelf.filed_deferBlanks m.tree m.occurrences holds.toFiled
  rw [← deferred] at same
  refine List.filter_eq_nil_iff.mpr fun c member dangling => listed ?_
  have held : Shelf.plainly c ∈ m.shelf.held.map Shelf.plainly :=
    List.mem_map_of_mem ((Shelf.of_sublist_held m.shelf id).subset member)
  rw [same] at held
  obtain ⟨d, at_first, plainly⟩ := List.mem_map.mp held
  have anchor : d.anchor = c.anchor := (congrArg BoundComment.anchor plainly :)
  have owner : d.owner = c.owner := (congrArg BoundComment.owner plainly :)
  exact Site.members_of_bind furnished bound d at_first (anchor.trans (by simpa using dangling)) id
    (owner.trans (filed.owned id c member)) body

def orderFamilies : List String := ["apex.jorje.data.soql.Order", "apex.jorje.data.soql.OrderNull"]

theorem ofKind?_of_orderFamily {kind : Kind} (order : kind.className ∈ orderFamilies) :
    ExtentRule.ofKind? kind = none := by
  cases kind <;> first | rfl | exact absurd order (by decide)

theorem ofClass?_order {kind : Kind} (order : kind ∈ orderKinds) : ExtentRule.ofClass? (.known kind) = none := by
  have own : ExtentRule.ofKind? kind = none ∧ kind.family ∈ orderFamilies ∧
      (kind.family == Kind.queryAnd.family) = false := by
    simp only [orderKinds, List.mem_cons, List.not_mem_nil, or_false] at order
    rcases order with rfl | rfl | rfl | rfl <;> decide
  obtain ⟨no_rule, family, no_connector⟩ := own
  have no_family_rule : (Kind.ofClassName? kind.family).bind ExtentRule.ofKind? = none := by
    refine Option.bind_eq_none_iff.mpr fun other found => ofKind?_of_orderFamily ?_
    have named : other.className = kind.family := by simpa using List.find?_some found
    rwa [named]
  simp [ExtentRule.ofClass?, Class.kind?, Class.family?, no_rule, no_connector, no_family_rule]

theorem isAmong_iff {t : Tree} {kinds : List Kind} :
    t.isAmong id kinds ↔ ∃ kind ∈ kinds, t.kind? id = some kind := by
  unfold Tree.isAmong
  cases t.kind? id with
  | none => simp
  | some kind => simp

theorem isLeaf_of_order (plain : m.Plain) (order : m.tree.isAmong id orderKinds) : m.tree.IsLeaf id := by
  obtain ⟨kind, listed, known⟩ := isAmong_iff.mp order
  refine ⟨?_, plain.leaves (isAmong_iff.mpr ⟨kind, List.mem_append_left _ listed, known⟩)⟩
  · obtain ⟨nodeClass, there, is_known⟩ := Option.bind_eq_some_iff.mp known
    cases nodeClass with
    | known other =>
      cases is_known
      simp [there, ofClass?_order listed]
    | other name => cases is_known

theorem children_comment (plain : m.Plain) (comment : m.tree.isComment id) : m.tree.children id = [] := by
  obtain ⟨kind, listed, known⟩ := isAmong_iff.mp comment
  exact plain.leaves (isAmong_iff.mpr ⟨kind, List.mem_append_right _ listed, known⟩)

end Manuscript

/-! ### Readings -/

/-- A source is laid out from the serializer's text for it by way of these. -/
structure Reading (text source : String) (settings : FormatSettings) where
  json : Json
  tree : Tree
  output : ParserOutput
  manuscript : Manuscript
  read : readOutput text = .ok json
  built : Tree.ofJson json = .ok tree
  found : tree.parserOutput = .ok output
  made : Manuscript.ofTree tree output source settings = .ok manuscript

namespace Reading

variable {text text' source : String} {settings : FormatSettings}

theorem toDoc_eq (reading : Reading text source settings) : toDoc text source settings = reading.manuscript.doc := by
  have tree : Tree.ofText text = .ok reading.tree := bind_eq_ok.mpr ⟨_, reading.read, reading.built⟩
  rw [toDoc, tree]
  simp [bind, Except.bind, reading.found, reading.made]

theorem reaches (reading : Reading text source settings) {id : NodeId} (inside : id < reading.manuscript.tree.size) :
    Relation.ReflTransGen reading.manuscript.tree.Child reading.manuscript.tree.root id := by
  obtain ⟨same, -⟩ := Manuscript.parts_ofTree reading.made
  rw [same] at inside ⊢
  rw [Tree.size_inBytes] at inside
  exact Relation.ReflTransGen.mono (fun _ _ => Tree.child_inBytes.mpr) _ _ (Tree.reaches_ofJson reading.built inside)

theorem extent_order (reading : Reading text source settings) (plain : reading.manuscript.Plain) {id : NodeId}
    (order : reading.manuscript.tree.isAmong id orderKinds) :
    reading.manuscript.extents.get? id = (reading.manuscript.tree.node id).location := by
  obtain ⟨-, -, -, ⟨comments, extents⟩, -⟩ := Manuscript.parts_ofTree reading.made
  exact Extents.ofTree_reported extents (fun _ => Manuscript.children_comment plain) (fun _ => reading.reaches)
    (Manuscript.isLeaf_of_order plain order)

/-- The manuscripts of outputs that differ in comments only are twins. -/
theorem twin {gone : List String} (first : Reading text source settings) (second : Reading text' source settings)
    (lacks : first.json.Lacks gone second.json) (unused : ∀ id ∈ second.json.ids, id ∉ gone)
    (silent : second.output.comments = [])
    (unignored : ∀ c ∈ first.manuscript.shelf.held, c.toComment.isIgnore = false)
    (furnished : Site.Furnished ⟨first.manuscript.tree, first.manuscript.extents, source⟩)
    (plain : first.manuscript.Plain) (plain' : second.manuscript.Plain) :
    ∃ r, first.manuscript.Twin r second.manuscript ∧ r first.manuscript.unit second.manuscript.unit := by
  obtain ⟨r, twins, root, inside⟩ := Tree.twins_ofJson lacks unused first.built second.built
  obtain ⟨tree, sources, unit, -, ⟨_, occurrences⟩, -⟩ := Manuscript.parts_ofTree first.made
  obtain ⟨tree', sources', unit', -, ⟨_, occurrences'⟩, -⟩ := Manuscript.parts_ofTree second.made
  have in_bytes : first.manuscript.tree.Twins r second.manuscript.tree := by
    rw [tree, tree']
    exact twins.inBytes source
  have sizes {id id' : NodeId} (here : r id id') :
      id < first.manuscript.tree.size ∧ id' < second.manuscript.tree.size := by
    rw [tree, tree', Tree.size_inBytes, Tree.size_inBytes]
    exact inside id id' here
  refine ⟨r, ⟨in_bytes, root, by rw [sources, sources'], fun {e e'} same => ?_, fun {id id'} here order => ?_,
    Manuscript.not_isIgnored unignored, Manuscript.dangling_ofTree first.made furnished,
    Manuscript.bare_ofTree second.made silent, plain.heard, plain'.heard⟩, ?_⟩
  · obtain ⟨within, within'⟩ := sizes same.parent
    rw [occurrences, occurrences', Occurrences.branch_ofTree _ _ _ (first.reaches within),
      Occurrences.branch_ofTree _ _ _ (second.reaches within'), in_bytes.isBranch same, same.index]
  · have order' : second.manuscript.tree.isAmong id' orderKinds := by rwa [← in_bytes.isAmong here]
    rw [first.extent_order plain order, second.extent_order plain' order', (in_bytes here).location]
  · rw [unit, unit']
    exact twins.unit root first.found second.found

end Reading

/-- Comments change no code: laid out by the serializer's output for it, and by the output without its
    comments, a source has the same code. No comment may ask to leave a node as it is. Bodies must list
    something that comments find, comments and orders hold nothing, and nothing that is put around a
    document may be around one that prints nothing. -/
theorem toDoc_code {text text' source : String} {settings : FormatSettings} {gone : List String}
    (first : Reading text source settings) (second : Reading text' source settings)
    (lacks : first.json.Lacks gone second.json) (unused : ∀ id ∈ second.json.ids, id ∉ gone)
    (silent : second.output.comments = [])
    (unignored : ∀ c ∈ first.manuscript.shelf.held, c.toComment.isIgnore = false)
    (furnished : Site.Furnished ⟨first.manuscript.tree, first.manuscript.extents, source⟩)
    (plain : first.manuscript.Plain) (plain' : second.manuscript.Plain) {draft draft' : Draft}
    (ok : toDoc text source settings = .ok draft) (ok' : toDoc text' source settings = .ok draft') :
    draft.code = draft'.code := by
  obtain ⟨r, twin, units⟩ := first.twin second lacks unused silent unignored furnished plain plain'
  rw [first.toDoc_eq] at ok
  rw [second.toDoc_eq] at ok'
  exact twin.doc units draft draft' ok ok'

/-! ### A comment in a class -/

/-- Where no blank lines are kept, it is enough that nodes with comments print something. -/
theorem Manuscript.heard_of_loud {m : Manuscript} (close : ∀ edge, (m.occurrences.get edge).blankAfter = false)
    (loud : ∀ (p : Printer) (id : NodeId) (nodeClass : Class) (doc : Draft), m.shelf.of id ≠ [] →
      (m.tree.node id).nodeClass = some nodeClass → p.ofClass id nodeClass = .ok doc → doc.isEmpty = false) :
    m.Heard := by
  intro bound path id edge nodeClass doc known printed nothing _
  have silent : m.shelf.of id = [] := by
    by_contra noted
    rw [loud _ id nodeClass doc noted known printed] at nothing
    cases nothing
  refine ⟨by simp [Printer.commentDocs?, Shelf.hasAny, silent], ?_⟩
  cases edge with
  | none => rfl
  | some edge => exact close edge

section
-- The texts of the trees below are longer than the usual depth.
set_option maxRecDepth 4000

def classOutput (entries : List Json) : Json :=
  .object
    [("@class", .string "apex.jorje.semantic.compiler.parser.ParserOutput"), ("hiddenTokenMap", .array entries),
      ("unit", .object
        [("@class", .string "apex.jorje.data.ast.ClassDecl"), ("@id", .string "2"),
          ("loc", .object [("startIndex", .ofNat 0), ("endIndex", .ofNat 24)]), ("name", .string "A"),
          ("members", .array [.object
            [("@class", .string "apex.jorje.data.ast.EnumDecl"),
              ("loc", .object [("startIndex", .ofNat 14), ("endIndex", .ofNat 23)]), ("name", .string "B"),
              ("members", .array [])]])])]

def remarkEntry : Json :=
  .array [.ofNat 9, .object
    [("@class", .string "apex.jorje.parser.impl.HiddenTokens$BlockComment"), ("@id", .string "1"),
      ("location", .object [("startIndex", .ofNat 9), ("endIndex", .ofNat 14)]), ("value", .string "/*c*/")]]

def remarkText : String :=
  "\x7b\"@class\":\"apex.jorje.semantic.compiler.parser.ParserOutput\",
\"hiddenTokenMap\":[[9,\x7b\"@class\":\"apex.jorje.parser.impl.HiddenTokens$BlockComment\",\"@id\":\"1\",
\"location\":\x7b\"startIndex\":9,\"endIndex\":14\x7d,\"value\":\"/*c*/\"\x7d]],
\"unit\":\x7b\"@class\":\"apex.jorje.data.ast.ClassDecl\",\"@id\":\"2\",
\"loc\":\x7b\"startIndex\":0,\"endIndex\":24\x7d,\"name\":\"A\",
\"members\":[\x7b\"@class\":\"apex.jorje.data.ast.EnumDecl\",\"loc\":\x7b\"startIndex\":14,\"endIndex\":23\x7d,
\"name\":\"B\",\"members\":[]\x7d]\x7d\x7d"

def unremarkedText : String :=
  "\x7b\"@class\":\"apex.jorje.semantic.compiler.parser.ParserOutput\",\"hiddenTokenMap\":[],
\"unit\":\x7b\"@class\":\"apex.jorje.data.ast.ClassDecl\",\"@id\":\"2\",
\"loc\":\x7b\"startIndex\":0,\"endIndex\":24\x7d,\"name\":\"A\",
\"members\":[\x7b\"@class\":\"apex.jorje.data.ast.EnumDecl\",\"loc\":\x7b\"startIndex\":14,\"endIndex\":23\x7d,
\"name\":\"B\",\"members\":[]\x7d]\x7d\x7d"

theorem read_remarkText : readOutput remarkText = .ok (classOutput [remarkEntry]) := by
  have chars : remarkText.toList = _ := String.toList_ofList
  rw [readOutput, Json.nestingDepth, Json.read?, chars]
  rfl

theorem read_unremarkedText : readOutput unremarkedText = .ok (classOutput []) := by
  have chars : unremarkedText.toList = _ := String.toList_ofList
  rw [readOutput, Json.nestingDepth, Json.read?, chars]
  rfl

def remark : Manuscript where
  tree :=
    ⟨#[.of .parserOutput [("hiddenTokenMap", .array [.array [.number (.int 9), .node 1]]), ("unit", .node 2)],
      .of .blockComment [("value", .string "/*c*/")] (some ⟨9, 14⟩) (some ⟨0, 0, some 1⟩),
      .of .classDecl [("name", .string "A"), ("members", .array [.node 3])] (some ⟨0, 24⟩) (some ⟨0, 1, none⟩),
      .of .enumDecl [("name", .string "B"), ("members", .array [])] (some ⟨14, 23⟩) (some ⟨2, 1, some 0⟩)]⟩
  extents := ⟨#[none, some ⟨9, 14⟩, some ⟨0, 24⟩, some ⟨14, 23⟩]⟩
  occurrences := { flags := [(⟨0, 0, some 1⟩, { isLast := true }), (⟨2, 1, some 0⟩, { isLast := true })] }
  shelf :=
    { owned := [(3, [{ node := 1, kind := .block, text := "/*c*/", span := ⟨9, 14⟩, near := ⟨some 2, none, some 3⟩
                       blankAfter := some false, placement := .remaining, owner := some 3, anchor := .leading }])] }
  source := "class A \x7b/*c*/enum B \x7b\x7d\x7d"
  unit := 2

def unremarked : Manuscript where
  tree :=
    ⟨#[.of .parserOutput [("hiddenTokenMap", .array []), ("unit", .node 1)],
      .of .classDecl [("name", .string "A"), ("members", .array [.node 2])] (some ⟨0, 24⟩) (some ⟨0, 1, none⟩),
      .of .enumDecl [("name", .string "B"), ("members", .array [])] (some ⟨14, 23⟩) (some ⟨1, 1, some 0⟩)]⟩
  extents := ⟨#[none, some ⟨0, 24⟩, some ⟨14, 23⟩]⟩
  occurrences := { flags := [(⟨1, 1, some 0⟩, { isLast := true })] }
  source := remark.source
  unit := 1

theorem extents_remark : Extents.ofTree remark.tree remark.source [⟨9, 14⟩] = .ok remark.extents :=
  Extents.ofTree_eq_ok (by decide +kernel)

theorem extents_unremarked : Extents.ofTree unremarked.tree remark.source [] = .ok unremarked.extents :=
  Extents.ofTree_eq_ok (by decide +kernel)

theorem built_remark : Tree.ofJson (classOutput [remarkEntry]) = .ok remark.tree := by rfl

theorem built_unremarked : Tree.ofJson (classOutput []) = .ok unremarked.tree := by rfl

theorem bind_remark : Site.bind ⟨remark.tree, remark.extents, remark.source⟩ [1] = .ok remark.shelf := by
  let site : Site := ⟨remark.tree, remark.extents, remark.source⟩
  let comment : Comment := { node := 1, kind := .block, text := "/*c*/", span := ⟨9, 14⟩ }
  have around : site.neighbours (Site.inOrder [comment]) [] =
      .ok [{ comment with near := ⟨some 2, none, some 3⟩, blankAfter := some false }] := by cbv
  exact Site.bind_of_eq (by decide +kernel) around (by decide +kernel) (by decide +kernel)

theorem bind_unremarked : Site.bind ⟨unremarked.tree, unremarked.extents, remark.source⟩ [] = .ok unremarked.shelf := by
  cbv

theorem ofTree_remark : Manuscript.ofTree remark.tree ⟨2, [1]⟩ remark.source {} = .ok remark :=
  Manuscript.ofTree_eq_ok rfl extents_remark rfl bind_remark rfl rfl

theorem ofTree_unremarked : Manuscript.ofTree unremarked.tree ⟨1, []⟩ remark.source {} = .ok unremarked :=
  Manuscript.ofTree_eq_ok rfl extents_unremarked rfl bind_unremarked rfl rfl

def remarkReading : Reading remarkText remark.source {} where
  json := classOutput [remarkEntry]
  tree := remark.tree
  output := ⟨2, [1]⟩
  manuscript := remark
  read := read_remarkText
  built := built_remark
  found := by rfl
  made := ofTree_remark

def unremarkedReading : Reading unremarkedText remark.source {} where
  json := classOutput []
  tree := unremarked.tree
  output := ⟨1, []⟩
  manuscript := unremarked
  read := read_unremarkedText
  built := built_unremarked
  found := by rfl
  made := ofTree_unremarked

theorem lacks_remark : (classOutput [remarkEntry]).Lacks ["1"] (classOutput []) := by
  refine .here [("@class", .string "apex.jorje.semantic.compiler.parser.ParserOutput")] _ (.drop ?_ .nil)
  simp [remarkEntry, Json.ids, Json.idsIn, Json.idsBelow, Json.ofNat, List.lookup, Builder.idText]

theorem unused_remark : ∀ id ∈ (classOutput []).ids, id ∉ ["1"] := by
  simp [classOutput, Json.ids, Json.idsIn, Json.idsBelow, Json.ofNat, List.lookup, Builder.idText]

theorem unignored_remark : ∀ c ∈ remark.shelf.held, c.toComment.isIgnore = false := by decide

theorem furnished_remark : Site.Furnished ⟨remark.tree, remark.extents, remark.source⟩ := by
  have outside (id : NodeId) : remark.tree.kind? (id + 4) = none := by
    simp [Tree.kind?, Tree.node, Node.kind?, remark]
  refine ⟨fun {id} body listed => ?_, fun {id} body listed => ?_, fun {id block} handler there => ?_⟩
  · obtain rfl : id = 2 := by
      rcases id with _ | _ | _ | _ | id
      · exact absurd body (by decide)
      · exact absurd body (by decide)
      · rfl
      · exact absurd rfl listed
      · exact absurd body (by simp [Tree.isAmong, outside])
    exact ⟨3, by simp [Tree.members, Tree.items, Tree.field?, Node.field?, Tree.node, remark, Tree.isKind, Tree.kind?,
      Node.kind?, Class.kind?, Value.array?, List.lookup], by decide, by decide⟩
  · rcases id with _ | _ | _ | _ | id
    · exact absurd body (by decide)
    · exact absurd body (by decide)
    · decide
    · exact absurd rfl listed
    · exact absurd body (by simp [Tree.isAmong, outside])
  · rcases id with _ | _ | _ | _ | id
    iterate 4 exact absurd handler (by decide)
    exact absurd handler (by simp [Tree.isAmong, outside])

theorem printed_enumeration {p : Printer} {id : NodeId} {doc : Draft} (printed : p.enumDeclaration id = .ok doc) :
    doc.isEmpty = false := by
  simp only [Printer.enumDeclaration, bind_eq_ok, pure_eq_ok] at printed
  obtain ⟨_, -, _, -, _, -, rfl⟩ := printed
  rfl

theorem plain_remark : remark.Plain := by
  refine ⟨fun {id} leaf => ?_, Manuscript.heard_of_loud (fun edge => ?_) ?_⟩
  · match id with
    | 1 => rfl
    | 0 | 2 | 3 => exact absurd leaf (by decide)
    | id + 4 => exact absurd leaf (by simp [Tree.isAmong, Tree.kind?, Tree.node, Node.kind?, remark])
  · simp only [Occurrences.get, remark, List.lookup]
    split
    · rfl
    · split <;> rfl
  · intro p id nodeClass doc noted known printed
    obtain rfl : id = 3 := by
      by_contra other
      have differs : (id == 3) = false := by simpa using other
      simp [Shelf.of, remark, List.lookup, differs] at noted
    obtain rfl : Class.known .enumDecl = nodeClass := Option.some.inj known
    exact printed_enumeration printed

theorem plain_unremarked : unremarked.Plain := by
  refine ⟨fun {id} leaf => ?_, Manuscript.heard_of_loud (fun edge => ?_) ?_⟩
  · match id with
    | 0 | 1 | 2 => exact absurd leaf (by decide)
    | id + 3 => exact absurd leaf (by simp [Tree.isAmong, Tree.kind?, Tree.node, Node.kind?, unremarked])
  · simp only [Occurrences.get, unremarked, List.lookup]
    split <;> rfl
  · intro p id nodeClass doc noted
    exact absurd rfl noted

unseal Text.skip in
/-- The class has the same code with the comment and without. -/
theorem toDoc_code_remark : ∃ draft draft', toDoc remarkText remark.source {} = .ok draft ∧
    toDoc unremarkedText remark.source {} = .ok draft' ∧ draft.code = draft'.code ∧
      draft.code = ["class", "A", "\x7b", "enum", "B", "\x7b", "\x7d", "\x7d"] := by
  obtain ⟨draft, printed, code⟩ : ∃ draft, remark.doc = .ok draft ∧
      draft.code = ["class", "A", "\x7b", "enum", "B", "\x7b", "\x7d", "\x7d"] := ⟨_, rfl, by rfl⟩
  obtain ⟨draft', printed'⟩ : ∃ draft, unremarked.doc = .ok draft := ⟨_, rfl⟩
  have ok : toDoc remarkText remark.source {} = .ok draft := remarkReading.toDoc_eq.trans printed
  have ok' : toDoc unremarkedText remark.source {} = .ok draft' := unremarkedReading.toDoc_eq.trans printed'
  have same := toDoc_code remarkReading unremarkedReading lacks_remark unused_remark rfl unignored_remark
    furnished_remark plain_remark plain_unremarked ok ok'
  exact ⟨draft, draft', ok, ok', same, code⟩

end
end ApexLayout
