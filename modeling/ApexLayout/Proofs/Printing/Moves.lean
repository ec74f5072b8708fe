import ApexLayout.Format
import ApexLayout.Proofs.Outcome

/-!
What the printer does at the fields of a node, without comments. Each move is an equation: the node
in a field is printed at the edge of that field, and so are the nodes of an array, one after the
other.
-/
namespace ApexLayout

variable {name : String} {id : NodeId}

theorem Node.slot?_of_field? {node : Node} {value : Value} (held : node.field? name = some value) :
    ∃ slot, node.slot? name = some slot ∧ node.fields[slot]? = some (name, value) := by
  obtain ⟨_, fields, _, _⟩ := node
  simp only [Node.slot?, Node.field?] at *
  induction fields with
  | nil => simp at held
  | cons first fields ih =>
    obtain ⟨key, other⟩ := first
    by_cases same : key = name
    · subst same
      obtain rfl : other = value := by simpa using held
      exact ⟨0, by simp [List.findIdx?_cons], rfl⟩
    · have differs : (name == key) = false := by simpa using Ne.symm same
      obtain ⟨slot, found, there⟩ := ih (by simpa [List.lookup_cons, differs] using held)
      exact ⟨slot + 1, by simp [List.findIdx?_cons, same, found], there⟩

theorem Node.slot?_eq_none {node : Node} (absent : node.field? name = none) : node.slot? name = none := by
  simp only [Node.field?, List.lookup_eq_none_iff] at absent
  simp only [Node.slot?, List.findIdx?_eq_none_iff]
  intro field member
  have other := absent field member
  rw [bne_iff_ne] at other
  simpa using Ne.symm other

theorem Tree.field?_of_child? {t : Tree} {child : NodeId} (held : t.child? id name = some child) :
    t.field? id name = some (.node child) := by
  simp only [Tree.child?, Option.bind_eq_some_iff] at held
  obtain ⟨value, there, is_node⟩ := held
  cases value with
  | node => simpa [Value.node?, there] using is_node
  | _ => cases is_node

def Manuscript.Bare (m : Manuscript) : Prop := ∀ id, m.shelf.of id = []

namespace Printer

-- What only arranges its parts is opened, so that a fact about documents is proved for the parts alone.
attribute [simp] bracketed commaLines quoted operandLine plainCall creation inside body unlessEmpty breakOrSpace
  modifierList modifier typeList bodyOrSemicolon clauseLine

variable {p : Printer} {id child : NodeId} {name : String} {path : Path} {value : Value}

theorem parent?_of_path {edge : Option Edge} (at_node : p.path = ⟨id, edge⟩ :: path) :
    p.parent? = path.head?.map Frame.id := by
  rw [parent?, at_node, List.head?_eq_getElem?]
  rfl

theorem destination?_of_field? (held : p.tree.field? p.current name = some value) :
    ∃ slot : Nat, p.destination? [name] = some ⟨[], p.current, slot.toUInt16, value⟩ ∧
      (p.tree.node p.current).fields[slot]? = some (name, value) := by
  obtain ⟨slot, found, there⟩ := Node.slot?_of_field? held
  exact ⟨slot, by simp [destination?, follow?, found, there], there⟩

theorem destination?_eq_none (absent : p.tree.field? p.current name = none) : p.destination? [name] = none := by
  simp [destination?, follow?, Node.slot?_eq_none absent]

theorem print_field (held : p.tree.field? p.current name = some value) :
    ∃ slot : Nat, p.print [name] = p.printValue p.path ⟨p.current, slot.toUInt16, none⟩ value ∧
      (p.tree.node p.current).fields[slot]? = some (name, value) := by
  obtain ⟨slot, there, place⟩ := destination?_of_field? held
  refine ⟨slot, ?_, place⟩
  rw [print, there]
  rfl

theorem print_child (held : p.tree.child? p.current name = some child) :
    ∃ slot : Nat, p.print [name] = p.printAt p.path child (some ⟨p.current, slot.toUInt16, none⟩) ∧
      (p.tree.node p.current).fields[slot]? = some (name, .node child) :=
  print_field (Tree.field?_of_child? held)

theorem printEach_items (p : Printer) (name : String) :
    ∃ slot : Nat, p.printEach [name] = p.printItems p.path p.current slot.toUInt16 0 (p.tree.items p.current name) ∧
      (p.tree.items p.current name = [] ∨
        (p.tree.node p.current).fields[slot]? = some (name, .array (p.tree.items p.current name))) := by
  cases there : p.tree.field? p.current name with
  | none =>
    have empty : p.tree.items p.current name = [] := by simp [Tree.items, there]
    refine ⟨0, ?_, .inl empty⟩
    rw [printEach, destination?_eq_none there, empty]
    rfl
  | some value =>
    obtain ⟨slot, leads, place⟩ := destination?_of_field? there
    refine ⟨slot, ?_⟩
    rw [printEach, leads]
    cases value with
    | array items =>
      have same : p.tree.items p.current name = items := by simp [Tree.items, there, Value.array?]
      rw [same]
      exact ⟨rfl, .inr place⟩
    | _ =>
      have empty : p.tree.items p.current name = [] := by simp [Tree.items, there, Value.array?]
      rw [empty]
      exact ⟨rfl, .inl rfl⟩

theorem printEach_nodes {ids : List NodeId} (held : p.tree.items p.current name = ids.map .node) :
    ∃ slot : Nat, p.printEach [name] = p.printItems p.path p.current slot.toUInt16 0 (ids.map .node) ∧
      (ids = [] ∨ (p.tree.node p.current).fields[slot]? = some (name, .array (ids.map .node))) := by
  obtain ⟨slot, printed, place⟩ := p.printEach_items name
  rw [held] at printed place
  exact ⟨slot, printed, place.imp_left List.map_eq_nil_iff.mp⟩

theorem printItems_length {owner : NodeId} {slot : UInt16} {index : Nat} {items : List Value} {docs : List Draft}
    (ok : p.printItems path owner slot index items = .ok docs) : docs.length = items.length := by
  induction items generalizing index docs with
  | nil =>
    cases ok
    rfl
  | cons item items ih =>
    simp only [printItems, bind_eq_ok, pure_eq_ok] at ok
    obtain ⟨doc, -, rest, later, rfl⟩ := ok
    simp [ih later]

theorem extend_fresh {tree : Tree} {frame : Frame} (fresh : ∀ other ∈ path, other.id ≠ frame.id) :
    extend tree path [frame] = .ok (frame :: path) := by
  have absent : path.any (·.id == frame.id) = false := by simpa using fresh
  rw [extend, absent]
  rfl

/-- What a field leads to in a node that is not on the path is printed behind that node. -/
theorem print_through {next : String} (held : p.tree.child? p.current name = some child)
    (fresh : ∀ frame ∈ p.path, frame.id ≠ child) (inner : p.tree.field? child next = some value) :
    ∃ (slot : UInt16) (place : Nat), p.print [name, next] =
        p.printValue (⟨child, some ⟨p.current, slot, none⟩⟩ :: p.path) ⟨child, place.toUInt16, none⟩ value ∧
      (p.tree.node child).fields[place]? = some (next, value) := by
  obtain ⟨slot, found, there⟩ := Node.slot?_of_field? (Tree.field?_of_child? held)
  obtain ⟨place, inner_found, inner_there⟩ := Node.slot?_of_field? inner
  have leads : p.destination? [name, next] =
      some ⟨[⟨child, some ⟨p.current, slot.toUInt16, none⟩⟩], child, place.toUInt16, value⟩ := by
    simp [destination?, follow?, found, there, inner_found, inner_there, Value.node?]
  have extended : extend p.tree p.path [⟨child, some ⟨p.current, slot.toUInt16, none⟩⟩] = _ := extend_fresh fresh
  refine ⟨slot.toUInt16, place, ?_, inner_there⟩
  simp only [print, leads, extended]
  rfl

theorem print_nowhere {next : String} (absent : (p.tree.child? p.current name).bind (p.tree.field? · next) = none) :
    p.print [name, next] = .ok Doc.empty := by
  have nowhere : p.destination? [name, next] = none := by
    cases there : p.tree.field? p.current name with
    | none => simp [destination?, follow?, Node.slot?_eq_none there]
    | some value =>
      obtain ⟨slot, found, at_slot⟩ := Node.slot?_of_field? there
      cases inner : value.node? with
      | none => simp [destination?, follow?, found, at_slot, inner]
      | some child =>
        have missing : p.tree.field? child next = none := by simpa [Tree.child?, there, inner] using absent
        simp [destination?, follow?, found, at_slot, inner, Node.slot?_eq_none missing]
  rw [print, nowhere]

theorem print_optional_none (absent : p.tree.optional? p.current name = none)
    (fresh : ∀ child, p.tree.child? p.current name = some child → ∀ frame ∈ p.path, frame.id ≠ child) :
    p.print [name, "value"] = .ok Doc.empty := by
  cases held : p.tree.child? p.current name with
  | none => exact print_nowhere (by rw [held]; rfl)
  | some wrapper =>
    have unclassed : p.tree.hasClass wrapper = false := by
      rw [Bool.eq_false_iff]
      intro classed
      simp [Tree.optional?, held, classed, Tree.field?_of_child? held] at absent
    cases inner : p.tree.field? wrapper "value" with
    | none => exact print_nowhere (by rw [held, Option.bind_some, inner])
    | some value =>
      have null : value.isNull = true := by simpa [Tree.optional?, held, unclassed, inner] using absent
      obtain ⟨slot, place, printed, -⟩ := print_through held (fresh wrapper held) inner
      rw [printed]
      cases value with
      | null => rfl
      | _ => cases null

/-- A document with the blank line that the occurrence keeps after it. -/
def withBlank (p : Printer) (doc : Draft) : Draft := if p.flags.blankAfter then .concat [doc, Doc.hardLine] else doc

/-- The document of a node with its blank line, unless a comment is printed behind it, and with its comments. -/
def dressed (p : Printer) (id : NodeId) (own : Draft) : Draft :=
  let doc := if p.manuscript.hasTrailingComment id then own else p.withBlank own
  match p.commentDocs? id with
  | some (leading, trailing) => Doc.parts [leading, [doc], trailing]
  | none => doc

/-- An occurrence that is not taken from the source is the document of its class, with what belongs around it. -/
theorem occurrence_eq {nodeClass : Class} (known : (p.tree.node id).nodeClass = some nodeClass) {edge : Option Edge}
    (laid : (p.tree.origin id == edge && p.manuscript.shelf.isIgnored id) = false) :
    p.occurrence id edge = p.dressed id <$> p.ofClass id nodeClass := by
  simp only [occurrence, known, laid, Bool.false_eq_true, ↓reduceIte]
  cases p.ofClass id nodeClass with
  | error e => rfl
  | ok own =>
    have blank : (if p.flags.blankAfter && !p.manuscript.hasTrailingComment id then .concat [own, Doc.hardLine] else own) =
        if p.manuscript.hasTrailingComment id then own else p.withBlank own := by
      cases p.manuscript.hasTrailingComment id <;> simp [withBlank]
    simp only [bind, Except.bind, pure, Except.pure, blank, Functor.map, Except.map, dressed]
    cases p.commentDocs? id <;> rfl

theorem nodeClass_of_kind? {kind : Kind} (known : p.tree.kind? id = some kind) :
    (p.tree.node id).nodeClass = some (.known kind) := by
  simp only [Tree.kind?, Node.kind?, Option.bind_eq_some_iff] at known
  obtain ⟨nodeClass, there, is_known⟩ := known
  cases nodeClass with
  | known other => simpa [Class.kind?, there] using is_known
  | other name => cases is_known

theorem dressed_bare (bare : p.manuscript.shelf.of id = []) : p.dressed id = p.withBlank := by
  have no_comment : p.commentDocs? id = none := by
    unfold commentDocs?
    split <;> simp [Shelf.hasAny, bare]
  have none_behind : p.manuscript.hasTrailingComment id = false := by
    simp [Manuscript.hasTrailingComment, Manuscript.trailingComments, bare]
  funext own
  simp [dressed, no_comment, none_behind]

theorem occurrence_bare {edge : Option Edge} (bare : p.manuscript.Bare) {kind : Kind}
    (known : p.tree.kind? id = some kind) :
    p.occurrence id edge = p.withBlank <$> p.ofKind id kind := by
  rw [← dressed_bare (bare id), occurrence_eq (nodeClass_of_kind? known)]
  · rfl
  · simp [Shelf.isIgnored, Shelf.leading, bare id]

end Printer

def Manuscript.printerAt (m : Manuscript) (fuel : Nat) (path : Path) (id : NodeId) (edge : Option Edge) : Printer :=
  ⟨m, ⟨id, edge⟩ :: path, m.printAt fuel⟩

theorem Manuscript.printAt_zero_ne {m : Manuscript} {path : Path} {edge : Option Edge} {doc : Draft} :
    m.printAt 0 path id edge ≠ .ok doc := by
  simp [printAt]

theorem Manuscript.printAt_eq_ok {m : Manuscript} {bound : Nat} {path : Path} {edge : Option Edge}
    {doc : Draft} (ok : m.printAt bound path id edge = .ok doc) :
    ∃ fuel, bound = fuel + 1 ∧ Printer.occurrence ⟨m, ⟨id, edge⟩ :: path, m.printAt fuel⟩ id edge = .ok doc := by
  cases bound with
  | zero => exact absurd ok printAt_zero_ne
  | succ fuel =>
    simp only [Manuscript.printAt, bind_eq_ok, Printer.extend] at ok
    obtain ⟨longer, extended, printed⟩ := ok
    split at extended
    · cases extended
    · cases extended
      exact ⟨fuel, rfl, printed⟩

theorem Manuscript.printAt_succ {m : Manuscript} {fuel : Nat} {path : Path} {edge : Option Edge}
    (fresh : ∀ frame ∈ path, frame.id ≠ id) :
    m.printAt (fuel + 1) path id edge = Printer.occurrence ⟨m, ⟨id, edge⟩ :: path, m.printAt fuel⟩ id edge := by
  have extended : Printer.extend m.tree path [⟨id, edge⟩] = .ok (⟨id, edge⟩ :: path) := Printer.extend_fresh fresh
  simp only [printAt, extended]
  rfl

/-! ### Manuscripts of given trees, put together from the extents, the occurrences and the shelf -/

theorem Extents.ofTree_eq_ok {tree : Tree} {source : String} {comments : List Span} {e : Extents}
    (spans : Extents.spans <$> ofTree tree source comments = .ok e.spans) : ofTree tree source comments = .ok e := by
  obtain ⟨⟨_⟩, done, rfl⟩ := map_eq_ok.mp spans
  exact done

theorem Manuscript.ofTree_eq_ok {m : Manuscript} {output : ParserOutput} {shelf : Shelf}
    (ascii : (Text.UnitMap.ofText m.source).isIdentity)
    (extents : Extents.ofTree m.tree m.source (output.comments.filterMap fun id => (m.tree.node id).location) = .ok m.extents)
    (occurrences : Occurrences.ofTree m.tree m.extents (Text.Lines.ofText m.source) = m.occurrences)
    (bound : Site.bind ⟨m.tree, m.extents, m.source⟩ output.comments = .ok shelf)
    (deferred : shelf.deferBlanks m.tree m.occurrences = m.shelf) (unit : output.unit = m.unit) :
    ofTree m.tree output m.source m.settings = .ok m := by
  have same : m.tree.inBytes m.source = m.tree := by simp [Tree.inBytes, ascii]
  unfold ofTree
  simp only [same]
  refine bind_eq_ok.mpr ⟨_, extents, bind_eq_ok.mpr ⟨_, bound, ?_⟩⟩
  rw [occurrences, deferred, unit]
  rfl

/-! ### Branches and handlers

Whatever the flags say, their documents come one after the other, with a line end or a space before some of them. -/

namespace Printer

inductive Spaced : List Draft → List Draft → Prop where
  | nil : Spaced [] []
  | next {doc : Draft} {docs chain : List Draft} (rest : Spaced docs chain) : Spaced (doc :: docs) (doc :: chain)
  | apart (breaks : Bool) {doc : Draft} {docs chain : List Draft} (rest : Spaced docs chain) :
    Spaced (doc :: docs) (breakOrSpace breaks :: doc :: chain)

variable {p : Printer} {nodes : List NodeId} {isBlock trailing : List Bool} {tryTrailing : Bool} {index : Nat}
  {docs chain : List Draft}

theorem spaced_of_branches (ok : branches p nodes isBlock trailing index docs = .ok chain) : Spaced docs chain := by
  induction docs generalizing index chain with
  | nil =>
    cases index <;> cases ok <;> exact .nil
  | cons doc docs ih =>
    cases index with
    | zero =>
      simp only [branches, bind_eq_ok, pure_eq_ok] at ok
      obtain ⟨rest, later, rfl⟩ := ok
      exact .next (ih later)
    | succ before =>
      simp only [branches, bind_eq_ok, pure_eq_ok] at ok
      obtain ⟨breaks, -, rest, later, rfl⟩ := ok
      exact .apart breaks (ih later)

theorem spaced_of_handlers (ok : handlers p nodes trailing tryTrailing index docs = .ok chain) : Spaced docs chain := by
  induction docs generalizing index chain with
  | nil =>
    cases ok
    exact .nil
  | cons doc docs ih =>
    simp only [handlers, bind_eq_ok, pure_eq_ok] at ok
    obtain ⟨breaks, -, rest, later, rfl⟩ := ok
    exact .apart breaks (ih later)

end Printer
end ApexLayout
