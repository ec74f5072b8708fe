import ApexLayout.Proofs.Printing.Echo
import ApexLayout.Proofs.Twin.Moves

/-!
Printing without the blank line after the occurrence that defines a node. Below the node the printer reads the same of
both manuscripts, since the node is never entered again.
-/
namespace ApexLayout

/-- A manuscript is another one without the blank line after an occurrence, by which a node is defined. -/
structure Manuscript.Lacks (edge : Edge) (node : NodeId) (m' m : Manuscript) : Prop where
  tree : m'.tree = m.tree
  extents : m'.extents = m.extents
  source : m'.source = m.source
  occurrences : m'.occurrences = m.occurrences.clearBlank edge
  others : ∀ id, id ≠ node → m'.shelf.of id = m.shelf.of id
  owes : m.shelf.of node = Shelf.owe (m'.shelf.of node)

namespace Manuscript

def printsBehind (m : Manuscript) (id : NodeId) : Anchor → Bool
  | .trailing => true
  | .dangling => !m.tree.isAmong id bodyKinds
  | .leading => false

theorem trailingComments_eq (m : Manuscript) (id : NodeId) :
    m.trailingComments id = (m.shelf.of id).filter (m.printsBehind id ·.anchor) := rfl

namespace Lacks

variable {edge : Edge} {node : NodeId} {m m' : Manuscript} (lacks : m'.Lacks edge node m)
include lacks

section
variable (id : NodeId)

theorem printsBehind : m'.printsBehind id = m.printsBehind id := by
  funext anchor
  simp only [Manuscript.printsBehind, lacks.tree]

theorem of_eq : m.shelf.of id = m'.shelf.of id ∨ m.shelf.of id = Shelf.owe (m'.shelf.of id) := by
  by_cases here : id = node
  · exact .inr (here ▸ lacks.owes)
  · exact .inl (lacks.others id here).symm

theorem leading : m'.shelf.leading id = m.shelf.leading id :=
  (Shelf.filter_of_owe (lacks.of_eq id) (· == .leading) rfl).symm

theorem dangling : m'.shelf.dangling id = m.shelf.dangling id :=
  (Shelf.filter_of_owe (lacks.of_eq id) (· == .dangling) rfl).symm

theorem isIgnored : m'.shelf.isIgnored id = m.shelf.isIgnored id :=
  (Shelf.isIgnored_of_owe (lacks.of_eq id)).symm

theorem plainly_of : (m'.shelf.of id).map Shelf.plainly = (m.shelf.of id).map Shelf.plainly := by
  rcases lacks.of_eq id with same | owed
  · rw [same]
  · rw [owed, Shelf.map_plainly_owe]

theorem hasAny : m'.shelf.hasAny id = m.shelf.hasAny id := by
  have same := congrArg List.isEmpty (lacks.plainly_of id)
  simpa [Shelf.hasAny] using same

end

/-- The comments printed behind the node owe its blank line. -/
theorem trailingComments : m.trailingComments node = Shelf.owe (m'.trailingComments node) := by
  rw [trailingComments_eq, trailingComments_eq, lacks.owes, lacks.printsBehind]
  exact Shelf.filter_owe _ _

theorem trailingComments_of_ne {id : NodeId} (other : id ≠ node) : m'.trailingComments id = m.trailingComments id := by
  rw [trailingComments_eq, trailingComments_eq, lacks.others id other, lacks.printsBehind]

theorem plainly_trailingComments (id : NodeId) :
    (m'.trailingComments id).map Shelf.plainly = (m.trailingComments id).map Shelf.plainly := by
  by_cases here : id = node
  · rw [here, lacks.trailingComments, Shelf.map_plainly_owe]
  · rw [lacks.trailingComments_of_ne here]

omit lacks in
theorem any_of_plainly {list other : List BoundComment} (same : list.map Shelf.plainly = other.map Shelf.plainly)
    (f : Placement → Bool) : list.any (f ·.placement) = other.any (f ·.placement) := by
  have placements := Shelf.map_eq_of_plainly (·.placement) (fun _ => rfl) same
  have seen := congrArg (List.any · f) placements
  simpa only [List.any_map, Function.comp_def] using seen

theorem echoes : m'.Echoes m where
  tree := lacks.tree
  extents := lacks.extents
  source := lacks.source
  multiline := by
    rw [lacks.occurrences]
    rfl
  hasLeadingComment := by
    funext id
    simp only [hasLeadingComment, lacks.leading]
  hasOwnLineLeadingComment := by
    funext id
    simp only [hasOwnLineLeadingComment, lacks.leading]
  hasTrailingComment := by
    funext id
    have same := congrArg List.isEmpty (lacks.plainly_trailingComments id)
    simpa [hasTrailingComment] using same
  hasEndOfLineTrailingComment := by
    funext id
    exact any_of_plainly (lacks.plainly_trailingComments id) (· == .endOfLine)
  hasOwnLineComment := by
    funext id
    exact any_of_plainly (lacks.plainly_of id) (· == .ownLine)
  danglingDocs := by
    funext id
    simp only [danglingDocs, lacks.dangling, lacks.source]

theorem get (e : Edge) : m'.occurrences.get e =
    if e = edge then { m.occurrences.get e with blankAfter := false } else m.occurrences.get e := by
  rw [lacks.occurrences, Occurrences.get_clearBlank]

end Lacks
end Manuscript

namespace Printer

theorem fresh_of_extend {tree : Tree} {path longer : Path} {frames : List Frame}
    (ok : extend tree path frames = .ok longer) :
    ∀ frame ∈ frames, frame.id ∉ path.map Frame.id := by
  induction frames generalizing path with
  | nil => simp
  | cons first frames ih =>
    rw [extend] at ok
    split at ok
    · cases ok
    · next absent =>
      intro frame member
      rcases List.mem_cons.1 member with rfl | later
      · simpa using absent
      · have further := ih ok frame later
        simp only [List.map_cons, List.mem_cons, not_or] at further
        exact further.2

theorem owner_of_follow? {tree : Tree} {names : List String} {owner : NodeId} {frames : List Frame} {d : Destination}
    {path : Path}
    (leads : follow? tree owner frames names = some d)
    (here : ((frames.reverse ++ path).head?.map Frame.id).getD tree.root = owner) :
    ((d.frames.reverse ++ path).head?.map Frame.id).getD tree.root = d.owner := by
  induction names generalizing owner frames with
  | nil => cases leads
  | cons name names ih =>
    simp only [follow?, Option.bind_eq_bind, Option.bind_eq_some_iff] at leads
    obtain ⟨slot, -, field, -, leads⟩ := leads
    split at leads
    · cases leads
      exact here
    · obtain ⟨child, -, leads⟩ := Option.bind_eq_some_iff.mp leads
      exact ih leads (by simp)

/-- What a printer prints at the end of its way is reached from the last node on its path. -/
theorem owner_of_destination? {p : Printer} {names : List String} {d : Destination} {path : Path}
    (there : p.destination? names = some d) (ok : extend p.tree p.path d.frames = .ok path) :
    d.owner = current { p with path } := by
  rw [extend_eq ok]
  exact (owner_of_follow? there rfl).symm

/-- A path into a node, which is reached by an edge from a node further out on the path. -/
def Within (edge : Edge) (node : NodeId) (path : Path) : Prop :=
  ∃ inner outer : Path, path = inner ++ outer ∧ node ∈ inner.map Frame.id ∧ edge.parent ∉ inner.map Frame.id ∧
    edge.parent ∈ outer.map Frame.id

namespace Within

variable {edge : Edge} {node : NodeId} {path : Path}

theorem mem (within : Within edge node path) : node ∈ path.map Frame.id := by
  obtain ⟨inner, outer, rfl, inside, -⟩ := within
  rw [List.map_append]
  exact List.mem_append_left _ inside

theorem head_ne (within : Within edge node path) {m : Manuscript} {print : Path → NodeId → Option Edge → Outcome Draft} :
    current ⟨m, path, print⟩ ≠ edge.parent := by
  obtain ⟨_ | ⟨frame, inner⟩, outer, rfl, inside, apart, -⟩ := within
  · cases inside
  · intro same
    exact apart (by simp [← same, current])

theorem extend {longer : Path} {frames : List Frame} {tree : Tree} (within : Within edge node path)
    (ok : extend tree path frames = .ok longer) : Within edge node longer := by
  have fresh := fresh_of_extend ok
  obtain ⟨inner, outer, rfl, inside, apart, above⟩ := within
  refine ⟨frames.reverse ++ inner, outer, by rw [extend_eq ok, List.append_assoc], ?_, fun met => ?_, above⟩
  · rw [List.map_append]
    exact List.mem_append_right _ inside
  · rw [List.map_append, List.mem_append] at met
    obtain ⟨frame, member, same⟩ := List.mem_map.1 (met.resolve_right apart)
    refine fresh frame (List.mem_reverse.1 member) ?_
    rw [same, List.map_append]
    exact List.mem_append_right _ above

theorem tail {frame : Frame} (within : Within edge node (frame :: path))
    (other : frame.id ≠ node) : Within edge node path := by
  obtain ⟨_ | ⟨first, inner⟩, outer, same, inside, apart, above⟩ := within
  · cases inside
  · obtain ⟨rfl, rfl⟩ := List.cons.inj same
    refine ⟨inner, outer, rfl, ?_, fun met => apart (List.mem_cons_of_mem _ met), above⟩
    exact (List.mem_cons.1 inside).resolve_left (Ne.symm other)

end Within

/-- A printer below a node of which the other one has a blank line more. -/
structure Lacks (edge : Edge) (node : NodeId) (q p : Printer) : Prop where
  manuscript : q.manuscript.Lacks edge node p.manuscript
  path : q.path = p.path
  within : Within edge node p.path
  printAt : ∀ (path : Path) (id : NodeId) (e : Edge), Within edge node path → e.parent ≠ edge.parent →
    q.printAt path id (some e) = p.printAt path id (some e)

namespace Lacks

variable {edge : Edge} {node : NodeId} {p q : Printer} (lacks : q.Lacks edge node p) {path : Path}
include lacks

theorem tree : q.tree = p.tree := lacks.manuscript.tree

theorem current : q.current = p.current := by
  simp only [Printer.current, lacks.path, lacks.tree]

theorem destination? (names : List String) : q.destination? names = p.destination? names := by
  simp only [Printer.destination?, lacks.tree, lacks.current]

theorem moved (within : Within edge node path) : Lacks edge node { q with path } { p with path } :=
  ⟨lacks.manuscript, rfl, within, lacks.printAt⟩

theorem printValue (within : Within edge node path) {e : Edge} (apart : e.parent ≠ edge.parent) (value : Value) :
    q.printValue path e value = p.printValue path e value := by
  cases value with
  | node id => exact lacks.printAt path id e within apart
  | _ => rfl

theorem print : q.print = p.print := by
  funext names
  simp only [Printer.print, lacks.destination?, lacks.tree, lacks.path]
  split
  · rfl
  · next d there =>
    refine bind_congr_ok fun path ok => lacks.printValue (lacks.within.extend ok) ?_ _
    exact owner_of_destination? there ok ▸ (lacks.within.extend ok).head_ne

theorem printItems (within : Within edge node path) {owner : NodeId} (apart : owner ≠ edge.parent) {slot : UInt16}
    {index : Nat}
    (items : List Value) : q.printItems path owner slot index items = p.printItems path owner slot index items := by
  induction items generalizing index with
  | nil => rfl
  | cons item items ih =>
    have first : q.printValue path ⟨owner, slot, some index⟩ item = p.printValue path ⟨owner, slot, some index⟩ item :=
      lacks.printValue within apart item
    simp only [Printer.printItems, first, ih]

theorem printEach : q.printEach = p.printEach := by
  funext names
  simp only [Printer.printEach, lacks.destination?, lacks.tree, lacks.path]
  split
  · next frames owner slot items there =>
    refine bind_congr_ok fun path ok => lacks.printItems (lacks.within.extend ok) (fun same => ?_) items
    exact (lacks.within.extend ok).head_ne ((owner_of_destination? there ok).symm.trans same)
  · rfl

theorem commentDocs? {id : NodeId} (other : id ≠ node) : q.commentDocs? id = p.commentDocs? id := by
  simp only [Printer.commentDocs?, lacks.path, lacks.tree, lacks.manuscript.hasAny, lacks.manuscript.source,
    lacks.manuscript.leading, lacks.manuscript.trailingComments_of_ne other]

theorem forInitWithComments {longer : Path} (within : Within edge node path) (frames : List Frame) {frame : Frame}
    (ok : extend p.tree path (frames ++ [frame]) = .ok longer) :
    Printer.forInitWithComments { q with path := longer } = Printer.forInitWithComments { p with path := longer } := by
  have moved := lacks.moved (within.extend ok)
  have other : Printer.current { p with path := longer } ≠ node := by
    have fresh := fresh_of_extend ok frame (by simp)
    obtain rfl := extend_eq ok
    intro same
    have here : frame.id = node := by simpa [Printer.current] using same
    exact fresh (here ▸ within.mem)
  simp only [Printer.forInitWithComments, forInitParts, dottedNames, moved.print, moved.printEach, moved.current,
    moved.commentDocs? other]

theorem variableAt (names : List String) :
    q.withNode names Printer.forInitWithComments = p.withNode names Printer.forInitWithComments := by
  simp only [withNode, lacks.destination?, lacks.tree, lacks.path]
  split
  · exact bind_congr_ok fun path ok => congrArg _ (lacks.forInitWithComments lacks.within _ ok)
  · rfl

theorem withItems (within : Within edge node path) (owner : NodeId) (slot : UInt16) (index : Nat) (items : List Value) :
    q.withItems path Printer.forInitWithComments owner slot index items =
      p.withItems path Printer.forInitWithComments owner slot index items := by
  induction items generalizing index with
  | nil => rfl
  | cons item items ih =>
    cases item with
    | node id =>
      simp only [Printer.withItems, lacks.tree, ih]
      refine bind_congr_ok fun inner ok => ?_
      rw [lacks.forInitWithComments within [] ok]
    | _ => exact ih (index + 1)

theorem variablesAt (names : List String) :
    q.withNodes names Printer.forInitWithComments = p.withNodes names Printer.forInitWithComments := by
  simp only [withNodes, lacks.destination?, lacks.tree, lacks.path]
  split
  · exact bind_congr_ok fun path ok => lacks.withItems (lacks.within.extend ok) _ _ _ _
  · rfl

theorem flags_eq : q.flags = p.flags ∨ q.flags = { p.flags with blankAfter := false } := by
  simp only [flags, lacks.path]
  cases p.path.head?.bind Frame.edge with
  | none => exact .inl rfl
  | some reached =>
    simp only [lacks.manuscript.get]
    split
    · exact .inr rfl
    · exact .inl rfl

/-- Below the node, the printer reads and prints like the other one. -/
theorem echoes : q.Echoes p where
  manuscript := lacks.manuscript.echoes
  path := lacks.path
  branch := by rcases lacks.flags_eq with same | cleared <;> simp [*]
  inParentheses := by rcases lacks.flags_eq with same | cleared <;> simp [*]
  print := lacks.print
  printEach := lacks.printEach
  variableAt := lacks.variableAt
  variablesAt := lacks.variablesAt

section
variable {id : NodeId} {path : Path} {at_edge : Option Edge} (here : p.path = ⟨id, at_edge⟩ :: path)
include here

theorem outward (other : id ≠ node) : q.outward.print = p.outward.print := by
  have within : Within edge node (⟨id, at_edge⟩ :: path) := here ▸ lacks.within
  have moved : Lacks edge node q.outward p.outward := by
    refine ⟨lacks.manuscript, ?_, ?_, lacks.printAt⟩
    · simp only [Printer.outward, lacks.path]
    · simpa only [Printer.outward, here, List.tail_cons] using within.tail other
  exact moved.print

/-- What is printed of a node itself is the same, if the node is another one or may keep a blank line. -/
theorem ofClass (nodeClass : Class) (known : (p.tree.node id).nodeClass = some nodeClass)
    (aside : id ≠ node ∨ p.tree.isAmong id Occurrences.separable) : q.ofClass id nodeClass = p.ofClass id nodeClass := by
  cases nodeClass with
  | other name => rfl
  | known kind =>
    have other (apart : kind ∉ Occurrences.separable) : id ≠ node := by
      refine aside.resolve_right fun among => apart ?_
      simpa [Tree.isAmong, Tree.kind?, Node.kind?, Class.kind?, known] using among
    refine lacks.echoes.ofKind kind (fun mark => ?_) fun access => ?_
    · exact lacks.manuscript.trailingComments_of_ne (other (mark ▸ by decide))
    · refine lacks.outward here (other ?_)
      rcases access with rfl | rfl <;> decide

theorem occurrence (other : id ≠ node) (apart : at_edge ≠ some edge) : q.occurrence id at_edge = p.occurrence id at_edge := by
  have flags : q.flags = p.flags := by
    simp only [Printer.flags, lacks.path, here, List.head?_cons, Option.bind_some]
    cases at_edge with
    | none => rfl
    | some reached =>
      have elsewhere : reached ≠ edge := fun same => apart (congrArg some same)
      simp only [lacks.manuscript.get, if_neg elsewhere]
  unfold Printer.occurrence
  rw [lacks.tree]
  cases known : (p.tree.node id).nodeClass with
  | none => rfl
  | some nodeClass =>
    simp only [lacks.manuscript.isIgnored, lacks.manuscript.echoes.sourceOf, lacks.ofClass here nodeClass known (.inl other),
      flags, lacks.manuscript.echoes.hasTrailingComment, lacks.commentDocs? other]

end
end Lacks
end Printer

namespace Manuscript.Lacks

variable {edge : Edge} {node : NodeId} {m m' : Manuscript} (lacks : m'.Lacks edge node m)
include lacks

theorem printAt (bound : Nat) (path : Path) (id : NodeId) (e : Edge) (within : Printer.Within edge node path)
    (apart : e.parent ≠ edge.parent) : m'.printAt bound path id (some e) = m.printAt bound path id (some e) := by
  induction bound generalizing path id e with
  | zero => simp only [Manuscript.printAt, lacks.tree]
  | succ bound ih =>
    simp only [Manuscript.printAt, lacks.tree]
    refine bind_congr_ok fun longer ok => ?_
    have other : id ≠ node := fun same => Printer.fresh_of_extend ok ⟨id, some e⟩ (by simp) (same ▸ within.mem)
    have below : Printer.Lacks edge node ⟨m', longer, m'.printAt bound⟩ ⟨m, longer, m.printAt bound⟩ :=
      ⟨lacks, rfl, within.extend ok, ih⟩
    exact below.occurrence (Printer.extend_eq ok) other fun same => apart (congrArg Edge.parent (Option.some.inj same))

theorem printers (bound : Nat) {path : Path} (fresh : ∀ frame ∈ path, frame.id ≠ node)
    (above : edge.parent ∈ path.map Frame.id) (at_edge : Option Edge) : Printer.Lacks edge node
    ⟨m', ⟨node, at_edge⟩ :: path, m'.printAt bound⟩ ⟨m, ⟨node, at_edge⟩ :: path, m.printAt bound⟩ := by
  refine ⟨lacks, rfl, ⟨[⟨node, at_edge⟩], path, rfl, by simp, ?_, above⟩, lacks.printAt bound⟩
  obtain ⟨frame, member, same⟩ := List.mem_map.1 above
  simpa [← same] using fresh frame member

end Manuscript.Lacks

/-- The manuscript of a source with its tree, if the flags of occurrences are changed before anything reads them. -/
def Manuscript.adjusted (adjust : Occurrences → Occurrences) (tree : Tree) (output : ParserOutput) (source : String)
    (settings : FormatSettings) : Outcome Manuscript := do
  let tree := tree.inBytes source
  let comments := output.comments.filterMap fun id => (tree.node id).location
  let extents ← Extents.ofTree tree source comments
  let occurrences := adjust (Occurrences.ofTree tree extents (Text.Lines.ofText source))
  let shelf ← Site.bind ⟨tree, extents, source⟩ output.comments
  return { tree, extents, occurrences, shelf := shelf.deferBlanks tree occurrences, source, settings, unit := output.unit }

theorem Manuscript.adjusted_id : adjusted id = ofTree := rfl

namespace Manuscript

variable {tree : Tree} {output : ParserOutput} {source : String} {settings : FormatSettings} {m : Manuscript}
  {edge : Edge} {node : NodeId}

/-- Clearing the flag of the occurrence that defines a node takes its blank line from the occurrence and from the comments
    behind the node, of which then none owes a blank line. -/
theorem lacks_of_ofTree (made : ofTree tree output source settings = .ok m) (origin : m.tree.origin node = some edge)
    (target : m.tree.target? edge = some node) (blank : (m.occurrences.get edge).blankAfter)
    (heeded : m.shelf.isIgnored node = false) :
    ∃ m', adjusted (·.clearBlank edge) tree output source settings = .ok m' ∧ m'.Lacks edge node m ∧
      ∀ c ∈ m'.shelf.of node, c.blankAfter = if c.index + 1 = output.comments.length then some false else none := by
  simp only [ofTree, bind_eq_ok, pure_eq_ok] at made
  obtain ⟨extents, measured, bound, binds, rfl⟩ := made
  simp only at origin target blank heeded ⊢
  set t := tree.inBytes source
  set o := Occurrences.ofTree t extents (Text.Lines.ofText source)
  have ignored : bound.isIgnored node = false := by
    rw [← heeded]
    refine (Shelf.isIgnored_of_owe ?_).symm
    rw [Shelf.of_deferBlanks]
    split
    · exact .inr rfl
    · exact .inl rfl
  have defined : Shelf.isDefinedBy t o.blankEdges node :=
    (Shelf.isDefinedBy_iff t).2 ⟨edge, Occurrences.mem_blankEdges_of_get blank, target, origin⟩
  have cleared := Shelf.isDefinedBy_clearBlank t target origin o
  have unowed : (bound.deferBlanks t (o.clearBlank edge)).of node = bound.of node := by
    simp [Shelf.of_deferBlanks, cleared]
  refine ⟨{ tree := t, extents, occurrences := o.clearBlank edge, shelf := bound.deferBlanks t (o.clearBlank edge)
            source, settings, unit := output.unit }, ?_, ⟨rfl, rfl, rfl, rfl, ?_, ?_⟩, ?_⟩
  · exact bind_eq_ok.2 ⟨extents, measured, bind_eq_ok.2 ⟨bound, binds, rfl⟩⟩
  · intro id other
    simp [Shelf.of_deferBlanks, cleared, other]
  · simp [unowed, Shelf.of_deferBlanks, defined, ignored]
  · intro c member
    simp only [unowed] at member
    exact Site.blankAfter_of_bind binds member

end Manuscript
end ApexLayout
