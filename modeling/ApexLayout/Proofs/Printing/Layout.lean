import ApexLayout.Proofs.Printing.Kinds

/-!
The layout of a manuscript: every occurrence that is laid out, in turn. A comment that stands on the
shelf once is printed as often as the layout shows it, whatever its node and its place there
(`noted_doc`).
-/
namespace ApexLayout
open Doc (noted notedAll)
open Printer (Spot Plan Tally)

namespace Manuscript

/-- The occurrence is taken from the source as it is. -/
def isVerbatim (m : Manuscript) (id : NodeId) (edge : Option Edge) : Bool :=
  m.tree.origin id == edge && m.shelf.isIgnored id

/-- A comment of a node is printed behind it: a trailing one, or one inside it that it has no body for. -/
def standsBehind (m : Manuscript) (id : NodeId) (c : BoundComment) : Bool :=
  match c.anchor with
  | .trailing => true
  | .dangling => !m.tree.isAmong id bodyKinds
  | .leading => false

def standsBeside (m : Manuscript) (id : NodeId) (c : BoundComment) : Bool :=
  c.anchor == .leading || m.standsBehind id c && !m.tree.isKind id .annotationMark

/-- A comment of a node is printed by the node itself: what stands behind an annotation, and in a body
    what is visible. -/
def standsWithin (m : Manuscript) (id : NodeId) (c : BoundComment) : Bool :=
  !m.standsBeside id c && (m.standsBehind id c || c.toComment.isVisible m.source)

/-- A spot shows a comment of its node. What stands beside the node is shown where the node is defined;
    what it prints itself is shown wherever the whole of it is laid out. -/
def shows (m : Manuscript) (c : BoundComment) (spot : Spot) : Bool :=
  c.owner == some spot.id &&
    (m.standsBeside spot.id c && m.tree.origin spot.id == spot.edge ||
      m.standsWithin spot.id c && spot.whole && !m.isVerbatim spot.id spot.edge)

theorem standsBeside_of_plain {m : Manuscript} {id : NodeId} (unmarked : m.tree.isKind id .annotationMark = false)
    (bodiless : m.tree.isAmong id bodyKinds = false) (c : BoundComment) : m.standsBeside id c = true := by
  cases place : c.anchor <;> simp [standsBeside, standsBehind, place, unmarked, bodiless]

/-- A comment stands on the shelf once, among those of its owner. -/
structure Single (m : Manuscript) (c : BoundComment) : Prop where
  node : ∀ id q, (((m.shelf.of id).filter q).map (·.toComment)).count c.toComment = if c.owner == some id && q c then 1 else 0
  loose : ∀ q, ((m.shelf.loose.filter q).map (·.toComment)).count c.toComment = if c.owner == none && q c then 1 else 0

end Manuscript

namespace Printer

variable {p : Printer} {id : NodeId}

def routesOf (p : Printer) (id : NodeId) : Class → List Route
  | .known kind => p.routes id kind
  | .other _ => []

def ownCommentsOf (p : Printer) (id : NodeId) : Class → List BoundComment
  | .known kind => p.ownComments id kind
  | .other _ => []

/-- The spots at and below the occurrence being printed, by those at and below each node. A node without
    class is not laid out. -/
def spotsHere (p : Printer) (spotsAt : Path → NodeId → Option Edge → List Spot) (id : NodeId) (edge : Option Edge) :
    List Spot :=
  match (p.tree.node id).nodeClass with
  | none => []
  | some nodeClass =>
    ⟨id, edge, true⟩ ::
      if p.manuscript.isVerbatim id edge then [] else (p.routesOf id nodeClass).flatMap (p.spots spotsAt)

theorem ofClass_lays {c : Comment} {plan : Plan} (tally : p.Tally c plan)
    (here : p.current = id) (nodeClass : Class) :
    p.Lays plan (noted c) (((p.ownCommentsOf id nodeClass).map (·.toComment)).count c) (p.routesOf id nodeClass)
      (p.ofClass id nodeClass) := by
  cases nodeClass with
  | known kind => exact ofKind_lays tally here kind
  | other name => exact .ite (fun _ => .ok (by simp [ownCommentsOf])) fun _ => .error

section
variable {p : Printer} {c : BoundComment} (single : p.manuscript.Single c)
include single

theorem count_trailingComments (id : NodeId) :
    ((p.manuscript.trailingComments id).map (·.toComment)).count c.toComment =
      if c.owner == some id && p.manuscript.standsBehind id c then 1 else 0 :=
  single.node id (p.manuscript.standsBehind id)

theorem count_beside (id : NodeId) (edge : Option Edge) :
    ((p.beside id edge).map (·.toComment)).count c.toComment =
      if p.manuscript.shows c ⟨id, edge, false⟩ then 1 else 0 := by
  have leading := single.node id (·.anchor == .leading)
  have behind := count_trailingComments single id
  by_cases defines : p.tree.origin id == edge
  · by_cases mark : p.tree.isKind id .annotationMark
    · simp_all [beside, Manuscript.shows, Manuscript.standsBeside, Shelf.leading, tree]
    · -- What leads and what stands behind are never the same comment.
      cases place : c.anchor <;>
        simp_all [beside, Manuscript.shows, Manuscript.standsBeside, Manuscript.standsBehind, Shelf.leading, tree]
  · simp_all [beside, Manuscript.shows, tree]

theorem count_annotated (marked : p.manuscript.tree.isKind id .annotationMark = true)
    (bodiless : p.manuscript.tree.isAmong id bodyKinds = false) :
    ((p.manuscript.trailingComments id).map (·.toComment)).count c.toComment =
      if c.owner == some id && p.manuscript.standsWithin id c then 1 else 0 := by
  rw [count_trailingComments single]
  cases place : c.anchor <;> simp [Manuscript.standsWithin, Manuscript.standsBeside, Manuscript.standsBehind, place, marked, bodiless]

theorem count_inBody (unmarked : p.manuscript.tree.isKind id .annotationMark = false)
    (bodied : p.manuscript.tree.isAmong id bodyKinds = true) :
    (((p.manuscript.shelf.dangling id).filter (·.toComment.isVisible p.manuscript.source)).map (·.toComment)).count
        c.toComment =
      if c.owner == some id && p.manuscript.standsWithin id c then 1 else 0 := by
  rw [Shelf.dangling, List.filter_filter, single.node id]
  cases place : c.anchor <;> simp [Manuscript.standsWithin, Manuscript.standsBeside, Manuscript.standsBehind, place, unmarked, bodied]

theorem count_ownCommentsOf {nodeClass : Class} (known : (p.tree.node id).nodeClass = some nodeClass) :
    ((p.ownCommentsOf id nodeClass).map (·.toComment)).count c.toComment =
      if c.owner == some id && p.manuscript.standsWithin id c then 1 else 0 := by
  have kind_eq : p.manuscript.tree.kind? id = nodeClass.kind? := by
    rw [Tree.kind?, Node.kind?, show (p.manuscript.tree.node id).nodeClass = some nodeClass from known]
    rfl
  cases nodeClass with
  | other name =>
    have unmarked : p.manuscript.tree.isKind id .annotationMark = false := by simp [Tree.isKind, kind_eq, Class.kind?]
    have bodiless : p.manuscript.tree.isAmong id bodyKinds = false := by simp [Tree.isAmong, kind_eq, Class.kind?]
    simp [ownCommentsOf, Manuscript.standsWithin, Manuscript.standsBeside_of_plain unmarked bodiless]
  | known kind =>
    have marked : p.manuscript.tree.isKind id .annotationMark = (kind == .annotationMark) := by
      simp [Tree.isKind, kind_eq, Class.kind?]
    have bodied : p.manuscript.tree.isAmong id bodyKinds = bodyKinds.contains kind := by
      simp [Tree.isAmong, kind_eq, Class.kind?]
    simp only [ownCommentsOf, ownComments]
    split
    · exact count_annotated single marked bodied
    iterate 5 exact count_inBody single marked bodied
    · next unmarked trigger type enumeration interface block =>
      rw [Manuscript.standsWithin, Manuscript.standsBeside_of_plain]
      · simp
      · simpa [marked] using unmarked
      · simp_all [bodyKinds]

theorem count_whole {nodeClass : Class} (known : (p.tree.node id).nodeClass = some nodeClass)
    (edge : Option Edge) :
    (if p.manuscript.shows c ⟨id, edge, true⟩ then 1 else 0) =
      ((p.beside id edge).map (·.toComment)).count c.toComment +
        if p.manuscript.isVerbatim id edge then 0
        else ((p.ownCommentsOf id nodeClass).map (·.toComment)).count c.toComment := by
  rw [count_beside single, count_ownCommentsOf single known]
  by_cases owner : c.owner == some id
  · by_cases beside : p.manuscript.standsBeside id c
    · simp [Manuscript.shows, Manuscript.standsWithin, owner, beside]
    · by_cases verbatim : p.manuscript.isVerbatim id edge
      · simp [Manuscript.shows, owner, beside, verbatim]
      · simp [Manuscript.shows, owner, beside, verbatim]
  · simp [Manuscript.shows, owner]

end

theorem noted_withBeside {edge : Option Edge} {path : Path}
    (here : p.path = ⟨id, edge⟩ :: path) (c : Comment) {inner doc : Draft}
    (ok : (match p.commentDocs? id with
      | some (leading, trailing) => pure (Doc.parts [leading, [inner], trailing])
      | none => pure inner : Outcome Draft) = .ok doc) :
    doc.noted c = ((p.beside id edge).map (·.toComment)).count c + inner.noted c := by
  rw [← notedBeside_commentDocs? p here]
  split at ok
  · next leading trailing found =>
    cases ok
    simp +arith [found, notedBeside]
  · next found =>
    cases ok
    simp [found, notedBeside]

/-- What is printed for an occurrence notes a comment as often as the spots at and below it show it. -/
theorem noted_occurrence {c : BoundComment} {plan : Plan} (tally : p.Tally c.toComment plan)
    (shows : plan.shows = p.manuscript.shows c) (single : p.manuscript.Single c) {edge : Option Edge}
    {path : Path} (here : p.path = ⟨id, edge⟩ :: path) {doc : Draft} (ok : p.occurrence id edge = .ok doc) :
    doc.noted c.toComment = (p.spotsHere plan.spotsAt id edge).countP plan.shows := by
  unfold occurrence at ok
  unfold spotsHere
  cases known : (p.tree.node id).nodeClass with
  | none =>
    rw [known] at ok
    cases ok
    rfl
  | some nodeClass =>
    have whole := count_whole single known edge
    rw [known] at ok
    simp only [List.countP_cons, shows, whole]
    simp only at ok
    split at ok
    · next verbatim =>
      obtain ⟨inner, taken, ok⟩ := bind_eq_ok.mp ok
      obtain ⟨text, _, rfl⟩ := map_eq_ok.mp taken
      have as_is : p.manuscript.isVerbatim id edge = true := verbatim
      simp [noted_withBeside here _ ok, as_is]
    · next laid =>
      obtain ⟨inner, printed, ok⟩ := bind_eq_ok.mp ok
      obtain ⟨spaced, same, ok⟩ := bind_eq_ok.mp ok
      have lays := ofClass_lays tally (by simp [current, here]) nodeClass inner printed
      have as_laid : p.manuscript.isVerbatim id edge = false := Bool.eq_false_iff.mpr laid
      have blank : spaced.noted c.toComment = inner.noted c.toComment := by
        cases same
        split <;> simp
      simp only [noted_withBeside here _ ok, blank, lays, as_laid, Bool.false_eq_true, ↓reduceIte, shownAll, shows]
      omega

end Printer

namespace Manuscript

/-- The spots at and below a node that is reached by an edge from the end of a path, within a bound. The
    printer is at hand because a field of a query leaves out its inner function if nothing is printed for
    the outer one. -/
def spotsAt (m : Manuscript) : Nat → Path → NodeId → Option Edge → List Spot
  | 0, _, _, _ => []
  | bound + 1, path, id, edge => Printer.spotsHere ⟨m, ⟨id, edge⟩ :: path, m.printAt bound⟩ (m.spotsAt bound) id edge

/-- Every occurrence that is laid out, in turn. -/
def layout (m : Manuscript) : List Spot := m.spotsAt m.depthBound m.unitPath m.unit (m.tree.origin m.unit)

variable {m : Manuscript} {c : BoundComment} (single : m.Single c)
include single

theorem tally_printAt (bound : Nat) (path : Path) :
    Tally ⟨m, path, m.printAt bound⟩ c.toComment ⟨m.spotsAt bound, m.shows c⟩ := by
  induction bound generalizing path with
  | zero =>
    refine ⟨fun path id edge doc ok => ?_, Printer.count_beside single⟩
    simp [Manuscript.printAt] at ok
  | succ bound ih =>
    refine ⟨fun path id edge doc ok => ?_, Printer.count_beside single⟩
    obtain ⟨longer, extended, printed⟩ := bind_eq_ok.mp ok
    obtain rfl := Printer.extend_eq extended
    exact Printer.noted_occurrence (ih _) rfl single rfl printed

/-- A comment is printed as often as the layout shows it; one that belongs to nothing is printed if it
    is visible. -/
theorem noted_doc {doc : Draft} (ok : m.doc = .ok doc) :
    doc.noted c.toComment =
      m.layout.countP (m.shows c) + if c.owner == none && c.toComment.isVisible m.source then 1 else 0 := by
  obtain ⟨unit, printed, assembled⟩ := bind_eq_ok.mp ok
  have loose : notedAll c.toComment (Comment.danglingDocs m.source (m.shelf.loose.map (·.toComment))) =
      if c.owner == none && c.toComment.isVisible m.source then 1 else 0 := by
    rw [Comment.notedAll_danglingDocs, List.filter_map]
    exact single.loose _
  have unit_noted : unit.noted c.toComment = m.layout.countP (m.shows c) :=
    (tally_printAt single m.depthBound []).nodes m.unitPath m.unit _ unit printed
  cases assembled
  simp [loose, unit_noted]

end Manuscript
end ApexLayout
