import ApexLayout.Printer.Statement
import ApexLayout.Proofs.Outcome
import Mathlib.Data.List.Basic

/-!
How often a label is noted in a document. Builders only arrange their parts, so the notes in what they build are those
of the parts. Each comment is noted once in its own document.
Where the printer goes from a node. A route leads from the fields of a node to occurrences that are laid out; its
spots are those and all that are laid out below them.
-/
namespace ApexLayout.Doc

variable {ν : Type} [DecidableEq ν]

mutual
@[simp] def noted (label : ν) : Doc ν → Nat
  | .text _ | .line | .softLine | .lineEnd | .breakParent | .trim => 0
  | .concat parts => notedAll label parts
  | .group contents _ => contents.noted label
  | .indent contents => contents.noted label
  | .dedent contents => contents.noted label
  | .align _ contents => contents.noted label
  | .lineSuffix contents => contents.noted label
  | .note other contents => (if other = label then 1 else 0) + contents.noted label
@[simp] def notedAll (label : ν) : List (Doc ν) → Nat
  | [] => 0
  | doc :: docs => doc.noted label + notedAll label docs
end

variable {label : ν}

@[simp] theorem noted_empty : (empty : Doc ν).noted label = 0 := by simp [empty]

@[simp] theorem noted_hardLine : (hardLine : Doc ν).noted label = 0 := by simp [hardLine]

@[simp] theorem noted_commaLine : (commaLine : Doc ν).noted label = 0 := by simp [commaLine]

@[simp] theorem noted_fill (doc : Doc ν) : (fill doc).noted label = doc.noted label := by simp [fill]

@[simp] theorem noted_indentGroup (doc : Doc ν) : (indentGroup doc).noted label = doc.noted label := by
  simp [indentGroup]

@[simp] theorem notedAll_append (first rest : List (Doc ν)) :
    notedAll label (first ++ rest) = notedAll label first + notedAll label rest := by
  induction first with
  | nil => simp
  | cons doc docs ih => simp [ih, Nat.add_assoc]

@[simp] theorem noted_parts (lists : List (List (Doc ν))) :
    (parts lists).noted label = notedAll label lists.flatten :=
  rfl

/-- A separator is noted once less often than there are documents. -/
@[simp] theorem noted_join (separator : Doc ν) (docs : List (Doc ν)) :
    (join separator docs).noted label = notedAll label docs + (docs.length - 1) * separator.noted label := by
  simp only [join, noted]
  fun_induction joinParts separator docs with
  | case1 => simp
  | case2 doc => simp
  | case3 doc docs several ih =>
    obtain ⟨next, rest, rfl⟩ := List.exists_cons_of_ne_nil several
    simp only [notedAll, ih, List.length_cons, Nat.add_sub_cancel, Nat.add_mul]
    omega

theorem noted_of_isEmpty {doc : Doc ν} (nothing : doc.isEmpty) : doc.noted label = 0 := by
  cases doc with
  | text value => rfl
  | _ => cases nothing

@[simp] theorem notedAll_map_fill (docs : List (Doc ν)) : notedAll label (docs.map fill) = notedAll label docs := by
  induction docs with
  | nil => rfl
  | cons doc docs ih => simp [ih]

theorem notedAll_flatMap {f : Doc ν → List (Doc ν)} (each : ∀ doc, notedAll label (f doc) = doc.noted label)
    (docs : List (Doc ν)) : notedAll label (docs.flatMap f) = notedAll label docs := by
  induction docs with
  | nil => rfl
  | cons doc docs ih => simp [each, ih]

@[simp] theorem noted_ite (p : Prop) [Decidable p] (first second : Doc ν) :
    (if p then first else second).noted label = if p then first.noted label else second.noted label :=
  apply_ite (noted label) p first second

@[simp] theorem notedAll_ite (p : Prop) [Decidable p] (first second : List (Doc ν)) :
    notedAll label (if p then first else second) = if p then notedAll label first else notedAll label second :=
  apply_ite (notedAll label) p first second

@[simp] theorem notedAll_filter_isEmpty (docs : List (Doc ν)) :
    notedAll label (docs.filter (!·.isEmpty)) = notedAll label docs := by
  induction docs with
  | nil => rfl
  | cons doc docs ih =>
    rw [List.filter_cons]
    split
    · simp [ih]
    · next nothing =>
      have none_noted : doc.noted label = 0 := noted_of_isEmpty (by simpa using nothing)
      simp [ih, none_noted]

@[simp] theorem notedAll_unless_nil (docs : List (Doc ν)) [Decidable (docs = [])] :
    (if docs = [] then 0 else notedAll label docs) = notedAll label docs := by
  split
  · next none_there => simp [none_there]
  · rfl

@[simp] theorem noted_unless_isEmpty (doc : Doc ν) :
    (if doc.isEmpty then 0 else doc.noted label) = doc.noted label := by
  split
  · next nothing => rw [noted_of_isEmpty nothing]
  · rfl

end ApexLayout.Doc

namespace ApexLayout.Comment
open Doc

variable {c : Comment}

@[simp] theorem noted_doc (d : Comment) : d.doc.noted c = if d = c then 1 else 0 := by
  have lines : ∀ texts : List String, notedAll c (texts.map Doc.text : List Draft) = 0 := by
    intro texts
    induction texts with
    | nil => rfl
    | cons text texts ih => simpa using ih
  simp [doc, lines]

@[simp] theorem noted_leadingDoc (d : Comment) (source : String) :
    (d.leadingDoc source).noted c = if d = c then 1 else 0 := by
  simp [leadingDoc]

theorem noted_trailingDoc (d : Comment) (source : String) (before : Option Trail) :
    (d.trailingDoc source before).1.noted c = if d = c then 1 else 0 := by
  simp only [trailingDoc]
  split
  · simp
  · split
    · simp
    · simp

@[simp] theorem notedAll_leadingDocs (source : String) (comments : List Comment) :
    notedAll c (comments.map (·.leadingDoc source)) = comments.count c := by
  induction comments with
  | nil => rfl
  | cons d comments ih => simp [ih, List.count_cons, Nat.add_comm]

@[simp] theorem notedAll_trailingDocs (source : String) (before : Option Trail) (comments : List Comment) :
    notedAll c (trailingDocs source before comments) = comments.count c := by
  induction comments generalizing before with
  | nil => rfl
  | cons d comments ih => simp [trailingDocs, noted_trailingDoc, ih, List.count_cons, Nat.add_comm]

/-- A comment in a body is printed only if the byte before it starts a character. -/
def isVisible (source : String) (c : Comment) : Bool := (Text.lineFeedsBefore? source c.span.start).isSome

theorem noted_danglingDoc (d : Comment) (source : String) (isFirst : Bool) :
    (d.danglingDoc source isFirst).noted c = if d = c ∧ d.isVisible source then 1 else 0 := by
  have feeds : ∀ n : Nat, notedAll c (List.replicate n Doc.hardLine) = 0 := by
    intro n
    induction n with
    | zero => rfl
    | succ n ih => simpa [List.replicate_succ] using ih
  simp only [danglingDoc, isVisible]
  split
  · next hidden => simp [hidden]
  · next visible =>
    simp [feeds, visible]

@[simp] theorem notedAll_danglingDocs (source : String) (comments : List Comment) :
    notedAll c (danglingDocs source comments) = (comments.filter (·.isVisible source)).count c := by
  have from_any : ∀ index, notedAll c ((comments.zipIdx index).map fun pair => pair.1.danglingDoc source (pair.2 == 0)) =
      (comments.filter (·.isVisible source)).count c := by
    induction comments with
    | nil => simp
    | cons d comments ih =>
      intro index
      by_cases visible : d.isVisible source
      · simp [List.zipIdx_cons, noted_danglingDoc, visible, ih, List.count_cons, Nat.add_comm]
      · simp [List.zipIdx_cons, noted_danglingDoc, visible, ih]
  exact from_any 0

end ApexLayout.Comment

namespace ApexLayout.Printer
open Doc

structure Spot where
  id : NodeId
  edge : Option Edge
  /-- The whole node is laid out, and not only some of its fields by the node around it. -/
  whole : Bool
  deriving Repr, DecidableEq

/-- What a node lays out. -/
inductive Route where
  /-- What the field names lead to. -/
  | one (names : List String)
  /-- Every element of the array that the field names lead to. -/
  | each (names : List String)
  /-- A field, between any two neighbours in an array. -/
  | between (field items : String)
  /-- What a field of the node around this one leads to. -/
  | around (field : String)
  /-- The names and the value of the loop variable in a field. -/
  | variable (field : String)
  /-- The names and the values of the loop variables in an array. -/
  | variables (field : String)
  deriving Repr, DecidableEq

/-- An occurrence to which the printer goes from the end of a path. -/
structure Visit where
  path : Path
  id : NodeId
  edge : Edge

/-- The nodes among elements of an array, from a place on. -/
def visitItems (path : Path) (owner : NodeId) (slot : UInt16) (index : Nat) : List Value → List Visit
  | [] => []
  | .node id :: items => ⟨path, id, ⟨owner, slot, some index⟩⟩ :: visitItems path owner slot (index + 1) items
  | _ :: items => visitItems path owner slot (index + 1) items

def visitOne (p : Printer) (names : List String) : List Visit :=
  match p.destination? names with
  | some { frames, owner, slot, value := .node id } => [⟨frames.reverse ++ p.path, id, ⟨owner, slot, none⟩⟩]
  | _ => []

def visitEach (p : Printer) (names : List String) : List Visit :=
  match p.destination? names with
  | some { frames, owner, slot, value := .array items } => visitItems (frames.reverse ++ p.path) owner slot 0 items
  | _ => []

def lengthAt (p : Printer) (names : List String) : Nat :=
  match p.destination? names with
  | some { value := .array items, .. } => items.length
  | _ => 0

def enter (p : Printer) (v : Visit) : Printer := { p with path := ⟨v.id, some v.edge⟩ :: v.path }

section
variable (p : Printer) (spotsAt : Path → NodeId → Option Edge → List Spot)

def below (visits : List Visit) : List Spot := visits.flatMap fun v => spotsAt v.path v.id (some v.edge)

/-- The spots of a loop variable: the variable itself, for its comments only, its names and its value. -/
def variableSpots (v : Visit) : List Spot :=
  ⟨v.id, some v.edge, false⟩ ::
    (below spotsAt ((p.enter v).visitEach ["name"]) ++ below spotsAt ((p.enter v).visitOne ["expr", "value"]))

def spots : Route → List Spot
  | .one names => below spotsAt (p.visitOne names)
  | .each names => below spotsAt (p.visitEach names)
  | .between field items => (List.replicate (p.lengthAt [items] - 1) (below spotsAt (p.visitOne [field]))).flatten
  | .around field => below spotsAt (p.outward.visitOne [field])
  | .variable field => (p.visitOne [field]).flatMap (p.variableSpots spotsAt)
  | .variables field => (p.visitEach [field]).flatMap (p.variableSpots spotsAt)

end

/-- What is expected of the printer: the spots at and below each occurrence, and whether they show a
    comment. -/
structure Plan where
  spotsAt : Path → NodeId → Option Edge → List Spot
  shows : Spot → Bool

section
variable (p : Printer) (plan : Plan)

def shown (route : Route) : Nat := (p.spots plan.spotsAt route).countP plan.shows

def shownAll (routes : List Route) : Nat := (routes.flatMap (p.spots plan.spotsAt)).countP plan.shows

@[simp] theorem shownAll_nil : p.shownAll plan [] = 0 := rfl

@[simp] theorem shownAll_cons (route : Route) (routes : List Route) :
    p.shownAll plan (route :: routes) = p.shown plan route + p.shownAll plan routes := by
  simp [shownAll, shown]

@[simp] theorem shownAll_append (first rest : List Route) :
    p.shownAll plan (first ++ rest) = p.shownAll plan first + p.shownAll plan rest := by
  simp [shownAll]

end

theorem extend_eq {tree : Tree} {path longer : Path} {frames : List Frame}
    (ok : extend tree path frames = .ok longer) : longer = frames.reverse ++ path := by
  induction frames generalizing path with
  | nil =>
    cases ok
    rfl
  | cons frame frames ih =>
    simp only [extend] at ok
    split at ok
    · cases ok
    · rw [ih ok]
      simp

@[simp] theorem noted_scalar (value : Value) (c : Comment) : (scalar value).noted c = 0 := by
  unfold scalar
  split <;> simp

/-! ### Optional fields -/

theorem field?_of_slot? {node : Node} {name : String} {slot : Nat} {field : String × Value}
    (found : node.slot? name = some slot) (there : node.fields[slot]? = some field) : node.field? name = some field.2 := by
  obtain ⟨_, fields, _, _⟩ := node
  simp only [Node.slot?, Node.field?] at *
  induction fields generalizing slot with
  | nil => simp at there
  | cons first fields ih =>
    obtain ⟨key, value⟩ := first
    by_cases same : key = name
    · obtain rfl : 0 = slot := by simpa [List.findIdx?_cons, same] using found
      obtain rfl : (key, value) = field := by simpa using there
      simp [same]
    · have other : (name == key) = false := by simpa using Ne.symm same
      obtain ⟨before, earlier, rfl⟩ : ∃ before, fields.findIdx? (·.1 == name) = some before ∧ before + 1 = slot := by
        simpa [List.findIdx?_cons, same] using found
      simpa [List.lookup_cons, other] using ih earlier (by simpa using there)

theorem field?_of_destination? {p : Printer} {field next : String} {d : Destination}
    (there : p.destination? [field, next] = some d) :
    ∃ child, p.tree.field? p.current field = some (.node child) ∧ p.tree.field? child next = some d.value := by
  simp only [destination?, follow?, Option.bind_eq_bind, Option.bind_eq_some_iff] at there
  obtain ⟨slot, found, ⟨name, value⟩, held, child, is_node, inner, inner_found, ⟨_, innermost⟩, inner_held, same⟩ := there
  cases same
  obtain rfl : value = .node child := by
    cases value with
    | node id => simpa [Value.node?] using is_node
    | _ => cases is_node
  exact ⟨child, field?_of_slot? found held, field?_of_slot? inner_found inner_held⟩

section
variable {p : Printer} (plan : Plan) {field : String}

theorem shown_without_child (none_there : p.tree.child? p.current field = none) (next : String) :
    p.shown plan (.one [field, next]) = 0 := by
  simp only [shown, spots, visitOne]
  split
  · next there =>
    obtain ⟨child, held, _⟩ := field?_of_destination? there
    simp [Tree.child?, held, Value.node?] at none_there
  · rfl

theorem shown_without_optionalChild (none_there : p.tree.optionalChild? p.current field = none) :
    p.shown plan (.one [field, "value"]) = 0 := by
  simp only [shown, spots, visitOne]
  split
  · next there =>
    obtain ⟨child, held, inner⟩ := field?_of_destination? there
    by_cases wrapper : p.tree.hasClass child
    · simp [Tree.optionalChild?, Tree.optional?, Tree.child?, held, Value.node?, wrapper] at none_there
    · simp [Tree.optionalChild?, Tree.optional?, Tree.child?, held, Value.node?, wrapper, inner, Value.isNull] at none_there
  · rfl

theorem shown_without_optional (none_there : p.tree.optional? p.current field = none) :
    p.shown plan (.each [field, "value"]) = 0 := by
  simp only [shown, spots, visitEach]
  split
  · next there =>
    obtain ⟨child, held, inner⟩ := field?_of_destination? there
    by_cases wrapper : p.tree.hasClass child
    · simp [Tree.optional?, Tree.child?, held, Value.node?, wrapper] at none_there
    · simp [Tree.optional?, Tree.child?, held, Value.node?, wrapper, inner, Value.isNull] at none_there
  · rfl

end

/-- The comments that stand before and behind an occurrence: only the one that defines a node has them,
    and annotations have none behind them. -/
def beside (p : Printer) (id : NodeId) (edge : Option Edge) : List BoundComment :=
  if p.tree.origin id == edge then
    p.manuscript.shelf.leading id ++
      if p.tree.isKind id .annotationMark then [] else p.manuscript.trailingComments id
  else []

def notedBeside (c : Comment) : Option (List Draft × List Draft) → Nat
  | some (leading, trailing) => notedAll c leading + notedAll c trailing
  | none => 0

theorem notedBeside_commentDocs? (p : Printer) {id : NodeId} {edge : Option Edge} {path : Path}
    (here : p.path = ⟨id, edge⟩ :: path) (c : Comment) :
    notedBeside c (p.commentDocs? id) = ((p.beside id edge).map (·.toComment)).count c := by
  have leading : notedAll c ((p.manuscript.shelf.leading id).map (·.toComment.leadingDoc p.manuscript.source)) =
      ((p.manuscript.shelf.leading id).map (·.toComment)).count c := by
    rw [← Comment.notedAll_leadingDocs p.manuscript.source, List.map_map]
    rfl
  simp only [commentDocs?, here, beside]
  by_cases defines : p.tree.origin id == edge
  · by_cases any : p.manuscript.shelf.hasAny id
    · by_cases mark : p.tree.isKind id .annotationMark
      · simp [defines, any, mark, notedBeside, leading]
      · simp [defines, any, mark, notedBeside, leading]
    · -- A node without comments has none beside it.
      have none_there : p.manuscript.shelf.of id = [] := by simpa [Shelf.hasAny] using any
      simp [any, notedBeside, Shelf.leading, Manuscript.trailingComments, none_there]
  · simp [defines, notedBeside]

/-! ### What is printed along a route -/

/-- What is printed for a node notes a comment as often as the spots below the node show it. -/
structure Tally (p : Printer) (c : Comment) (plan : Plan) : Prop where
  nodes : ∀ path id edge doc, p.printAt path id edge = .ok doc → doc.noted c = (plan.spotsAt path id edge).countP plan.shows
  beside : ∀ id edge, ((p.beside id edge).map (·.toComment)).count c = if plan.shows ⟨id, edge, false⟩ then 1 else 0

namespace Tally

variable {p : Printer} {c : Comment} {plan : Plan}

section
variable (tally : p.Tally c plan)
include tally

theorem moved (path : Path) : Tally { p with path } c plan :=
  ⟨tally.nodes, tally.beside⟩

theorem printValue {path : Path} {edge : Edge} {value : Value} {doc : Draft}
    (ok : p.printValue path edge value = .ok doc) :
    doc.noted c = (match value with | .node id => plan.spotsAt path id (some edge) | _ => []).countP plan.shows := by
  unfold Printer.printValue at ok
  split at ok
  · exact tally.nodes _ _ _ _ ok
  · next other =>
    cases ok
    rw [noted_scalar]
    cases value with
    | node id => exact absurd rfl (other id)
    | _ => rfl

theorem print {names : List String} {doc : Draft} (ok : p.print names = .ok doc) :
    doc.noted c = p.shown plan (.one names) := by
  simp only [shown, spots, visitOne]
  unfold Printer.print at ok
  split at ok
  · next nowhere =>
    cases ok
    simp [nowhere, below]
  · next d there =>
    obtain ⟨path, longer, printed⟩ := bind_eq_ok.mp ok
    obtain rfl := extend_eq longer
    rw [tally.printValue printed, there]
    obtain ⟨frames, owner, slot, value⟩ := d
    cases value with
    | node id => simp [below]
    | _ => simp [below]

theorem printItems {path : Path} {owner : NodeId} {slot : UInt16} (items : List Value) :
    ∀ {index : Nat} {docs : List Draft}, p.printItems path owner slot index items = .ok docs →
      docs.length = items.length ∧
        notedAll c docs = (below plan.spotsAt (visitItems path owner slot index items)).countP plan.shows := by
  induction items with
  | nil =>
    intro index docs ok
    cases ok
    exact ⟨rfl, rfl⟩
  | cons item items ih =>
    intro index docs ok
    simp only [Printer.printItems, bind_eq_ok, pure_eq_ok] at ok
    obtain ⟨doc, first, rest, later, rfl⟩ := ok
    obtain ⟨length, noted⟩ := ih later
    refine ⟨by simp [length], ?_⟩
    rw [notedAll, tally.printValue first, noted]
    cases item with
    | node id => simp [visitItems, below]
    | _ => simp [visitItems]

theorem printEach_length {names : List String} {docs : List Draft}
    (ok : p.printEach names = .ok docs) :
    docs.length = p.lengthAt names ∧ notedAll c docs = p.shown plan (.each names) := by
  simp only [shown, spots, visitEach, lengthAt]
  unfold Printer.printEach at ok
  split at ok
  · next frames owner slot items there =>
    obtain ⟨path, longer, printed⟩ := bind_eq_ok.mp ok
    obtain rfl := extend_eq longer
    simpa [there] using tally.printItems items printed
  · next nowhere =>
    cases ok
    cases found : p.destination? names with
    | none => simp [below]
    | some d =>
      obtain ⟨frames, owner, slot, value⟩ := d
      cases value with
      | array items => exact absurd found (nowhere frames owner slot items)
      | _ => simp [below]

end

end Tally

/-! ### Layouts -/

/-- A layout adds to the notes it holds already those of its routes. What counts as the notes of its
    result is given by a measure. -/
def Lays (p : Printer) (plan : Plan) {α : Type} (measure : α → Nat) (held : Nat) (routes : List Route)
    (layout : Outcome α) : Prop :=
  ∀ a, layout = .ok a → measure a = held + p.shownAll plan routes

section
variable {p : Printer} {c : Comment} {plan : Plan}
  {α β : Type} {measure : α → Nat} {held : Nat} {routes : List Route}

theorem Lays.ok {a : α} (same : measure a = held) : p.Lays plan measure held [] (.ok a) := by
  intro b ok
  cases ok
  simpa using same

theorem Lays.pure {a : α} (same : measure a = held) : p.Lays plan measure held [] (Pure.pure a) :=
  Lays.ok same

theorem Lays.error {e : FormatError} : p.Lays plan measure held routes (.error e) := by
  intro a ok
  cases ok

theorem Lays.given {o : Outcome β} {f : β → Outcome α} (rest : ∀ b, o = .ok b → p.Lays plan measure held routes (f b)) :
    p.Lays plan measure held routes (o >>= f) := by
  intro a ok
  obtain ⟨b, found, later⟩ := bind_eq_ok.mp ok
  exact rest b found a later

theorem Lays.read {o : Outcome β} {f : β → Outcome α} (rest : ∀ b, p.Lays plan measure held routes (f b)) :
    p.Lays plan measure held routes (o >>= f) := .given fun b _ => rest b

theorem Lays.seq {inner : β → Nat} {first : List Route} {o : Outcome β} {f : β → Outcome α}
    (here : p.Lays plan inner 0 first o) (rest : ∀ b, p.Lays plan measure (held + inner b) routes (f b)) :
    p.Lays plan measure held (first ++ routes) (o >>= f) := by
  intro a ok
  obtain ⟨b, done, later⟩ := bind_eq_ok.mp ok
  rw [rest b a later, here b done, shownAll_append]
  omega

theorem Lays.last {inner : β → Nat} {o : Outcome β} {f : β → Outcome α} (here : p.Lays plan inner 0 routes o)
    (rest : ∀ b, p.Lays plan measure (held + inner b) [] (f b)) : p.Lays plan measure held routes (o >>= f) := by
  simpa using here.seq rest

theorem Lays.map {inner : β → Nat} {o : Outcome β} {f : β → α} (here : p.Lays plan inner held routes o)
    (same : ∀ b, measure (f b) = inner b) : p.Lays plan measure held routes (f <$> o) := by
  intro a ok
  obtain ⟨b, done, rfl⟩ := map_eq_ok.mp ok
  rw [same, here b done]

theorem Lays.ite {q : Prop} [Decidable q] {first second : Outcome α}
    (yes : q → p.Lays plan measure held routes first) (no : ¬q → p.Lays plan measure held routes second) :
    p.Lays plan measure held routes (if q then first else second) := by
  split
  · next holds => exact yes holds
  · next fails => exact no fails

/-- A condition of the layout that is one of its routes too. -/
theorem Lays.cond {q : Prop} [Decidable q] {others : List Route} {first second : Outcome α}
    (yes : q → p.Lays plan measure held routes first) (no : ¬q → p.Lays plan measure held others second) :
    p.Lays plan measure held (if q then routes else others) (if q then first else second) := by
  split
  · next holds => exact yes holds
  · next fails => exact no fails

theorem Lays.skip {route : Route} {layout : Outcome α} (nothing : p.shown plan route = 0)
    (rest : p.Lays plan measure held routes layout) : p.Lays plan measure held (route :: routes) layout := by
  intro a ok
  rw [rest a ok, shownAll_cons, nothing, Nat.zero_add]

theorem Lays.outward {field : String} {layout : Outcome α}
    (outside : p.outward.Lays plan measure held [.one [field]] layout) : p.Lays plan measure held [.around field] layout :=
  outside

theorem Tally.laysOne (tally : p.Tally c plan) (names : List String) :
    p.Lays plan (noted c) 0 [.one names] (p.print names) := by
  intro doc ok
  simp [tally.print ok]

theorem Tally.laysEach (tally : p.Tally c plan) (names : List String) :
    p.Lays plan (notedAll c) 0 [.each names] (p.printEach names) := by
  intro docs ok
  simp [(tally.printEach_length ok).2]

theorem Tally.one (tally : p.Tally c plan) {names : List String} {f : Draft → Outcome α}
    (rest : ∀ doc : Draft, p.Lays plan measure (held + doc.noted c) routes (f doc)) :
    p.Lays plan measure held (.one names :: routes) (p.print names >>= f) :=
  (tally.laysOne names).seq rest

theorem Tally.each (tally : p.Tally c plan) {names : List String} {f : List Draft → Outcome α}
    (rest : ∀ docs : List Draft, p.Lays plan measure (held + notedAll c docs) routes (f docs)) :
    p.Lays plan measure held (.each names :: routes) (p.printEach names >>= f) :=
  (tally.laysEach names).seq rest

end
end ApexLayout.Printer
