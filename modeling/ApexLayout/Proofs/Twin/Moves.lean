import ApexLayout.Proofs.Comment.Dangling
import ApexLayout.Proofs.Printing.Moves
import ApexLayout.Proofs.Printing.Route
import ApexLayout.Proofs.Twin.Code
import ApexLayout.Proofs.Twin.Tree

/-!
Twin printers: one prints a tree with its comments, the other a twin of the tree without any, and both stand at nodes
that are related. What the two find in a field they print alike if they print nodes alike.
-/
namespace ApexLayout

open Doc

variable {r : NodeId → NodeId → Prop}

/-- The kinds that say how a query is ordered. -/
def orderKinds : List Kind := [.orderAsc, .orderDesc, .orderNullFirst, .orderNullLast]

/-- The fields for orders. The words in them are set off by spaces and by nothing else. -/
def orderFields : List String := ["order", "nullOrder"]

/-- Only fields for orders have the edge's slot. -/
def Tree.isOrderPlace (t : Tree) (edge : Option Edge) : Bool :=
  (edge.map fun e => ((t.node e.parent).fields.map (·.1)).zipIdx.all fun entry =>
    entry.2.toUInt16 != e.slot || orderFields.contains entry.1).getD false

theorem Edge.Twin.at {owner owner' : NodeId} (owners : r owner owner') (slot : UInt16) (index : Option Nat) :
    Edge.Twin r ⟨owner, slot, index⟩ ⟨owner', slot, index⟩ := ⟨owners, rfl, rfl⟩

structure Frame.Twin (r : NodeId → NodeId → Prop) (frame frame' : Frame) : Prop where
  id : r frame.id frame'.id
  edge : Option.Rel (Edge.Twin r) frame.edge frame'.edge

abbrev Path.Twin (r : NodeId → NodeId → Prop) (path path' : Path) : Prop := List.Forall₂ (Frame.Twin r) path path'

namespace Manuscript

/-- Neither comments nor a blank line are put around a document that prints nothing, unless it is that
    of an order. -/
def Heard (m : Manuscript) : Prop :=
  ∀ (bound : Nat) (path : Path) (id : NodeId) (edge : Option Edge) (nodeClass : Class) (doc : Draft),
    (m.tree.node id).nodeClass = some nodeClass →
    Printer.ofClass ⟨m, ⟨id, edge⟩ :: path, m.printAt bound⟩ id nodeClass = .ok doc → doc.isEmpty →
    m.tree.isOrderPlace edge = false →
      Printer.commentDocs? ⟨m, ⟨id, edge⟩ :: path, m.printAt bound⟩ id = none ∧
        (Printer.flags ⟨m, ⟨id, edge⟩ :: path, m.printAt bound⟩).blankAfter = false

/-- The second manuscript is the first one without its comments. -/
structure Twin (r : NodeId → NodeId → Prop) (m m' : Manuscript) : Prop where
  tree : m.tree.Twins r m'.tree
  root : r m.tree.root m'.tree.root
  source : m.source = m'.source
  /-- Branches of a condition have the same place. -/
  branch {e e' : Edge} : e.Twin r e' → (m.occurrences.get e).branch = (m'.occurrences.get e').branch
  /-- The same orders are written. -/
  order {id id' : NodeId} : r id id' → m.tree.isAmong id orderKinds → m.extents.get? id = m'.extents.get? id'
  /-- No node is left as it is. -/
  unignored (id : NodeId) : m.shelf.isIgnored id = false
  /-- No comment stands in the place of members. -/
  body (id : NodeId) : m.tree.isAmong id bodyKinds → m.tree.members id ≠ [] → m.shelf.dangling id = []
  bare : m'.Bare
  heard : m.Heard
  heard' : m'.Heard

end Manuscript

namespace Printer

variable {owner : NodeId} {frames : List Frame} {names : List String}

/-- What is printed at an edge has the same code, and prints nothing for both or for neither, unless the
    edge is that of an order. -/
structure Same (t : Tree) (edge : Option Edge) (doc doc' : Draft) : Prop where
  code : doc.code = doc'.code
  isEmpty : t.isOrderPlace edge = false → doc.isEmpty = doc'.isEmpty

structure Twin (r : NodeId → NodeId → Prop) (p p' : Printer) : Prop where
  manuscript : p.manuscript.Twin r p'.manuscript
  path : Path.Twin r p.path p'.path
  printAt {path path' : Path} {id id' : NodeId} {edge edge' : Option Edge} : Path.Twin r path path' → r id id' →
    Option.Rel (Edge.Twin r) edge edge' → Agree (Same p.tree edge) (p.printAt path id edge) (p'.printAt path' id' edge')

/-! ### Where fields lead -/

inductive Destination.Twin (r : NodeId → NodeId → Prop) : Destination → Destination → Prop where
  | mk {frames frames' : List Frame} {owner owner' : NodeId} {slot : UInt16} {value value' : Value}
    (further : Path.Twin r frames frames') (owners : r owner owner') (values : value.Twin r value') :
    Twin r ⟨frames, owner, slot, value⟩ ⟨frames', owner', slot, value'⟩

theorem fst_of_slot? {node : Node} {name : String} {slot : Nat} {field : String × Value}
    (found : node.slot? name = some slot) (there : node.fields[slot]? = some field) : field.1 = name := by
  obtain ⟨inside, named, -⟩ := List.findIdx?_eq_some_iff_getElem.mp found
  obtain ⟨_, rfl⟩ := List.getElem?_eq_some_iff.mp there
  simpa using named

/-- The last of the names is that of the field they lead to. -/
theorem follow?_field {tree : Tree} {d : Destination}
    (leads : follow? tree owner frames names = some d) :
    ∃ name ∈ names, ∃ slot : Nat, d.slot = slot.toUInt16 ∧ (tree.node d.owner).fields[slot]? = some (name, d.value) := by
  induction names generalizing owner frames with
  | nil => cases leads
  | cons name names ih =>
    simp only [follow?, Option.bind_eq_bind, Option.bind_eq_some_iff] at leads
    obtain ⟨slot, found, ⟨key, value⟩, there, further⟩ := leads
    cases names with
    | nil =>
      obtain rfl : key = name := fst_of_slot? found there
      obtain rfl := Option.some.inj further
      exact ⟨key, List.mem_cons_self, slot, rfl, there⟩
    | cons next names =>
      obtain ⟨child, -, below⟩ := Option.bind_eq_some_iff.mp further
      obtain ⟨last, member, at_last⟩ := ih below
      exact ⟨last, List.mem_cons_of_mem _ member, at_last⟩

theorem follow?_twin {t t' : Tree} (twins : t.Twins r t') (shown : hiddenField ∉ names)
    {owner' : NodeId} (here : r owner owner') {frames' : List Frame} (before : Path.Twin r frames frames') :
    Option.Rel (Destination.Twin r) (follow? t owner frames names) (follow? t' owner' frames' names) := by
  induction names generalizing owner owner' frames frames' with
  | nil => exact .none
  | cons name names ih =>
    simp only [List.mem_cons, not_or] at shown
    have same_slot := (twins here).slot? name
    simp only [follow?, Option.bind_eq_bind, ← same_slot]
    cases found : (t.node owner).slot? name with
    | none => exact .none
    | some slot =>
      have rel := forall₂_getElem? (twins here).fields slot
      simp only [Option.bind_some]
      cases there : (t.node owner).fields[slot]? with
      | none =>
        cases there' : (t'.node owner').fields[slot]? with
        | none => exact .none
        | some => simp [there, there'] at rel
      | some field =>
        cases there' : (t'.node owner').fields[slot]? with
        | none => simp [there, there'] at rel
        | some field' =>
          rw [there, there'] at rel
          cases rel with
          | some both =>
            have named : field.1 = name := fst_of_slot? found there
            have twin := both.2.resolve_left fun hidden => shown.1 (hidden ▸ named)
            simp only [Option.bind_some]
            cases names with
            | nil => exact .some (.mk before here twin)
            | cons next names =>
              refine bind_rel twin.node? fun child child' below => ih shown.2 below ?_
              exact List.rel_append before (.cons ⟨below, .some ⟨here, rfl, rfl⟩⟩ .nil)

/-- The names of fields that are printed, and not those of hidden tokens or orders. -/
def isOpen (names : List String) : Bool := names.all fun name => !(hiddenField :: orderFields).contains name

@[simp] theorem isOpen_nil : isOpen [] := rfl

@[simp] theorem isOpen_cons {name : String} :
    isOpen (name :: names) ↔ (name ≠ "hiddenTokenMap" ∧ name ≠ "order" ∧ name ≠ "nullOrder") ∧ isOpen names := by
  simp [isOpen, hiddenField, orderFields]

theorem not_mem_of_isOpen (shown : isOpen names) : hiddenField ∉ names := by
  intro member
  have absent := List.all_eq_true.mp shown hiddenField member
  simp at absent

theorem Destination.isOrderPlace {tree : Tree} {d : Destination}
    (leads : follow? tree owner frames names = some d) (shown : isOpen names) (index : Option Nat) :
    tree.isOrderPlace (some ⟨d.owner, d.slot, index⟩) = false := by
  obtain ⟨name, member, slot, same, there⟩ := follow?_field leads
  have absent := List.all_eq_true.mp shown name member
  simp only [List.contains_cons, Bool.not_or, Bool.and_eq_true, Bool.not_eq_true'] at absent
  have listed : (name, slot) ∈ ((tree.node d.owner).fields.map (·.1)).zipIdx := by
    rw [List.mk_mem_zipIdx_iff_getElem?, List.getElem?_map, there]
    rfl
  refine List.all_eq_false.mpr ⟨_, listed, ?_⟩
  simpa [same] using absent.2

theorem extend_twin {t t' : Tree} {path path' : Path} (paths : Path.Twin r path path') {frames' : List Frame}
    (further : Path.Twin r frames frames') : Agree (Path.Twin r) (extend t path frames) (extend t' path' frames') := by
  intro longer longer' ok ok'
  rw [extend_eq ok, extend_eq ok']
  exact List.rel_append (List.rel_reverse further) paths

namespace Twin

variable {α : Type} {p p' : Printer} {names : List String} {path path' : Path}

/-! ### Where the printers are -/

section
variable (twin : p.Twin r p')
include twin

theorem tree : p.tree.Twins r p'.tree := twin.manuscript.tree

theorem current : r p.current p'.current := by
  have paths := twin.path
  simp only [Printer.current]
  generalize p.path = path, p'.path = path' at paths
  cases paths with
  | nil => exact twin.manuscript.root
  | cons first _ => exact first.id

theorem parent? : Option.Rel r p.parent? p'.parent? := by
  have second := forall₂_getElem? twin.path 1
  simp only [Printer.parent?]
  generalize p.path[1]? = frame, p'.path[1]? = frame' at second
  cases second with
  | none => exact .none
  | some both => exact .some both.id

theorem nameAt (level : Nat) : p.nameAt level = p'.nameAt level := by
  have edges := bind_rel (forall₂_getElem? twin.path level) fun _ _ both => both.edge
  simp only [Printer.nameAt]
  generalize (p.path[level]?).bind Frame.edge = edge, (p'.path[level]?).bind Frame.edge = edge' at edges
  cases edges with
  | none => rfl
  | some same => simp only [same.index, twin.tree.fieldName same]

theorem branch : p.flags.branch = p'.flags.branch := by
  have edges := bind_rel (forall₂_getElem? twin.path 0) fun _ _ both => both.edge
  simp only [Printer.flags, List.head?_eq_getElem?]
  generalize (p.path[0]?).bind Frame.edge = edge, (p'.path[0]?).bind Frame.edge = edge' at edges
  cases edges with
  | none => rfl
  | some same => exact twin.manuscript.branch same

theorem moved (paths : Path.Twin r path path') :
    Twin r { p with path } { p' with path := path' } := ⟨twin.manuscript, paths, twin.printAt⟩

theorem outward : Twin r p.outward p'.outward := by
  refine twin.moved ?_
  rw [← List.drop_one, ← List.drop_one]
  exact List.forall₂_drop 1 twin.path

theorem destination? (shown : hiddenField ∉ names) :
    Option.Rel (Destination.Twin r) (p.destination? names) (p'.destination? names) :=
  follow?_twin twin.tree shown twin.current .nil

/-! ### What they print -/

theorem printValue (paths : Path.Twin r path path') {e e' : Edge}
    (edges : e.Twin r e') {v v' : Value} (values : v.Twin r v') :
    Agree (Same p.tree (some e)) (p.printValue path e v) (p'.printValue path' e' v') := by
  cases values with
  | node here => exact twin.printAt paths here (.some edges)
  | bool value => exact .ok ⟨rfl, fun _ => rfl⟩
  | _ => exact .ok ⟨rfl, fun _ => rfl⟩

theorem print_code (names : List String) (shown : hiddenField ∉ names) :
    Agree (fun doc doc' => doc.code = doc'.code) (p.print names) (p'.print names) := by
  have rel := twin.destination? shown
  simp only [Printer.print]
  generalize p.destination? names = d, p'.destination? names = d' at rel
  cases rel with
  | none => exact .ok rfl
  | some both =>
    obtain ⟨further, owners, values⟩ := both
    refine (extend_twin twin.path further).bind fun path path' paths => ?_
    exact (twin.printValue paths (.at owners ..) values).mono fun _ _ same => same.code

theorem print (names : List String) (shown : isOpen names) :
    Agree Alike (p.print names) (p'.print names) := by
  have rel := twin.destination? (not_mem_of_isOpen shown)
  have places {d : Destination} (leads : p.destination? names = some d) := Destination.isOrderPlace leads shown
  simp only [Printer.print]
  generalize p.destination? names = d, p'.destination? names = d' at rel places
  cases rel with
  | none => exact .ok (.refl _)
  | some both =>
    obtain ⟨further, owners, values⟩ := both
    refine (extend_twin twin.path further).bind fun path path' paths => ?_
    refine (twin.printValue paths (.at owners ..) values).mono fun _ _ same => ?_
    exact ⟨same.code, same.isEmpty (places rfl none)⟩

theorem printItems (paths : Path.Twin r path path') {owner owner' : NodeId} {slot : UInt16}
    (owners : r owner owner') (open_place : ∀ i, p.tree.isOrderPlace (some ⟨owner, slot, some i⟩) = false)
    {items items' : List Value} (each : List.Forall₂ (Value.Twin r) items items') (index : Nat) :
    Agree AlikeAll (p.printItems path owner slot index items) (p'.printItems path' owner' slot index items') := by
  induction each generalizing index with
  | nil => exact .ok .nil
  | cons first _ ih =>
    refine (twin.printValue paths (.at owners ..) first).bind fun doc doc' same => ?_
    refine (ih (index + 1)).bind fun docs docs' rest => .pure (.cons ⟨same.code, same.isEmpty (open_place index)⟩ rest)

theorem printEach (names : List String) (shown : isOpen names) :
    Agree AlikeAll (p.printEach names) (p'.printEach names) := by
  have rel := twin.destination? (not_mem_of_isOpen shown)
  have places {d : Destination} (leads : p.destination? names = some d) := Destination.isOrderPlace leads shown
  simp only [Printer.printEach]
  generalize p.destination? names = d, p'.destination? names = d' at rel places
  cases rel with
  | none => exact .ok .nil
  | some both =>
    obtain ⟨further, owners, values⟩ := both
    cases values with
    | array each =>
      refine (extend_twin twin.path further).bind fun path path' paths => ?_
      exact twin.printItems paths owners (fun i => places rfl (some i)) each 0
    | _ => exact .ok .nil

end

section
variable {related : α → α → Prop} (twin : p.Twin r p') (shown : isOpen names)
include twin shown

theorem one {f f' : Draft → Outcome α}
    (next : ∀ doc doc', doc.code = doc'.code → doc.isEmpty = doc'.isEmpty → Agree related (f doc) (f' doc')) :
    Agree related (p.print names >>= f) (p'.print names >>= f') := (twin.print names shown).doc next

theorem each {f f' : List Draft → Outcome α} (next : ∀ docs docs', docs.map code = docs'.map code →
      docs.isEmpty = docs'.isEmpty → Agree related (f docs) (f' docs')) :
    Agree related (p.printEach names >>= f) (p'.printEach names >>= f') := (twin.printEach names shown).docs next

end

theorem withNode (twin : p.Twin r p') {related : α → α → Prop} {f : Printer → Outcome α} (names : List String)
    (shown : isOpen names) (next : ∀ {q q' : Printer}, q.Twin r q' → Agree related (f q) (f q')) :
    Agree (Option.Rel related) (p.withNode names f) (p'.withNode names f) := by
  have rel := twin.destination? (not_mem_of_isOpen shown)
  simp only [Printer.withNode]
  generalize p.destination? names = d, p'.destination? names = d' at rel
  cases rel with
  | none => exact .ok .none
  | some both =>
    obtain @⟨_, _, _, _, slot, _, _, further, owners, values⟩ := both
    cases values with
    | node here =>
      have last : Frame.Twin r ⟨_, some _⟩ ⟨_, some _⟩ := ⟨here, .some (.at owners slot none)⟩
      refine (extend_twin twin.path (List.rel_append further (.cons last .nil))).bind fun path path' paths => ?_
      exact (next (twin.moved paths)).map fun _ _ here => .some here
    | _ => exact .ok .none

theorem withNodes (twin : p.Twin r p') {related : α → α → Prop} {f : Printer → Outcome α} (names : List String)
    (shown : isOpen names) (next : ∀ {q q' : Printer}, q.Twin r q' → Agree related (f q) (f q')) :
    Agree (List.Forall₂ related) (p.withNodes names f) (p'.withNodes names f) := by
  have at_items {path path' : Path} (paths : Path.Twin r path path') {owner owner' : NodeId} {slot : UInt16}
      (owners : r owner owner') {items items' : List Value} (each : List.Forall₂ (Value.Twin r) items items') (index : Nat) :
      Agree (List.Forall₂ related) (p.withItems path f owner slot index items)
        (p'.withItems path' f owner' slot index items') := by
    induction each generalizing index with
    | nil => exact .ok .nil
    | cons first _ ih =>
      cases first with
      | node here =>
        refine (extend_twin paths (.cons ⟨here, .some (.at owners ..)⟩ .nil)).bind fun inner inner' further => ?_
        refine (next (twin.moved further)).bind fun a b here => ?_
        exact (ih (index + 1)).bind fun rest rest' later => .pure (.cons here later)
      | _ => exact ih (index + 1)
  have rel := twin.destination? (not_mem_of_isOpen shown)
  simp only [Printer.withNodes]
  generalize p.destination? names = d, p'.destination? names = d' at rel
  cases rel with
  | none => exact .ok .nil
  | some both =>
    obtain ⟨further, owners, values⟩ := both
    cases values with
    | array each => exact (extend_twin twin.path further).bind fun path path' paths => at_items paths owners each 0
    | _ => exact .ok .nil

end Twin
end Printer
end ApexLayout
