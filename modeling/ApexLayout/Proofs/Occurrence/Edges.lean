import ApexLayout.Extent.Basic
import ApexLayout.Proofs.Outcome
import Mathlib.Logic.Relation

/-!
What occurs at an edge: nodes in the value of its field, and at a place of an array only what is
there. A slot has sixteen bits, so that it names one field only below nodes with few of them (`Tree.Narrow`).
What stands below a node is what its values hold, at any depth.
-/
namespace ApexLayout

/-- A slot names one of the fields: there are no more of them than sixteen bits count. -/
def Node.IsNarrow (node : Node) : Prop := node.fields.length ≤ UInt16.size

instance (node : Node) : Decidable node.IsNarrow := inferInstanceAs (Decidable (_ ≤ _))

theorem Node.IsNarrow.toNat_slot {node : Node} (narrow : node.IsNarrow) {slot : Nat} {field : String × Value}
    (there : node.fields[slot]? = some field) : slot.toUInt16.toNat = slot := by
  obtain ⟨inside, -⟩ := List.getElem?_eq_some_iff.mp there
  exact UInt16.toNat_ofNat_of_lt' (Nat.lt_of_lt_of_le inside narrow)

theorem Node.IsNarrow.slot_inj {node : Node} (narrow : node.IsNarrow) {a b : Nat} {first second : String × Value}
    (here : node.fields[a]? = some first) (there : node.fields[b]? = some second) (same : a.toUInt16 = b.toUInt16) :
    a = b := by
  rw [← narrow.toNat_slot here, ← narrow.toNat_slot there, same]

namespace Tree

variable {t : Tree} {id child : NodeId} {name : String} {slot : Nat} {edge : Edge}

mutual
theorem place_of_mem_occurrences (value : Value) {edge found : Edge} (member : (found, child) ∈ occurrences edge value) :
    found.parent = edge.parent ∧ found.slot = edge.slot := by
  cases value with
  | node other =>
    obtain ⟨rfl, -⟩ : found = edge ∧ child = other := by simpa [occurrences] using member
    exact ⟨rfl, rfl⟩
  | array items => exact place_of_mem_occurrencesFrom items member
  | _ => simp [occurrences] at member
theorem place_of_mem_occurrencesFrom (items : List Value) {edge found : Edge} {index : Nat}
    (member : (found, child) ∈ occurrencesFrom edge index items) :
    found.parent = edge.parent ∧ found.slot = edge.slot := by
  cases items with
  | nil => simp [occurrencesFrom] at member
  | cons item items =>
    rw [occurrencesFrom] at member
    rcases List.mem_append.1 member with first | later
    · have placed := place_of_mem_occurrences item first
      exact placed
    · exact place_of_mem_occurrencesFrom items later
end

theorem mem_children : (edge, child) ∈ t.children id ↔ ∃ (slot : Nat) (field : String × Value),
    (t.node id).fields[slot]? = some field ∧ (edge, child) ∈ occurrences ⟨id, slot.toUInt16, none⟩ field.2 := by
  simp only [children, List.mem_flatten, List.mem_map]
  constructor
  · rintro ⟨_, ⟨⟨field, slot⟩, there, rfl⟩, occurs⟩
    exact ⟨slot, field, List.mk_mem_zipIdx_iff_getElem?.mp there, occurs⟩
  · rintro ⟨slot, field, there, occurs⟩
    exact ⟨_, ⟨(field, slot), List.mk_mem_zipIdx_iff_getElem?.mpr there, rfl⟩, occurs⟩

theorem parent_of_mem_children (member : (edge, child) ∈ t.children id) : edge.parent = id := by
  obtain ⟨slot, field, -, occurs⟩ := mem_children.mp member
  exact (place_of_mem_occurrences field.2 occurs).1

/-- What occurs in an array that holds no further ones are the nodes at its places. -/
theorem mem_occurrencesFrom_iff {items : List Value} (flat : ∀ inner, .array inner ∉ items) {found : Edge} {index : Nat} :
    (found, child) ∈ occurrencesFrom edge index items ↔
      ∃ i, found = { edge with index := some (index + i) } ∧ items[i]? = some (.node child) := by
  induction items generalizing index with
  | nil => simp [occurrencesFrom]
  | cons item items ih =>
    have first : (found, child) ∈ occurrences { edge with index := some index } item ↔
        found = { edge with index := some index } ∧ item = .node child := by
      cases item with
      | node other => simp [occurrences, eq_comm]
      | array inner => exact absurd List.mem_cons_self (flat inner)
      | _ => simp [occurrences]
    have later := @ih (fun inner member => flat inner (List.mem_cons_of_mem _ member)) (index + 1)
    rw [occurrencesFrom, List.mem_append, first, later]
    constructor
    · rintro (⟨rfl, rfl⟩ | ⟨i, rfl, there⟩)
      · exact ⟨0, rfl, rfl⟩
      · exact ⟨i + 1, by rw [show index + (i + 1) = index + 1 + i by omega], there⟩
    · rintro ⟨i, rfl, there⟩
      cases i with
      | zero => exact .inl ⟨rfl, by simpa using there⟩
      | succ i => exact .inr ⟨i, by rw [show index + (i + 1) = index + 1 + i by omega], there⟩

/-- No node keeps more fields than sixteen bits count. -/
def Narrow (t : Tree) : Prop := ∀ id, (t.node id).IsNarrow

theorem narrow_of_all (all : ∀ node ∈ t.nodes, node.IsNarrow) : t.Narrow := by
  intro id
  cases there : t.nodes[id]? with
  | none => simp [node, there, Node.IsNarrow]
  | some found => simpa [node, there] using all found (Array.mem_of_getElem? there)

theorem fieldName_of_slot {field : String × Value} (narrow : (t.node id).IsNarrow)
    (there : (t.node id).fields[slot]? = some field) (index : Option Nat) :
    t.fieldName ⟨id, slot.toUInt16, index⟩ = field.1 := by
  rw [fieldName, narrow.toNat_slot there, there]
  rfl

namespace Narrow

variable (narrow : t.Narrow)
include narrow

/-- What occurs at a slot occurs in the field there and in no other. -/
theorem mem_occurrences {value : Value} (there : (t.node id).fields[slot]? = some (name, value))
    (member : (edge, child) ∈ t.children id) (here : edge.slot = slot.toUInt16) :
    (edge, child) ∈ occurrences ⟨id, slot.toUInt16, none⟩ value := by
  obtain ⟨other, field, found, occurs⟩ := mem_children.mp member
  have same := (place_of_mem_occurrences field.2 occurs).2
  obtain rfl : slot = other := (narrow id).slot_inj there found (here.symm.trans same)
  obtain rfl := Option.some.inj (there.symm.trans found)
  exact occurs

theorem eq_of_mem_children {other : NodeId} (there : (t.node id).fields[slot]? = some (name, .node child))
    (member : (⟨id, slot.toUInt16, none⟩, other) ∈ t.children id) : other = child := by
  have occurs := narrow.mem_occurrences there member rfl
  simpa [occurrences] using occurs

theorem getElem?_of_mem_children {ids : List NodeId} {place : Nat}
    (there : (t.node id).fields[slot]? = some (name, .array (ids.map .node)))
    (member : (⟨id, slot.toUInt16, some place⟩, child) ∈ t.children id) : ids[place]? = some child := by
  have occurs := narrow.mem_occurrences there member rfl
  rw [occurrences, mem_occurrencesFrom_iff (by simp)] at occurs
  obtain ⟨i, same, found⟩ := occurs
  obtain rfl : place = i := by simpa using same
  simpa using found

end Narrow
end Tree

def Tree.Child (t : Tree) (p d : NodeId) : Prop := ∃ edge, (edge, d) ∈ t.children p

def Tree.Acyclic (t : Tree) : Prop := ∀ id, ¬ Relation.TransGen t.Child id id

namespace Span

theorem contains_iff {a b : Span} : a.contains b ↔ a.start ≤ b.start ∧ b.stop ≤ a.stop := by
  simp [contains]

/-- The second span, if there is one, lies within the first. -/
def Within (part : Option Span) (whole : Option Span) : Prop :=
  ∀ b, part = some b → ∃ a, whole = some a ∧ a.contains b

theorem Within.none {whole : Option Span} : Within none whole := by simp [Within]

theorem Within.refl (part : Option Span) : Within part part :=
  fun b here => ⟨b, here, contains_iff.mpr ⟨Nat.le_refl _, Nat.le_refl _⟩⟩

theorem Within.trans {a b c : Option Span} (inner : Within a b) (outer : Within b c) : Within a c := by
  intro x here
  obtain ⟨y, between, first⟩ := inner x here
  obtain ⟨z, there, second⟩ := outer y between
  rw [contains_iff] at first second
  exact ⟨z, there, contains_iff.mpr ⟨by omega, by omega⟩⟩

theorem within_cover?_left (a b : Option Span) : Within a (cover? a b) := by
  rcases a with _ | a
  · exact .none
  · rcases b with _ | b
    · exact .refl _
    · intro x here
      obtain rfl := Option.some.inj here
      exact ⟨_, rfl, contains_iff.mpr ⟨Nat.min_le_left _ _, Nat.le_max_left _ _⟩⟩

theorem within_cover?_right (a b : Option Span) : Within b (cover? a b) := by
  rcases b with _ | b
  · exact .none
  · rcases a with _ | a
    · exact .refl _
    · intro x here
      obtain rfl := Option.some.inj here
      exact ⟨_, rfl, contains_iff.mpr ⟨Nat.min_le_right _ _, Nat.le_max_right _ _⟩⟩

end Span

namespace Extents

open ApexLayout.Span

variable {id p d : NodeId} {t : Tree}

/-- The node stands in the value. -/
inductive Holds : Value → NodeId → Prop where
  | node (id : NodeId) : Holds (.node id) id
  | array {items : List Value} {item : Value} {id : NodeId} (member : item ∈ items) (inner : Holds item id) :
      Holds (.array items) id

mutual
theorem holds_of_mem_occurrences (value : Value) {edge found : Edge} {id : NodeId}
    (member : (found, id) ∈ Tree.occurrences edge value) : Holds value id := by
  cases value with
  | node other =>
    obtain ⟨_, rfl⟩ : found = edge ∧ id = other := by simpa [Tree.occurrences] using member
    exact .node id
  | array items =>
    obtain ⟨item, inside, holds⟩ := holds_of_mem_occurrencesFrom items member
    exact .array inside holds
  | _ => simp [Tree.occurrences] at member
theorem holds_of_mem_occurrencesFrom (items : List Value) {edge found : Edge} {index : Nat} {id : NodeId}
    (member : (found, id) ∈ Tree.occurrencesFrom edge index items) : ∃ item ∈ items, Holds item id := by
  cases items with
  | nil => simp [Tree.occurrencesFrom] at member
  | cons item items =>
    rw [Tree.occurrencesFrom] at member
    rcases List.mem_append.mp member with first | later
    · exact ⟨item, List.mem_cons_self, holds_of_mem_occurrences item first⟩
    · obtain ⟨other, inside, holds⟩ := holds_of_mem_occurrencesFrom items later
      exact ⟨other, List.mem_cons_of_mem _ inside, holds⟩
end

theorem Holds.mem_occurrences {value : Value} (holds : Holds value id) (edge : Edge) :
    ∃ found, (found, id) ∈ Tree.occurrences edge value := by
  induction holds generalizing edge with
  | node id => exact ⟨edge, by simp [Tree.occurrences]⟩
  | @array items item id member _ ih =>
    rw [Tree.occurrences]
    generalize 0 = index
    induction items generalizing index with
    | nil => simp at member
    | cons first items later =>
      simp only [Tree.occurrencesFrom, List.mem_append]
      rcases List.mem_cons.mp member with rfl | rest
      · obtain ⟨found, there⟩ := ih { edge with index := some index }
        exact ⟨found, .inl there⟩
      · obtain ⟨found, there⟩ := later rest (index + 1)
        exact ⟨found, .inr there⟩

theorem child_iff : t.Child p d ↔ ∃ value ∈ (t.node p).fields.map (·.2), Holds value d := by
  simp only [Tree.Child, Tree.mem_children, List.mem_map]
  constructor
  · rintro ⟨found, slot, field, there, occurs⟩
    exact ⟨field.2, ⟨field, List.mem_of_getElem? there, rfl⟩, holds_of_mem_occurrences field.2 occurs⟩
  · rintro ⟨_, ⟨field, member, rfl⟩, holds⟩
    obtain ⟨slot, there⟩ := List.mem_iff_getElem?.mp member
    obtain ⟨found, occurs⟩ := holds.mem_occurrences ⟨p, slot.toUInt16, none⟩
    exact ⟨found, slot, field, there, occurs⟩

theorem child_size (child : t.Child p d) : p < t.size := by
  by_contra outside
  have missing : t.nodes[p]? = none := Array.getElem?_eq_none (Nat.le_of_not_lt outside)
  obtain ⟨value, member, _⟩ := child_iff.mp child
  simp [Tree.node, missing] at member

theorem above_cons {path : List NodeId} (above : ∀ a ∈ path, Relation.TransGen t.Child a p) (child : t.Child p d) :
    ∀ a ∈ p :: path, Relation.TransGen t.Child a d := by
  intro a on_path
  rcases List.mem_cons.mp on_path with rfl | further
  · exact .single child
  · exact (above a further).tail child

theorem acyclic_of_lt (down : ∀ p < t.size, ∀ below ∈ t.children p, p < below.2) : t.Acyclic := by
  have falls : ∀ {p d}, Relation.TransGen t.Child p d → p < d := by
    intro p d path
    induction path with
    | single child =>
      obtain ⟨edge, member⟩ := child
      exact down _ (child_size ⟨edge, member⟩) _ member
    | tail _ child ih =>
      obtain ⟨edge, member⟩ := child
      exact Nat.lt_trans ih (down _ (child_size ⟨edge, member⟩) _ member)
  exact fun id cycle => Nat.lt_irrefl id (falls cycle)

end Extents
end ApexLayout
