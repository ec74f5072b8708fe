import ApexLayout.Tree.Basic
import Mathlib.Data.List.Forall2
import Mathlib.Data.Option.Basic

/-!
Twin trees: two trees with a relation between their nodes under which related nodes have the same class and location,
and fields of the same names with related values. Only the hidden tokens may differ.
-/
namespace ApexLayout

def hiddenField : String := "hiddenTokenMap"

variable {r : NodeId → NodeId → Prop}

/-- The values are the same but for the numbers of their nodes, which are related. -/
inductive Value.Twin (r : NodeId → NodeId → Prop) : Value → Value → Prop where
  | null : Twin r .null .null
  | bool (value : Bool) : Twin r (.bool value) (.bool value)
  | number (value : Number) : Twin r (.number value) (.number value)
  | string (value : String) : Twin r (.string value) (.string value)
  | node {id id' : NodeId} (here : r id id') : Twin r (.node id) (.node id')
  | array {items items' : List Value} (each : List.Forall₂ (Twin r) items items') : Twin r (.array items) (.array items')

structure Edge.Twin (r : NodeId → NodeId → Prop) (e e' : Edge) : Prop where
  parent : r e.parent e'.parent
  slot : e.slot = e'.slot
  index : e.index = e'.index

/-- The same field, with values that are related unless it holds the hidden tokens. -/
def fieldTwin (r : NodeId → NodeId → Prop) (field field' : String × Value) : Prop :=
  field.1 = field'.1 ∧ (field.1 = hiddenField ∨ field.2.Twin r field'.2)

structure Node.Twin (r : NodeId → NodeId → Prop) (n n' : Node) : Prop where
  nodeClass : n.nodeClass = n'.nodeClass
  fields : List.Forall₂ (fieldTwin r) n.fields n'.fields
  location : n.location = n'.location
  origin : Option.Rel (Edge.Twin r) n.origin n'.origin

def Tree.Twins (r : NodeId → NodeId → Prop) (t t' : Tree) : Prop :=
  ∀ ⦃id id' : NodeId⦄, r id id' → (t.node id).Twin r (t'.node id')

section
variable {α β γ δ : Type} {s : α → β → Prop} {s' : γ → δ → Prop} {a : Option α} {b : Option β}

theorem map_eq_of_rel {f : α → γ} {g : β → γ} (rel : Option.Rel s a b) (same : ∀ x y, s x y → f x = g y) :
    a.map f = b.map g := by
  cases rel with
  | none => rfl
  | some here => simp [same _ _ here]

theorem bind_rel {f : α → Option γ} {g : β → Option δ} (rel : Option.Rel s a b)
    (next : ∀ x y, s x y → Option.Rel s' (f x) (g y)) : Option.Rel s' (a.bind f) (b.bind g) := by
  cases rel with
  | none => exact .none
  | some here => exact next _ _ here

theorem bind_eq_of_rel {f : α → Option γ} {g : β → Option γ} (rel : Option.Rel s a b)
    (same : ∀ x y, s x y → f x = g y) : a.bind f = b.bind g := by
  cases rel with
  | none => rfl
  | some here => exact same _ _ here

theorem isSome_eq_of_rel (rel : Option.Rel s a b) : a.isSome = b.isSome := by
  cases rel with
  | none => rfl
  | some => rfl

end

namespace Value

variable {v v' : Value}

theorem Twin.node? (twin : v.Twin r v') : Option.Rel r v.node? v'.node? := by
  cases twin with
  | node here => exact .some here
  | _ => exact .none

theorem Twin.string? (twin : v.Twin r v') : v.string? = v'.string? := by cases twin <;> rfl

theorem Twin.bool? (twin : v.Twin r v') : v.bool? = v'.bool? := by cases twin <;> rfl

theorem Twin.isNull (twin : v.Twin r v') : v.isNull = v'.isNull := by cases twin <;> rfl

theorem Twin.array? (twin : v.Twin r v') : Option.Rel (List.Forall₂ (Twin r)) v.array? v'.array? := by
  cases twin with
  | array each => exact .some each
  | _ => exact .none

end Value

theorem forall₂_filterMap_node? {items items' : List Value} (each : List.Forall₂ (Value.Twin r) items items') :
    List.Forall₂ r (items.filterMap Value.node?) (items'.filterMap Value.node?) := by
  induction each with
  | nil => exact .nil
  | cons first _ ih =>
    cases first with
    | node here => exact .cons here ih
    | _ => exact ih

theorem forall₂_getElem? {α β : Type} {s : α → β → Prop} {xs : List α} {ys : List β} (each : List.Forall₂ s xs ys)
    (i : Nat) : Option.Rel s xs[i]? ys[i]? := by
  induction each generalizing i with
  | nil => exact .none
  | cons here _ ih =>
    cases i with
    | zero => exact .some here
    | succ i => exact ih i

theorem map_name_eq {fields fields' : List (String × Value)} (each : List.Forall₂ (fieldTwin r) fields fields') :
    fields.map (·.1) = fields'.map (·.1) := by
  induction each with
  | nil => rfl
  | cons first _ ih => simp [first.1, ih]

namespace Node.Twin

variable {n n' : Node} {name : String}

theorem slot? (twin : n.Twin r n') (name : String) : n.slot? name = n'.slot? name := by
  have by_name (node : Node) : node.slot? name = (node.fields.map (·.1)).findIdx? (· == name) := by
    simp [Node.slot?, List.findIdx?_map, Function.comp_def]
  rw [by_name, by_name, map_name_eq twin.fields]

theorem field? (twin : n.Twin r n') (open_field : name ≠ hiddenField) :
    Option.Rel (Value.Twin r) (n.field? name) (n'.field? name) := by
  obtain ⟨_, fields, _, _⟩ := n
  obtain ⟨_, fields', _, _⟩ := n'
  have each := twin.fields
  simp only [Node.field?] at each ⊢
  clear twin
  induction each with
  | nil => exact .none
  | @cons first first' _ _ here _ ih =>
    obtain ⟨key, value⟩ := first
    obtain ⟨key', value'⟩ := first'
    obtain ⟨same, related⟩ := here
    simp only at same related
    subst same
    by_cases found : name = key
    · subst found
      simpa [List.lookup_cons] using Option.Rel.some (related.resolve_left open_field)
    · have differs : (name == key) = false := by simpa using found
      simpa [List.lookup_cons, differs] using ih

end Node.Twin

namespace Tree.Twins

variable {t t' : Tree} {id id' : NodeId} {name : String}

section
variable (twins : Twins r t t') (here : r id id')
include twins here

theorem nodeClass : (t.node id).nodeClass = (t'.node id').nodeClass :=
  (twins here).nodeClass

theorem kind? : t.kind? id = t'.kind? id' := by
  simp [Tree.kind?, Node.kind?, twins.nodeClass here]

theorem isKind (kind : Kind) : t.isKind id kind = t'.isKind id' kind := by
  simp [Tree.isKind, twins.kind? here]

theorem isAmong (kinds : List Kind) :
    t.isAmong id kinds = t'.isAmong id' kinds := by
  simp [Tree.isAmong, twins.kind? here]

theorem hasClass : t.hasClass id = t'.hasClass id' := by
  simp [Tree.hasClass, twins.nodeClass here]

theorem className : t.className id = t'.className id' := by
  simp [Tree.className, twins.nodeClass here]

end

theorem fieldName (twins : Twins r t t') {e e' : Edge} (same : e.Twin r e') : t.fieldName e = t'.fieldName e' := by
  simp only [Tree.fieldName, ← same.slot]
  rw [map_eq_of_rel (forall₂_getElem? (twins same.parent).fields e.slot.toNat) fun field field' twin => twin.1]

section
variable (twins : Twins r t t') (here : r id id') (open_field : name ≠ hiddenField)
include twins here open_field

theorem field? :
    Option.Rel (Value.Twin r) (t.field? id name) (t'.field? id' name) :=
  (twins here).field? open_field

theorem child? :
    Option.Rel r (t.child? id name) (t'.child? id' name) :=
  bind_rel (twins.field? here open_field) fun _ _ twin => twin.node?

theorem string? :
    t.string? id name = t'.string? id' name :=
  bind_eq_of_rel (twins.field? here open_field) fun _ _ twin => twin.string?

theorem flag :
    t.flag id name = t'.flag id' name := by
  rw [Tree.flag, Tree.flag, bind_eq_of_rel (twins.field? here open_field) fun _ _ twin => twin.bool?]

theorem constant? :
    t.constant? id name = t'.constant? id' name :=
  bind_eq_of_rel (twins.child? here open_field) fun _ _ below => twins.string? below (by simp [hiddenField])

theorem optional? :
    Option.Rel (Value.Twin r) (t.optional? id name) (t'.optional? id' name) := by
  have held := twins.field? here open_field
  have wrapped := twins.child? here open_field
  simp only [Tree.optional?]
  generalize t.child? id name = child, t'.child? id' name = child' at wrapped
  cases wrapped with
  | none => exact .none
  | some below =>
    simp only [twins.hasClass below]
    split
    · exact held
    · have inner := twins.field? below (by simp [hiddenField] : "value" ≠ hiddenField)
      generalize t.field? _ "value" = value, t'.field? _ "value" = value' at inner
      cases inner with
      | none => exact .none
      | some twin =>
        simp only [Option.filter_some, twin.isNull]
        split
        · exact .some twin
        · exact .none

theorem optionalChild? :
    Option.Rel r (t.optionalChild? id name) (t'.optionalChild? id' name) :=
  bind_rel (twins.optional? here open_field) fun _ _ twin => twin.node?

theorem items :
    List.Forall₂ (Value.Twin r) (t.items id name) (t'.items id' name) := by
  have rel := bind_rel (twins.field? here open_field) fun _ _ twin => twin.array?
  simp only [Tree.items]
  generalize (t.field? id name).bind Value.array? = found, (t'.field? id' name).bind Value.array? = found' at rel
  cases rel with
  | none => exact .nil
  | some each => exact each

theorem nodesIn :
    List.Forall₂ r (t.nodesIn id name) (t'.nodesIn id' name) :=
  forall₂_filterMap_node? (twins.items here open_field)

end

end Tree.Twins
end ApexLayout
