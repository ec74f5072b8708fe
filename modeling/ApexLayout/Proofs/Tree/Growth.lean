import ApexLayout.Proofs.Occurrence.Edges
import ApexLayout.Tree.Build

/-!
How a tree grows while it is read. Reading a value leaves the nodes that were there, and each node it adds is held by
the value or occurs below a node that was added before. So every node of a tree occurs below its root
(`reaches_ofJson`).
-/
namespace ApexLayout

mutual
def Json.ids : Json → List String
  | .array items => Json.idsIn items
  | .object fields => ((fields.lookup "@id").map Builder.idText).toList ++ Json.idsBelow fields
  | _ => []
def Json.idsIn : List Json → List String
  | [] => []
  | item :: items => item.ids ++ Json.idsIn items
def Json.idsBelow : List (String × Json) → List String
  | [] => []
  | (_, json) :: fields => json.ids ++ Json.idsBelow fields
end

namespace Builder

open Extents (Holds child_iff)

variable {b c d : Builder} {ids more : List String} {held further : NodeId → Prop} {edge : Option Edge} {v : Value}
  {fields : List (String × Json)} {id : NodeId}

def tree (b : Builder) : Tree := ⟨b.nodes⟩

theorem readValue_array {items : List Json} :
    readValue edge b (.array items) = .ok (v, c) ↔
      ∃ values, readItems edge 0 b items = .ok (values, c) ∧ v = .array values := by
  simp only [readValue, bind_eq_ok, pure_eq_ok, Prod.exists, Prod.mk.injEq]
  constructor
  · rintro ⟨values, _, read, rfl, rfl⟩
    exact ⟨values, read, rfl⟩
  · rintro ⟨values, read, rfl⟩
    exact ⟨values, c, read, rfl, rfl⟩

theorem readItems_cons {index : Nat} {item : Json} {items : List Json} {values : List Value} :
    readItems edge index b (item :: items) = .ok (values, d) ↔
      ∃ v c rest, readValue (edge.map ({ · with index := some index })) b item = .ok (v, c) ∧
        readItems edge (index + 1) c items = .ok (rest, d) ∧ values = v :: rest := by
  simp only [readItems, bind_eq_ok, pure_eq_ok, Prod.exists, Prod.mk.injEq]
  constructor
  · rintro ⟨v, c, read, rest, _, later, rfl, rfl⟩
    exact ⟨v, c, rest, read, later, rfl⟩
  · rintro ⟨v, c, rest, read, later, rfl⟩
    exact ⟨v, c, read, rest, d, later, rfl, rfl⟩

def classOf (fields : List (String × Json)) : Option Class :=
  ((fields.lookup "@class").bind Json.string?).map Class.ofName

/-- An object without a reference is a node of its own, with the next number. -/
theorem readValue_object (own : fields.lookup "@reference" = none) :
    readValue edge b (.object fields) = .ok (v, d) ↔
      ∃ kept location c, readFields b.tree.size 0 none (b.start edge fields).2 fields = .ok (kept, location, c) ∧
        v = .node b.tree.size ∧ d = c.finish b.tree.size ⟨classOf fields, kept, location, edge⟩ := by
  simp only [readValue, own, bind_eq_ok, pure_eq_ok, Prod.exists, Prod.mk.injEq]
  constructor
  · rintro ⟨kept, location, c, read, rfl, rfl⟩
    exact ⟨kept, location, c, read, rfl, rfl⟩
  · rintro ⟨kept, location, c, read, rfl, rfl⟩
    exact ⟨kept, location, c, read, rfl, rfl⟩

theorem readValue_reference {reference : Json}
    (refers : fields.lookup "@reference" = some reference) :
    readValue edge b (.object fields) = .ok (v, c) ↔
      c = b ∧ ∃ id, b.target? (idText reference) = some (.node id) ∧ v = .node id := by
  simp only [readValue, refers, bind_eq_ok, pure_eq_ok, Prod.mk.injEq, resolve]
  constructor
  · rintro ⟨id, found, rfl, rfl⟩
    split at found
    · next there =>
      cases found
      exact ⟨rfl, id, there, rfl⟩
    · cases found
    · cases found
  · rintro ⟨rfl, id, there, rfl⟩
    exact ⟨id, by simp [there], rfl, rfl⟩

section
variable (fields : List (String × Json))

theorem target?_register (target : Target) (id : String) :
    (b.register fields target).target? id =
      if (fields.lookup "@id").map idText = some id then some target else b.target? id := by
  unfold register
  cases fields.lookup "@id" with
  | none => simp
  | some own =>
    by_cases same : idText own = id
    · simp [target?, same]
    · have other : (id == idText own) = false := by simpa using Ne.symm same
      simp [target?, List.lookup_cons, other, same]

@[simp] theorem tree_register (target : Target) :
    (b.register fields target).tree = b.tree := by
  unfold register tree
  split <;> rfl

theorem tree_start :
    (b.start edge fields).2.tree = ⟨b.nodes.push { origin := edge }⟩ := tree_register fields _

theorem size_start : (b.start edge fields).2.tree.size = b.tree.size + 1 := by
  rw [tree_start]
  simp [tree, Tree.size]

theorem node_start (inside : id < b.tree.size) :
    (b.start edge fields).2.tree.node id = b.tree.node id := by
  simp only [Tree.size, tree] at inside
  rw [tree_start]
  simp [tree, Tree.node, Array.getElem?_push, Nat.ne_of_lt inside]

theorem target?_start (id : String) :
    (b.start edge fields).2.target? id =
      if (fields.lookup "@id").map idText = some id then some (.node b.tree.size) else b.target? id :=
  target?_register fields _ id

end

theorem size_finish (id : NodeId) (node : Node) : (b.finish id node).tree.size = b.tree.size := by
  simp [finish, tree, Tree.size]

theorem node_finish_self (node : Node) (inside : id < b.tree.size) :
    (b.finish id node).tree.node id = node := by
  simp only [Tree.size, tree] at inside
  simp [finish, tree, Tree.node, inside]

theorem node_finish_of_ne {other : NodeId} (node : Node) (differ : other ≠ id) :
    (b.finish id node).tree.node other = b.tree.node other := by
  simp [finish, tree, Tree.node, Ne.symm differ]

structure Keeps (b c : Builder) : Prop where
  size : b.tree.size ≤ c.tree.size
  node {id : NodeId} : id < b.tree.size → c.tree.node id = b.tree.node id

/-- The nodes that were there are left, as is what other ids than these stood for, and every other node
    is held, or occurs below a node that was added before it. -/
structure Grows (b c : Builder) (ids : List String) (held : NodeId → Prop) : Prop extends Keeps b c where
  target {id : String} : id ∉ ids → c.target? id = b.target? id
  held {id : NodeId} : b.tree.size ≤ id → id < c.tree.size →
    held id ∨ ∃ parent, b.tree.size ≤ parent ∧ parent < id ∧ c.tree.Child parent id

theorem child_congr {t t' : Tree} {parent child : NodeId} (same : t'.node parent = t.node parent)
    (below : t.Child parent child) : t'.Child parent child := by
  rw [child_iff] at below ⊢
  rwa [same]

theorem Keeps.refl (b : Builder) : Keeps b b := ⟨Nat.le_refl _, fun _ => rfl⟩

theorem Keeps.trans (first : Keeps b c) (second : Keeps c d) : Keeps b d :=
  ⟨Nat.le_trans first.size second.size,
    fun inside => (second.node (Nat.lt_of_lt_of_le inside first.size)).trans (first.node inside)⟩

theorem Grows.refl (b : Builder) : Grows b b ids held :=
  ⟨.refl b, fun _ => rfl, fun from_here inside => absurd inside (Nat.not_lt.2 from_here)⟩

theorem Grows.trans (first : Grows b c ids held) (second : Grows c d more further) :
    Grows b d (ids ++ more) fun id => held id ∨ further id where
  toKeeps := first.toKeeps.trans second.toKeeps
  target absent := by
    simp only [List.mem_append, not_or] at absent
    rw [second.target absent.2, first.target absent.1]
  held {id} from_here inside := by
    by_cases early : id < c.tree.size
    · rcases first.held from_here early with direct | ⟨parent, added, before, below⟩
      · exact .inl (.inl direct)
      · exact .inr ⟨parent, added, before, child_congr (second.node (Nat.lt_trans before early)) below⟩
    · rcases second.held (Nat.not_lt.1 early) inside with direct | ⟨parent, added, before, below⟩
      · exact .inl (.inr direct)
      · exact .inr ⟨parent, Nat.le_trans first.size added, before, below⟩

theorem Grows.mono (grows : Grows b c ids held) (among : ∀ id ∈ ids, id ∈ more)
    (also : ∀ id, held id → further id) : Grows b c more further where
  toKeeps := grows.toKeeps
  target absent := grows.target fun member => absent (among _ member)
  held from_here inside := (grows.held from_here inside).imp_left (also _)

theorem Keeps.room (keeps : Keeps (b.start edge fields).2 c) :
    b.tree.size < c.tree.size := by
  have size := keeps.size
  rw [size_start] at size
  exact size

theorem Keeps.finish (keeps : Keeps (b.start edge fields).2 c) (node : Node) :
    Keeps b (c.finish b.tree.size node) := by
  refine ⟨?_, fun {id} inside => ?_⟩
  · rw [size_finish]
    exact Nat.le_of_lt keeps.room
  · have started : id < (b.start edge fields).2.tree.size := by
      rw [size_start]
      exact Nat.lt_succ_of_lt inside
    rw [node_finish_of_ne _ (Nat.ne_of_lt inside), keeps.node started, node_start fields inside]

/-- A node is there for itself, and what its fields hold occurs below it. -/
theorem Grows.finish {node : Node}
    (grows : Grows (b.start edge fields).2 c ids fun id => ∃ field ∈ node.fields, Holds field.2 id) :
    Grows b (c.finish b.tree.size node) (((fields.lookup "@id").map idText).toList ++ ids)
      (Holds (.node b.tree.size)) := by
  refine ⟨grows.toKeeps.finish node, fun {id} absent => ?_, fun {id} from_here inside => ?_⟩
  · simp only [List.mem_append, Option.mem_toList, not_or] at absent
    exact (grows.target absent.2).trans (by rw [target?_start, if_neg absent.1])
  · rw [size_finish] at inside
    rcases Nat.eq_or_lt_of_le from_here with rfl | later
    · exact .inl (.node _)
    · refine .inr ?_
      have added : (b.start edge fields).2.tree.size ≤ id := by
        rw [size_start]
        exact later
      rcases grows.held added inside with ⟨field, member, holds⟩ | ⟨parent, after, before, below⟩
      · refine ⟨_, Nat.le_refl _, later, ?_⟩
        rw [child_iff, node_finish_self _ grows.room]
        exact ⟨field.2, List.mem_map_of_mem member, holds⟩
      · rw [size_start] at after
        have other := node_finish_of_ne (b := c) node (Nat.ne_of_gt after)
        exact ⟨parent, Nat.le_of_succ_le after, before, child_congr other below⟩

theorem grows_readLocation (b : Builder) (json : Json) : Grows b (b.readLocation json).2 json.ids held := by
  unfold readLocation
  split
  · next fields =>
    split
    · split <;> exact .refl b
    · split
      · next span _ =>
        refine ⟨⟨by simp, by simp⟩, fun absent => ?_, fun from_here inside => ?_⟩
        · rw [target?_register, if_neg]
          intro own
          exact absent (by simp [Json.ids, own])
        · simp at inside
          exact absurd inside (Nat.not_lt.2 from_here)
      · exact .refl b
  · exact .refl b

mutual
theorem grows_readValue (json : Json) {b c : Builder} {edge : Option Edge} {v : Value}
    (read : readValue edge b json = .ok (v, c)) : Grows b c json.ids (Holds v) := by
  cases json with
  | array items =>
    obtain ⟨values, inner, rfl⟩ := readValue_array.mp read
    refine (grows_readItems items inner).mono (by simp [Json.ids]) ?_
    rintro id ⟨value, member, holds⟩
    exact .array member holds
  | object fields =>
    cases refers : fields.lookup "@reference" with
    | some reference =>
      obtain ⟨rfl, -⟩ := (readValue_reference refers).mp read
      exact .refl c
    | none =>
      obtain ⟨kept, location, d, inner, rfl, rfl⟩ := (readValue_object refers).mp read
      exact (grows_readFields fields inner).finish
  | _ =>
    cases read
    exact .refl b
theorem grows_readItems (items : List Json) {b c : Builder} {edge : Option Edge} {index : Nat} {values : List Value}
    (read : readItems edge index b items = .ok (values, c)) :
    Grows b c (Json.idsIn items) fun id => ∃ value ∈ values, Holds value id := by
  cases items with
  | nil =>
    cases read
    exact .refl b
  | cons item items =>
    obtain ⟨v, d, rest, first, later, rfl⟩ := readItems_cons.mp read
    refine ((grows_readValue item first).trans (grows_readItems items later)).mono (by simp [Json.idsIn]) ?_
    rintro id (holds | ⟨value, member, holds⟩)
    · exact ⟨v, List.mem_cons_self, holds⟩
    · exact ⟨value, List.mem_cons_of_mem _ member, holds⟩
theorem grows_readFields (fields : List (String × Json)) {b c : Builder} {id : NodeId} {slot : UInt16}
    {location last : Option Span} {kept : List (String × Value)}
    (read : readFields id slot location b fields = .ok (kept, last, c)) :
    Grows b c (Json.idsBelow fields) fun id => ∃ field ∈ kept, Holds field.2 id := by
  cases fields with
  | nil =>
    cases read
    exact .refl b
  | cons field fields =>
    obtain ⟨name, json⟩ := field
    rw [readFields] at read
    split at read
    · exact (grows_readFields fields read).mono (by simp +contextual [Json.idsBelow]) fun _ holds => holds
    · split at read
      · exact ((grows_readLocation b json).trans (grows_readFields fields read)).mono (by simp [Json.idsBelow])
          fun _ holds => holds.resolve_left not_false
      · simp only [bind_eq_ok, pure_eq_ok, Prod.exists, Prod.mk.injEq] at read
        obtain ⟨v, d, first, rest, _, _, later, rfl, rfl, rfl⟩ := read
        refine ((grows_readValue json first).trans (grows_readFields fields later)).mono (by simp [Json.idsBelow]) ?_
        rintro id (holds | ⟨field, member, holds⟩)
        · exact ⟨_, List.mem_cons_self, holds⟩
        · exact ⟨field, List.mem_cons_of_mem _ member, holds⟩
end

theorem node_of_readValue_empty (read : readValue edge {} (.object fields) = .ok (v, b)) : v = .node 0 := by
  cases refers : fields.lookup "@reference" with
  | some reference =>
    obtain ⟨-, _, there, -⟩ := (readValue_reference refers).mp read
    cases there
  | none =>
    obtain ⟨_, _, _, -, first, -⟩ := (readValue_object refers).mp read
    exact first

end Builder

theorem Tree.ofJson_eq_ok {json : Json} {t : Tree} (read : Tree.ofJson json = .ok t) :
    ∃ b, Builder.readValue none {} json = .ok (.node 0, b) ∧ t = b.tree := by
  cases json with
  | object fields =>
    simp only [Tree.ofJson, bind_eq_ok, pure_eq_ok, Prod.exists] at read
    obtain ⟨v, b, inner, rfl⟩ := read
    obtain rfl := Builder.node_of_readValue_empty inner
    exact ⟨b, inner, rfl⟩
  | _ => cases read

theorem Tree.reaches_ofJson {json : Json} {t : Tree} (read : Tree.ofJson json = .ok t) {id : NodeId}
    (inside : id < t.size) : Relation.ReflTransGen t.Child t.root id := by
  obtain ⟨b, inner, rfl⟩ := Tree.ofJson_eq_ok read
  have grows := Builder.grows_readValue _ inner
  induction id using Nat.strongRecOn with
  | ind id ih =>
    rcases grows.held (Nat.zero_le id) inside with holds | ⟨parent, -, before, below⟩
    · cases holds
      exact .refl
    · exact (ih parent before (Nat.lt_trans before inside)).tail below

end ApexLayout
