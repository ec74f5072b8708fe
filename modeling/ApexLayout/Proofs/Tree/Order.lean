import ApexLayout.Proofs.Tree.Growth
import Mathlib.Data.Finset.Card
import Mathlib.Data.Finset.Range

/-!
The order of the nodes in a tree. Whoever walks from the root into every node that is met for the first time meets the
nodes in the order of their numbers, and each of them where it is defined (`wellOrdered_ofJson`).
Without references there is one way from the root to each node, and no way back (`Unshared`).
-/
namespace ApexLayout

namespace Tree

/-- Occurrences, as a walk meets them. Only the root is met without an edge. -/
def met (found : List (Edge × NodeId)) : List (Option Edge × NodeId) := found.map fun (edge, id) => (some edge, id)

@[simp] theorem met_append (first rest : List (Edge × NodeId)) : met (first ++ rest) = met first ++ met rest :=
  List.map_append

theorem mem_met {found : List (Edge × NodeId)} {edge : Option Edge} {id : NodeId} :
    (edge, id) ∈ met found ↔ ∃ e, edge = some e ∧ (e, id) ∈ found := by
  simp only [met, List.mem_map, Prod.exists, Prod.mk.injEq]
  constructor
  · rintro ⟨e, _, member, rfl, rfl⟩
    exact ⟨e, rfl, member⟩
  · rintro ⟨e, rfl, member⟩
    exact ⟨e, id, member, rfl, rfl⟩

/-- How many nodes a walk has not met. -/
def unmet (t : Tree) (past : List (Option Edge × NodeId)) : Nat :=
  (Finset.range t.size \ (past.map (·.2)).toFinset).card

theorem unmet_lt (t : Tree) {past : List (Option Edge × NodeId)} (edge : Option Edge) {id : NodeId}
    (first : id < t.size ∧ id ∉ past.map (·.2)) : t.unmet (past ++ [(edge, id)]) < t.unmet past := by
  apply Finset.card_lt_card
  rw [Finset.ssubset_iff_of_subset]
  · exact ⟨id, by simpa using first, by simp⟩
  · apply Finset.sdiff_subset_sdiff (Finset.Subset.refl _)
    simp

/-- Goes on with a depth-first walk. What is met for the first time is added to the past, and what
    occurs below it is met next. -/
def walk (t : Tree) : List (Option Edge × NodeId) → List (Option Edge × NodeId) → List (Option Edge × NodeId)
  | [], past => past
  | (edge, id) :: pending, past =>
    if id < t.size ∧ id ∉ past.map (·.2) then t.walk (met (t.children id) ++ pending) (past ++ [(edge, id)])
    else t.walk pending past
termination_by pending past => (t.unmet past, pending.length)
decreasing_by
  · next first => exact .left _ _ (t.unmet_lt edge first)
  · exact .right _ (Nat.lt_succ_self _)

/-- The nodes in the order in which a depth-first walk from the root first meets them, and the edges at
    which it does. -/
def firstMet (t : Tree) : List (Option Edge × NodeId) := t.walk [(none, t.root)] []

def defined (t : Tree) (size : Nat) : List (Option Edge × NodeId) := (List.range size).map fun id => (t.origin id, id)

/-- The nodes of a tree are all there, each is defined below one before it, and a walk first meets them
    in order and where they are defined. -/
structure WellOrdered (t : Tree) : Prop where
  root : t.root < t.size
  rootless {id : NodeId} : id < t.size → (t.origin id = none ↔ id = t.root)
  inside {id other : NodeId} {field : String × Value} :
    id < t.size → field ∈ (t.node id).fields → Extents.Holds field.2 other → other < t.size
  origin {id : NodeId} : id < t.size → id ≠ t.root →
    ∃ edge, t.origin id = some edge ∧ edge.parent < id ∧ (edge, id) ∈ t.children edge.parent
  firstMet : t.firstMet = t.ids.map fun id => (t.origin id, id)

/-! ### Steps of a walk -/

section
variable {t : Tree} {size : Nat}

theorem defined_succ : t.defined (size + 1) = t.defined size ++ [(t.origin size, size)] := by
  simp [defined, List.range_succ]

theorem mem_defined {id : NodeId} : id ∈ (t.defined size).map (·.2) ↔ id < size := by
  simp [defined]

@[simp] theorem walk_nil (past : List (Option Edge × NodeId)) : t.walk [] past = past := by
  rw [walk]

theorem walk_next (inside : size < t.size) (pending : List (Option Edge × NodeId)) :
    t.walk ((t.origin size, size) :: pending) (t.defined size) =
      t.walk (met (t.children size) ++ pending) (t.defined (size + 1)) := by
  rw [walk, if_pos, defined_succ]
  exact ⟨inside, by simp [mem_defined]⟩

theorem walk_past {id : NodeId} (known : id < size) (edge : Option Edge) (pending : List (Option Edge × NodeId)) :
    t.walk ((edge, id) :: pending) (t.defined size) = t.walk pending (t.defined size) := by
  rw [walk, if_neg]
  rintro ⟨-, unknown⟩
  exact unknown (mem_defined.mpr known)

end

/-- What occurs in fields that are kept from a slot on. -/
def occurrencesIn (id : NodeId) (slot : UInt16) : List (String × Value) → List (Edge × NodeId)
  | [] => []
  | field :: fields => occurrences ⟨id, slot, none⟩ field.2 ++ occurrencesIn id (slot + 1) fields

theorem occurrencesIn_eq (id : NodeId) (fields : List (String × Value)) (slot : Nat) :
    occurrencesIn id slot.toUInt16 fields =
      ((fields.zipIdx slot).map fun entry => occurrences ⟨id, entry.2.toUInt16, none⟩ entry.1.2).flatten := by
  induction fields generalizing slot with
  | nil => rfl
  | cons field fields ih =>
    have next : slot.toUInt16 + 1 = (slot + 1).toUInt16 := (UInt16.ofNat_add slot 1).symm
    rw [occurrencesIn, next, ih (slot + 1)]
    rfl

end Tree

namespace Builder

open ApexLayout.Tree (met occurrencesIn)

variable {t : Tree} {b c d : Builder} {edge : Option Edge} {found further : List (Option Edge × NodeId)}

def Known (b : Builder) : Prop := ∀ {key : String} {id : NodeId}, b.target? key = some (.node id) → id < b.tree.size

structure Covers (t : Tree) (b c : Builder) : Prop where
  size : c.tree.size ≤ t.size
  node {id : NodeId} : b.tree.size ≤ id → id < c.tree.size → t.node id = c.tree.node id

/-- What reading adds to a tree: a walk that meets the occurrences goes through the nodes added, in
    order. Each of them is defined at one of the occurrences or below another node added. -/
structure Adds (t : Tree) (b c : Builder) (found : List (Option Edge × NodeId)) : Prop where
  known : c.Known
  held {edge : Option Edge} {id : NodeId} : (edge, id) ∈ found → id < c.tree.size
  inside {id other : NodeId} : b.tree.size ≤ id → id < c.tree.size → t.Child id other → other < c.tree.size
  origin {id : NodeId} : b.tree.size ≤ id → id < c.tree.size → (t.origin id, id) ∈ found ∨
    ∃ edge, t.origin id = some edge ∧ edge.parent < id ∧ (edge, id) ∈ t.children edge.parent
  walk (pending : List (Option Edge × NodeId)) :
    t.walk (found ++ pending) (t.defined b.tree.size) = t.walk pending (t.defined c.tree.size)

theorem Known.register {fields : List (String × Json)} {target : Target} (known : b.Known)
    (there : ∀ id, target = .node id → id < b.tree.size) : (b.register fields target).Known := by
  intro key id found
  rw [target?_register] at found
  rw [tree_register]
  split at found
  · exact there id (Option.some.inj found)
  · exact known found

theorem Known.readLocation (known : b.Known) (json : Json) : (b.readLocation json).2.Known := by
  unfold Builder.readLocation
  split
  · split
    · split <;> exact known
    · split
      · exact known.register (by simp)
      · exact known
  · exact known

theorem Known.start (known : b.Known) (fields : List (String × Json)) : (b.start edge fields).2.Known := by
  intro key id found
  rw [target?_start] at found
  rw [size_start]
  split at found
  · obtain rfl : b.tree.size = id := by simpa using found
    exact Nat.lt_succ_self _
  · exact Nat.lt_succ_of_lt (known found)

/-! ### What a tree covers -/

theorem tree_readLocation (b : Builder) (json : Json) : (b.readLocation json).2.tree = b.tree := by
  unfold readLocation
  split
  · split
    · split <;> rfl
    · split
      · exact tree_register _ _
      · rfl
  · rfl

theorem Covers.first (covers : Covers t b d) (keeps : Keeps c d) : Covers t b c :=
  ⟨Nat.le_trans keeps.size covers.size, fun from_here inside =>
    (covers.node from_here (Nat.lt_of_lt_of_le inside keeps.size)).trans (keeps.node inside)⟩

theorem Covers.rest (covers : Covers t b d) (keeps : Keeps b c) : Covers t c d :=
  ⟨covers.size, fun from_here inside => covers.node (Nat.le_trans keeps.size from_here) inside⟩

theorem Covers.readLocation (covers : Covers t b c) (json : Json) : Covers t (b.readLocation json).2 c :=
  ⟨covers.size, by rw [tree_readLocation]; exact covers.node⟩

theorem Covers.start {node : Node} (covers : Covers t b (c.finish b.tree.size node)) (edge : Option Edge)
    (fields : List (String × Json)) : Covers t (b.start edge fields).2 c := by
  refine ⟨by simpa only [size_finish] using covers.size, fun {id} from_here inside => ?_⟩
  rw [size_start] at from_here
  rw [covers.node (Nat.le_of_succ_le from_here) (by rwa [size_finish]),
    node_finish_of_ne _ (Nat.ne_of_gt from_here)]

theorem Covers.self {node : Node} (covers : Covers t b (c.finish b.tree.size node)) (room : b.tree.size < c.tree.size) :
    t.node b.tree.size = node := by
  rw [covers.node (Nat.le_refl _) (by rwa [size_finish]), node_finish_self _ room]

/-! ### What is added -/

theorem Adds.refl (known : b.Known) : Adds t b b [] where
  known := known
  held member := absurd member List.not_mem_nil
  inside from_here inside := absurd inside (Nat.not_lt.2 from_here)
  origin from_here inside := absurd inside (Nat.not_lt.2 from_here)
  walk _ := rfl

theorem Adds.trans (first : Adds t b c found) (second : Adds t c d further) (keeps : Keeps c d) :
    Adds t b d (found ++ further) where
  known := second.known
  held member := by
    rcases List.mem_append.mp member with earlier | later
    · exact Nat.lt_of_lt_of_le (first.held earlier) keeps.size
    · exact second.held later
  inside {id other} from_here inside child := by
    by_cases early : id < c.tree.size
    · exact Nat.lt_of_lt_of_le (first.inside from_here early child) keeps.size
    · exact second.inside (Nat.not_lt.1 early) inside child
  origin {id} from_here inside := by
    rw [List.mem_append]
    by_cases early : id < c.tree.size
    · exact (first.origin from_here early).imp_left .inl
    · exact (second.origin (Nat.not_lt.1 early) inside).imp_left .inr
  walk pending := by rw [List.append_assoc, first.walk, second.walk]

theorem Adds.congr (adds : Adds t b c found) (same : b.tree = d.tree) : Adds t d c found := by
  obtain ⟨known, held, inside, origin, walk⟩ := adds
  rw [same] at inside origin walk
  exact ⟨known, held, inside, origin, walk⟩

/-- A reference leads to what has been met. -/
theorem Adds.reference (known : b.Known) {key : String} {id : NodeId} (there : b.target? key = some (.node id))
    (edge : Option Edge) : Adds t b b [(edge, id)] where
  known := known
  held member := by
    obtain ⟨-, rfl⟩ : _ ∧ _ = id := by simpa using member
    exact known there
  inside from_here inside := absurd inside (Nat.not_lt.2 from_here)
  origin from_here inside := absurd inside (Nat.not_lt.2 from_here)
  walk pending := Tree.walk_past (known there) edge pending

/-- A node is met where it is defined, and then what its fields hold. -/
theorem Adds.node {fields : List (String × Json)} {node : Node} (keeps : Keeps (b.start edge fields).2 c)
    (covers : Covers t b (c.finish b.tree.size node)) (defines : node.origin = edge)
    (adds : Adds t (b.start edge fields).2 c (met (occurrencesIn b.tree.size 0 node.fields))) :
    Adds t b (c.finish b.tree.size node) [(edge, b.tree.size)] := by
  have own : t.node b.tree.size = node := covers.self keeps.room
  have origin : t.origin b.tree.size = edge := by rw [Tree.origin, own, defines]
  have children : t.children b.tree.size = occurrencesIn b.tree.size 0 node.fields := by
    rw [Tree.children, own]
    exact (Tree.occurrencesIn_eq b.tree.size node.fields 0).symm
  have added {id : NodeId} (later : b.tree.size < id) : (b.start edge fields).2.tree.size ≤ id := by
    rw [size_start]
    exact later
  constructor
  case known =>
    intro key id there
    rw [size_finish]
    exact adds.known there
  case held =>
    intro edge id member
    obtain ⟨-, rfl⟩ : _ ∧ id = _ := by simpa using member
    rw [size_finish]
    exact keeps.room
  case inside =>
    intro id other from_here inside child
    rw [size_finish] at inside ⊢
    rcases Nat.eq_or_lt_of_le from_here with rfl | later
    · obtain ⟨edge, member⟩ := child
      rw [children] at member
      exact adds.held (Tree.mem_met.mpr ⟨edge, rfl, member⟩)
    · exact adds.inside (added later) inside child
  case origin =>
    intro id from_here inside
    rw [size_finish] at inside
    rcases Nat.eq_or_lt_of_le from_here with rfl | later
    · exact .inl (by simp [origin])
    · rcases adds.origin (added later) inside with held | below
      · obtain ⟨e, defined, member⟩ := Tree.mem_met.mp held
        -- The edge starts at the node itself, since it leads out of one of its fields.
        rw [← children] at member
        have parent : e.parent = b.tree.size := Tree.parent_of_mem_children member
        exact .inr ⟨e, defined, by rwa [parent], by rwa [parent]⟩
      · exact .inr below
  case walk =>
    intro pending
    have room : b.tree.size < t.size := Nat.lt_of_lt_of_le (by rw [size_finish]; exact keeps.room) covers.size
    calc t.walk ((edge, b.tree.size) :: pending) (t.defined b.tree.size)
        = t.walk (met (t.children b.tree.size) ++ pending) (t.defined (b.tree.size + 1)) := by
          rw [← origin, Tree.walk_next room]
      _ = t.walk pending (t.defined c.tree.size) := by
          have started : (b.start edge fields).2.tree.size = b.tree.size + 1 := size_start fields
          rw [children, ← started, adds.walk]
      _ = t.walk pending (t.defined (c.finish b.tree.size node).tree.size) := by rw [size_finish]

/-! ### Reading -/

mutual
theorem adds_readValue (json : Json) {b c : Builder} {edge : Edge} {v : Value}
    (read : readValue (some edge) b json = .ok (v, c)) (known : b.Known) (covers : Covers t b c) :
    Adds t b c (met (Tree.occurrences edge v)) := by
  cases json with
  | array items =>
    obtain ⟨values, inner, rfl⟩ := readValue_array.mp read
    exact adds_readItems items inner known covers
  | object fields =>
    cases refers : fields.lookup "@reference" with
    | some reference =>
      obtain ⟨rfl, id, there, rfl⟩ := (readValue_reference refers).mp read
      exact .reference known there (some edge)
    | none =>
      obtain ⟨kept, location, d, inner, rfl, rfl⟩ := (readValue_object refers).mp read
      have keeps := (grows_readFields fields inner).toKeeps
      exact .node keeps covers rfl (adds_readFields fields inner (known.start fields) (covers.start _ fields))
  | _ =>
    cases read
    exact .refl known
theorem adds_readItems (items : List Json) {b c : Builder} {edge : Edge} {index : Nat} {values : List Value}
    (read : readItems (some edge) index b items = .ok (values, c)) (known : b.Known) (covers : Covers t b c) :
    Adds t b c (met (Tree.occurrencesFrom edge index values)) := by
  cases items with
  | nil =>
    cases read
    exact .refl known
  | cons item items =>
    obtain ⟨v, d, rest, first, later, rfl⟩ := readItems_cons.mp read
    have before := (grows_readValue item first).toKeeps
    have after := (grows_readItems items later).toKeeps
    have here := adds_readValue item first known (covers.first after)
    have onward := adds_readItems items later here.known (covers.rest before)
    rw [Tree.occurrencesFrom, Tree.met_append]
    exact here.trans onward after
theorem adds_readFields (fields : List (String × Json)) {b c : Builder} {id : NodeId} {slot : UInt16}
    {location last : Option Span} {kept : List (String × Value)}
    (read : readFields id slot location b fields = .ok (kept, last, c)) (known : b.Known) (covers : Covers t b c) :
    Adds t b c (met (occurrencesIn id slot kept)) := by
  cases fields with
  | nil =>
    cases read
    exact .refl known
  | cons field fields =>
    obtain ⟨name, json⟩ := field
    rw [readFields] at read
    split at read
    · exact adds_readFields fields read known covers
    · split at read
      · -- A location is no node, so that only ids change.
        exact (adds_readFields fields read (known.readLocation json) (covers.readLocation json)).congr
          (tree_readLocation b json)
      · simp only [bind_eq_ok, pure_eq_ok, Prod.exists, Prod.mk.injEq] at read
        obtain ⟨v, d, first, rest, _, _, later, rfl, rfl, rfl⟩ := read
        have before := (grows_readValue json first).toKeeps
        have after := (grows_readFields fields later).toKeeps
        have here := adds_readValue json first known (covers.first after)
        have onward := adds_readFields fields later here.known (covers.rest before)
        rw [occurrencesIn, Tree.met_append]
        exact here.trans onward after
end

theorem known_empty : Known {} := by
  intro key id there
  cases there

/-- All nodes of a tree are added by its first object. -/
theorem adds_readValue_empty {json : Json} (read : readValue none {} json = .ok (.node 0, b)) :
    Adds b.tree {} b [(none, 0)] := by
  have covers : Covers b.tree {} b := ⟨Nat.le_refl _, fun _ _ => rfl⟩
  cases json with
  | object fields =>
    cases refers : fields.lookup "@reference" with
    | some reference =>
      obtain ⟨-, _, there, -⟩ := (readValue_reference refers).mp read
      cases there
    | none =>
      obtain ⟨kept, location, c, inner, -, rfl⟩ := (readValue_object refers).mp read
      have keeps := (grows_readFields fields inner).toKeeps
      exact .node keeps covers rfl (adds_readFields fields inner (known_empty.start fields) (covers.start _ fields))
  | array items =>
    obtain ⟨_, _, other⟩ := readValue_array.mp read
    cases other
  | _ => cases read

end Builder

/-- However a tree is read, with references and arrays within arrays, its nodes are in order: the root
    alone has no origin, every node that a field holds is there, every other node is defined below one
    before it, and a depth-first walk first meets them one after the other where they are defined. -/
theorem Tree.wellOrdered_ofJson {json : Json} {t : Tree} (read : Tree.ofJson json = .ok t) : t.WellOrdered := by
  obtain ⟨b, inner, rfl⟩ := Tree.ofJson_eq_ok read
  have adds := Builder.adds_readValue_empty inner
  have first : (b.tree.origin 0, 0) ∈ [((none : Option Edge), 0)] := by
    rcases adds.origin (Nat.le_refl 0) (adds.held List.mem_cons_self) with here | ⟨_, -, before, -⟩
    · exact here
    · exact absurd before (Nat.not_lt_zero _)
  have origin {id : NodeId} (inside : id < b.tree.size) (later : id ≠ 0) :
      ∃ edge, b.tree.origin id = some edge ∧ edge.parent < id ∧ (edge, id) ∈ b.tree.children edge.parent := by
    rcases adds.origin (Nat.zero_le id) inside with here | below
    · exact absurd (Prod.mk.inj (List.mem_singleton.mp here)).2 later
    · exact below
  constructor
  case root => exact adds.held List.mem_cons_self
  case rootless =>
    intro id inside
    constructor
    · intro without
      by_contra later
      obtain ⟨edge, within, -⟩ := origin inside later
      rw [without] at within
      cases within
    · rintro rfl
      exact (Prod.mk.inj (List.mem_singleton.mp first)).1
  case inside =>
    intro id other field inside member holds
    exact adds.inside (Nat.zero_le id) inside (Extents.child_iff.mpr ⟨field.2, List.mem_map_of_mem member, holds⟩)
  case origin => exact origin
  case firstMet => exact (adds.walk []).trans (walk_nil _)

/-- An object that occurs within an array in an array, refers to the one around it, and is referred to
    behind it. -/
def entangled : Json :=
  .object [("@id", .string "1"), ("loc", .object [("startIndex", .number (.int 0)), ("endIndex", .number (.int 9))]),
    ("members", .array [.array [.null, .object [("@id", .string "2"), ("outer", .object [("@reference", .string "1")])]],
      .object [("@reference", .string "2")]]), ("last", .object [])]

/-- The object in the array is met there, and not where it is referred to. -/
theorem Tree.wellOrdered_ofJson_entangled : ∃ t, Tree.ofJson entangled = .ok t ∧ t.WellOrdered ∧
    (t.children 0).map (·.2) = [1, 1, 2] ∧ (t.children 1).map (·.2) = [0] ∧
    t.firstMet = [(none, 0), (some ⟨0, 0, some 1⟩, 1), (some ⟨0, 1, none⟩, 2)] := by
  obtain ⟨t, read, shape⟩ : ∃ t, Tree.ofJson entangled = .ok t ∧ (t.children 0).map (·.2) = [1, 1, 2] ∧
      (t.children 1).map (·.2) = [0] ∧
      (t.ids.map fun id => (t.origin id, id)) = [(none, 0), (some ⟨0, 0, some 1⟩, 1), (some ⟨0, 1, none⟩, 2)] :=
    ⟨_, by rfl, by decide, by decide, by decide⟩
  have ordered := Tree.wellOrdered_ofJson read
  exact ⟨t, read, ordered, shape.1, shape.2.1, ordered.firstMet.trans shape.2.2⟩

namespace Tree

variable {t : Tree} {p q d : NodeId} {edge : Edge}

theorem node_mapOffsets (t : Tree) (f : Nat → Nat) (id : NodeId) :
    (t.mapOffsets f).node id =
      { t.node id with location := (t.node id).location.map fun span => ⟨f span.start, f span.stop⟩ } := by
  simp only [mapOffsets, node, Array.getElem?_map]
  cases t.nodes[id]? with
  | none => rfl
  | some found => rfl

/-- Every occurrence of a node is the one that defines it. -/
def ReferenceFree (t : Tree) : Prop := ∀ p edge d, (edge, d) ∈ t.children p → t.origin d = some edge

/-- Every occurrence of a node is the one that defines it, and nodes are defined below earlier ones. -/
structure Unshared (t : Tree) : Prop where
  once {p d : NodeId} {edge : Edge} : (edge, d) ∈ t.children p → t.origin d = some edge
  down {p d : NodeId} : t.Child p d → p < d

theorem unshared_of_ofJson {json : Json} (read : Tree.ofJson json = .ok t) (free : t.ReferenceFree) : t.Unshared where
  once member := free _ _ _ member
  down {p d} := by
    rintro ⟨edge, member⟩
    obtain ⟨b, inner, rfl⟩ := Tree.ofJson_eq_ok read
    have adds := Builder.adds_readValue_empty inner
    have inside := adds.inside (Nat.zero_le p) (Extents.child_size ⟨edge, member⟩) ⟨edge, member⟩
    have origin := free _ _ _ member
    rcases adds.origin (Nat.zero_le d) inside with first | ⟨_, same, before, -⟩
    · rw [origin] at first
      cases List.mem_singleton.mp first
    · rw [origin] at same
      cases same
      rwa [parent_of_mem_children member] at before

namespace Unshared

theorem acyclic (unshared : t.Unshared) : t.Acyclic :=
  Extents.acyclic_of_lt fun _ _ below member => unshared.down ⟨below.1, member⟩

theorem parent_unique (unshared : t.Unshared) (one : t.Child p d) (other : t.Child q d) : p = q := by
  obtain ⟨edge, member⟩ := one
  obtain ⟨_, also⟩ := other
  obtain rfl := Option.some.inj ((unshared.once member).symm.trans (unshared.once also))
  exact (parent_of_mem_children member).symm.trans (parent_of_mem_children also)

theorem rootless (unshared : t.Unshared) : ¬ t.Child p t.root :=
  fun child => Nat.not_lt_zero p (unshared.down child)

theorem mapOffsets (unshared : t.Unshared) (f : Nat → Nat) : (t.mapOffsets f).Unshared := by
  have children (id : NodeId) : (t.mapOffsets f).children id = t.children id := by
    rw [Tree.children, node_mapOffsets, Tree.children]
  constructor
  · intro p d edge member
    rw [children] at member
    rw [origin, node_mapOffsets]
    exact unshared.once member
  · rintro p d ⟨edge, member⟩
    rw [children] at member
    exact unshared.down ⟨edge, member⟩

end Unshared
end Tree
end ApexLayout
