import ApexLayout.Proofs.Occurrence.Walk
import ApexLayout.Proofs.Tree.Order
import Mathlib.Data.List.Sigma

/-!
Which occurrences owe a blank line. Without references the walk comes to every occurrence once, sets its blank line
there and takes it again if the next element shares the line (`blank_walk`).
-/
namespace ApexLayout

namespace Tree

def next? (t : Tree) (e : Edge) : Option Value :=
  match (t.node e.parent).fields[e.slot.toNat]?, e.index with
  | some (_, .array items), some i => items[i + 1]?
  | _, _ => none

def isFinal (t : Tree) (e : Edge) : Bool := e.index.isSome && (t.next? e).isNone

def FlatArrays (t : Tree) : Prop := ∀ id name items inner, (name, .array items) ∈ (t.node id).fields → .array inner ∉ items

/-- The node is of a kind by which blank lines below it are decided. -/
def separates (t : Tree) (id : NodeId) : Bool :=
  t.isAmong id Occurrences.separable || t.isAmong id Occurrences.selfSeparating

/-- The first node is the nearest one above the second that decides on blank lines. -/
def NearestSeparating (t : Tree) (above id : NodeId) : Prop :=
  Relation.TransGen t.Child above id ∧ t.separates above ∧
    ∀ between, Relation.TransGen t.Child above between → Relation.TransGen t.Child between id → ¬ t.separates between

def LeavesBlank (t : Tree) (id : NodeId) : Prop :=
  ∀ above, t.NearestSeparating above id → ¬ t.isAmong above Occurrences.selfSeparating

variable {t : Tree} {id child : NodeId} {edge : Edge}

/-- A node is the value of a field or stands at a place of an array. -/
theorem place_of_mem_children (narrow : t.Narrow) (flat : t.FlatArrays) (member : (edge, child) ∈ t.children id) :
    edge.parent = id ∧ ∃ field, (t.node id).fields[edge.slot.toNat]? = some field ∧
      (field.2 = .node child ∧ edge.index = none ∨
        ∃ items i, field.2 = .array items ∧ edge.index = some i ∧ items[i]? = some (.node child)) := by
  obtain ⟨slot, field, at_slot, occurs⟩ := mem_children.mp member
  obtain ⟨above, same⟩ := place_of_mem_occurrences field.2 occurs
  dsimp only at above same
  refine ⟨above, field, by rw [same, (narrow id).toNat_slot at_slot, at_slot], ?_⟩
  obtain ⟨name, value⟩ := field
  cases value with
  | node other =>
    obtain ⟨rfl, rfl⟩ : edge = ⟨id, slot.toUInt16, none⟩ ∧ child = other := by simpa [occurrences] using occurs
    exact .inl ⟨rfl, rfl⟩
  | array items =>
    have there : (name, .array items) ∈ (t.node id).fields := List.mem_of_getElem? at_slot
    obtain ⟨i, rfl, found⟩ := (mem_occurrencesFrom_iff fun inner => flat id name items inner there).1 occurs
    exact .inr ⟨items, i, rfl, by simp, found⟩
  | _ => simp [occurrences] at occurs

theorem eq_of_mem_children_of_flat {other : NodeId} (narrow : t.Narrow) (flat : t.FlatArrays)
    (member : (edge, child) ∈ t.children id) (also : (edge, other) ∈ t.children id) : child = other := by
  obtain ⟨-, field, there, placed⟩ := place_of_mem_children narrow flat member
  obtain ⟨-, same, again, placed'⟩ := place_of_mem_children narrow flat also
  obtain rfl : field = same := Option.some.inj (there.symm.trans again)
  grind

/-! ### Nodes above -/

namespace Unshared

variable {p q a b c d : NodeId} (unshared : t.Unshared)
include unshared

theorem le_of_reaches (reaches : Relation.ReflTransGen t.Child a b) : a ≤ b := by
  induction reaches with
  | refl => exact Nat.le_refl _
  | tail _ below ih => exact Nat.le_trans ih (Nat.le_of_lt (unshared.down below))

theorem lt_of_above (above : Relation.TransGen t.Child a b) : a < b := by
  obtain ⟨c, reaches, last⟩ := Relation.TransGen.tail'_iff.1 above
  exact Nat.lt_of_le_of_lt (unshared.le_of_reaches reaches) (unshared.down last)

theorem reaches_parent (below : t.Child p d) (above : Relation.TransGen t.Child a d) : Relation.ReflTransGen t.Child a p := by
  obtain ⟨b, reaches, last⟩ := Relation.TransGen.tail'_iff.1 above
  rwa [unshared.parent_unique below last]

theorem child_unique (one : t.Child p c) (other : t.Child p d) (toward : Relation.ReflTransGen t.Child c q)
    (also : Relation.ReflTransGen t.Child d q) : c = d := by
  have alone {c d : NodeId} (one : t.Child p c) (other : t.Child p d) (reaches : Relation.ReflTransGen t.Child c d) : c = d := by
    rcases Relation.reflTransGen_iff_eq_or_transGen.1 reaches with same | above
    · exact same.symm
    · have back := unshared.le_of_reaches (unshared.reaches_parent other above)
      exact absurd (unshared.down one) (Nat.not_lt.2 back)
  have unique : Relator.RightUnique (Function.swap t.Child) := fun _ _ _ => unshared.parent_unique
  rcases Relation.ReflTransGen.total_of_right_unique unique toward.swap also.swap with down | up
  · exact (alone other one (Relation.reflTransGen_swap.1 down)).symm
  · exact alone one other (Relation.reflTransGen_swap.1 up)

theorem leavesBlank_root : t.LeavesBlank t.root := by
  rintro above ⟨reaches, -⟩
  obtain ⟨_, -, last⟩ := Relation.TransGen.tail'_iff.1 reaches
  exact absurd last unshared.rootless

/-- A node that decides on blank lines does so for the nodes right below it, and any other leaves it to the
    nodes above. -/
theorem leavesBlank_child (below : t.Child p d) : t.LeavesBlank d ↔
    if t.isAmong p Occurrences.selfSeparating then False
    else if t.isAmong p Occurrences.separable then True else t.LeavesBlank p := by
  have onward {above : NodeId} (reaches : Relation.TransGen t.Child above d) :
      above = p ∨ Relation.TransGen t.Child above p := by
    rcases Relation.reflTransGen_iff_eq_or_transGen.1 (unshared.reaches_parent below reaches) with same | further
    · exact .inl same.symm
    · exact .inr further
  by_cases self : t.isAmong p Occurrences.selfSeparating
  · rw [if_pos self, iff_false]
    intro leaves
    refine leaves p ⟨.single below, by simp [separates, self], fun between down up => ?_⟩ self
    rcases onward up with rfl | further
    · exact absurd (unshared.lt_of_above down) (Nat.lt_irrefl _)
    · exact absurd (unshared.lt_of_above (down.trans further)) (Nat.lt_irrefl _)
  rw [if_neg self]
  by_cases own : t.isAmong p Occurrences.separable
  · rw [if_pos own, iff_true]
    rintro above ⟨reaches, -, nearest⟩
    rcases onward reaches with rfl | further
    · exact self
    · exact absurd (by simp [separates, own]) (nearest p further (.single below))
  rw [if_neg own]
  have undecided : ¬ t.separates p := by simp [separates, own, self]
  constructor
  · rintro leaves above ⟨reaches, decides, nearest⟩
    refine leaves above ⟨reaches.tail below, decides, fun between down up => ?_⟩
    rcases onward up with rfl | further
    · exact undecided
    · exact nearest between down further
  · rintro leaves above ⟨reaches, decides, nearest⟩
    rcases onward reaches with rfl | further
    · exact absurd decides undecided
    · exact leaves above ⟨further, decides, fun between down up => nearest between down (up.tail below)⟩

end Unshared
end Tree

namespace Occurrences

variable {g : Ground} {o : Occurrences} {edge e : Edge} {path : List NodeId} {around : Around} {n : NodeId}
  {bound : Nat} {at_edge : Option Edge}

theorem blank_clearBlank :
    ((o.clearBlank edge).get e).blankAfter = if e = edge then false else (o.get e).blankAfter := by
  rw [get_clearBlank]
  split <;> rfl

/-- Marking a node sets the blank line of its occurrence if it is owed, and no other. -/
theorem blank_mark (id : NodeId) (at_edge : Option Edge) (around : Around) (isLast : Bool) :
    ((mark g id at_edge around isLast o).get e).blankAfter =
      if at_edge = some e ∧ (around.keepsBlanks && !isLast && hasBlankAfter g id) then true
      else (o.get e).blankAfter := by
  rw [get_mark]
  by_cases here : at_edge = some e <;> simp [here, Bool.or_comm]

/-! ### Below one node -/

variable {id : NodeId} {act : Act}

theorem mem_joinActs {index : Nat} {items : List Value} : act ∈ joinActs g edge index items ↔
    ∃ i child, items[i]? = some (.node child) ∧ joins g child items[i + 1]? ∧
      act = .join { edge with index := some (index + i) } := by
  have shift (index i : Nat) : index + 1 + i = index + (i + 1) := by omega
  fun_induction joinActs g edge index items with
  | case1 index first rest ih =>
    refine (List.mem_append.trans (or_congr_right ih)).trans ?_
    constructor
    · rintro (here | ⟨i, child, there, joined, rfl⟩)
      · split at here
        · next joined => exact ⟨0, first, rfl, by simpa [List.head?_eq_getElem?] using joined, by simpa using here⟩
        · cases here
      · exact ⟨i + 1, child, there, joined, by rw [shift]⟩
    · rintro ⟨_ | i, child, there, joined, rfl⟩
      · obtain rfl : first = child := by simpa using there
        left
        simpa [List.head?_eq_getElem?] using joined
      · exact .inr ⟨i, child, there, joined, by rw [shift]⟩
  | case2 index item rest other ih =>
    refine Iff.trans ih ?_
    constructor
    · rintro ⟨i, child, there, joined, rfl⟩
      exact ⟨i + 1, child, there, joined, by rw [shift]⟩
    · rintro ⟨_ | i, child, there, joined, rfl⟩
      · exact (other child (by simpa using there)).elim
      · exact ⟨i, child, there, joined, by rw [shift]⟩
  | case3 => simp

theorem itemActs_of_flat {items : List Value} (flat : ∀ inner, .array inner ∉ items) (g : Ground) (edge : Edge)
    (index count : Nat) : itemActs g edge index count items = (items.zipIdx index).filterMap fun entry =>
      entry.1.node?.map (.visit · { edge with index := some entry.2 } (entry.2 + 1 == count)) := by
  induction items generalizing index with
  | nil => simp [itemActs]
  | cons item items ih =>
    have later := ih (fun inner member => flat inner (List.mem_cons_of_mem _ member)) (index + 1)
    cases item with
    | array inner => exact absurd List.mem_cons_self (flat inner)
    | _ => simp [itemActs, valueActs, later, Value.node?]

section
variable (narrow : g.tree.Narrow) (flat : g.tree.FlatArrays)
include narrow flat

/-- Where the walk goes on from a field, and whose blank line it takes there. -/
theorem of_mem_valueActs {field : String × Value} {slot : Nat} (there : (field, slot) ∈ (g.tree.node id).fields.zipIdx)
    (member : act ∈ valueActs g ⟨id, slot.toUInt16, none⟩ false field.2) :
    ∃ index child, act.place = ⟨id, slot.toUInt16, index⟩ ∧
      (act.place, child) ∈ g.tree.children id ∧ (act = .visit child act.place (g.tree.isFinal act.place) ∨
        joins g child (g.tree.next? act.place) ∧ act = .join act.place) := by
  obtain ⟨name, value⟩ := field
  have at_slot := List.mk_mem_zipIdx_iff_getElem?.1 there
  cases value with
  | node child =>
    obtain rfl := List.mem_singleton.mp member
    exact ⟨none, child, rfl, Tree.mem_children.mpr ⟨slot, _, at_slot, List.mem_singleton.2 rfl⟩, .inl rfl⟩
  | array items =>
    have alone : ∀ inner, .array inner ∉ items := fun inner => flat id name items inner (List.mem_of_getElem? at_slot)
    have next (i : Nat) : g.tree.next? ⟨id, slot.toUInt16, some i⟩ = items[i + 1]? := by
      simp only [Tree.next?, (narrow id).toNat_slot at_slot, at_slot]
    have occurs {i : Nat} {child : NodeId} (found : items[i]? = some (.node child)) :
        (⟨id, slot.toUInt16, some i⟩, child) ∈ g.tree.children id :=
      Tree.mem_children.mpr ⟨slot, _, at_slot, (Tree.mem_occurrencesFrom_iff alone).2 ⟨i, by simp, found⟩⟩
    rw [valueActs, List.mem_append, itemActs_of_flat alone, mem_joinActs] at member
    rcases member with listed | ⟨i, child, found, joined, rfl⟩
    · obtain ⟨⟨item, i⟩, place, made⟩ := List.mem_filterMap.mp listed
      obtain ⟨child, is_node, rfl⟩ := Option.map_eq_some_iff.mp made
      have found := List.mk_mem_zipIdx_iff_getElem?.1 place
      obtain rfl : item = .node child := by
        cases item <;> simp_all [Value.node?]
      have inside := (List.getElem?_eq_some_iff.1 found).1
      have final : g.tree.isFinal ⟨id, slot.toUInt16, some i⟩ = (i + 1 == items.length) := by
        rw [Tree.isFinal, next, Bool.eq_iff_iff]
        simp
        omega
      exact ⟨some i, child, rfl, occurs found, .inl (by rw [← final]; rfl)⟩
    · rw [← next] at joined
      rw [Nat.zero_add]
      exact ⟨some i, child, rfl, occurs found, .inr ⟨joined, rfl⟩⟩
  | _ => cases member

theorem join_mem_acts {target : Edge} {child : NodeId} (member : (target, child) ∈ g.tree.children id)
    (joined : joins g child (g.tree.next? target)) : .join target ∈ acts g id := by
  obtain ⟨rfl, ⟨name, value⟩, at_slot, placed⟩ := Tree.place_of_mem_children narrow flat member
  obtain ⟨parent, slot, index⟩ := target
  refine List.mem_flatMap.mpr ⟨_, List.mk_mem_zipIdx_iff_getElem?.mpr at_slot, ?_⟩
  dsimp only at placed at_slot ⊢
  obtain ⟨rfl, rfl⟩ | ⟨items, i, rfl, rfl, found⟩ := placed
  · simp [Tree.next?, joins] at joined
  · refine List.mem_append_right _ (mem_joinActs.mpr ⟨i, child, found, ?_, by simp⟩)
    simpa [Tree.next?, at_slot] using joined

/-- No occurrence is visited twice, or after its blank line was taken. -/
theorem pairwise_acts (id : NodeId) : (acts g id).Pairwise fun a b => b.visited?.map Prod.fst ≠ some a.place := by
  have distinct {α : Type} (list : List α) : list.zipIdx.Pairwise (·.2 ≠ ·.2) :=
    List.pairwise_map.mp (List.nodup_zipIdx_map_snd list)
  rw [acts, List.pairwise_flatMap]
  constructor
  · rintro ⟨⟨name, value⟩, slot⟩ there
    cases value with
    | node child => exact List.pairwise_singleton _ _
    | array items =>
      have at_slot := List.mem_of_getElem? (List.mk_mem_zipIdx_iff_getElem?.1 there)
      have no_visit : ∀ b ∈ joinActs g ⟨id, slot.toUInt16, none⟩ 0 items, b.visited? = none := by
        intro b member
        obtain ⟨_, _, -, -, rfl⟩ := mem_joinActs.mp member
        rfl
      rw [valueActs, List.pairwise_append, itemActs_of_flat fun inner => flat id name items inner at_slot]
      refine ⟨?_, ?_, fun a _ b also => by simp [no_visit b also]⟩
      · rw [List.pairwise_filterMap]
        refine (distinct items).imp fun differ a first b second => ?_
        obtain ⟨_, -, rfl⟩ := Option.map_eq_some_iff.mp first
        obtain ⟨_, -, rfl⟩ := Option.map_eq_some_iff.mp second
        simpa [Act.visited?, Act.place] using Ne.symm differ
      · exact (List.pairwise_of_forall fun _ _ => trivial).imp_of_mem fun _ also _ => by simp [no_visit _ also]
    | _ => exact .nil
  · refine (distinct _).imp_of_mem fun here there differ a first b second => ?_
    obtain ⟨_, _, place, -⟩ := of_mem_valueActs narrow flat here first
    obtain ⟨_, _, other, -⟩ := of_mem_valueActs narrow flat there second
    rw [place]
    cases b with
    | visit child edge isLast =>
      obtain rfl : edge = _ := other
      simp only [Act.visited?, Option.map_some, ne_eq, Option.some.injEq, Edge.mk.injEq, not_and, true_and]
      intro same
      rw [List.mem_zipIdx_iff_getElem?] at here there
      exact absurd ((narrow id).slot_inj there here same).symm differ
    | join edge => simp [Act.visited?]

theorem parent_of_mem_acts (member : act ∈ acts g id) : act.place.parent = id := by
  obtain ⟨entry, there, inner⟩ := List.mem_flatMap.mp member
  obtain ⟨_, _, place, -⟩ := of_mem_valueActs narrow flat there inner
  rw [place]

/-- What is done below a node before an occurrence is visited and afterwards. -/
theorem split_acts {target : Edge} {child : NodeId} (member : (target, child) ∈ g.tree.children id) : ∃ front back,
    acts g id = front ++ .visit child target (g.tree.isFinal target) :: back ∧ (∀ act ∈ front, act.place ≠ target) ∧
      (∀ act ∈ back, act.visited?.map Prod.fst ≠ some target) ∧
      (Act.join target ∈ back ↔ joins g child (g.tree.next? target)) := by
  obtain ⟨isLast, visited⟩ := visit_of_mem_children member
  obtain ⟨_, there, inner⟩ := List.mem_flatMap.mp visited
  obtain ⟨_, _, -, -, made | ⟨-, made⟩⟩ := of_mem_valueActs narrow flat there inner
  · obtain rfl : isLast = g.tree.isFinal target := (Act.visit.inj made).2.2
    obtain ⟨front, back, split⟩ := List.append_of_mem visited
    have apart := pairwise_acts narrow flat id
    rw [split, List.pairwise_append, List.pairwise_cons] at apart
    have early : ∀ act ∈ front, act.place ≠ target := by
      intro act before same
      exact apart.2.2 act before _ List.mem_cons_self (by rw [same]; rfl)
    refine ⟨front, back, split, early, apart.2.1.1, fun taken => ?_, fun joined => ?_⟩
    · have listed : .join target ∈ acts g id := split ▸ List.mem_append_right _ (List.mem_cons_of_mem _ taken)
      obtain ⟨_, there, inner⟩ := List.mem_flatMap.mp listed
      obtain ⟨_, other, -, also, made | ⟨joined, -⟩⟩ := of_mem_valueActs narrow flat there inner
      · cases made
      · rwa [Tree.eq_of_mem_children_of_flat narrow flat member also]
    · have listed := join_mem_acts narrow flat member joined
      rw [split, List.mem_append, List.mem_cons] at listed
      rcases listed with before | same | after
      · exact absurd rfl (early _ before)
      · cases same
      · exact after
  · cases made

end

/-- Visits that leave a blank line alone: it is there in the end if it was before, and is not taken. -/
theorem blank_foldl {visit : NodeId → Edge → Bool → Occurrences → Occurrences} {list : List Act}
    (visits : ∀ child e' isLast o, .visit child e' isLast ∈ list →
      ((visit child e' isLast o).get e).blankAfter = (o.get e).blankAfter) (o : Occurrences) :
    ((list.foldl (Act.run visit) o).get e).blankAfter ↔ (o.get e).blankAfter ∧ .join e ∉ list := by
  induction list generalizing o with
  | nil => simp
  | cons act list ih =>
    rw [List.foldl_cons, ih fun child e' isLast o member => visits child e' isLast o (List.mem_cons_of_mem _ member)]
    cases act with
    | visit child e' isLast => simp [Act.run, visits _ _ _ _ List.mem_cons_self]
    | join e' =>
      by_cases same : e = e' <;> simp [Act.run, blank_clearBlank, same]

/-! ### The walk -/

section
variable (narrow : g.tree.Narrow) (flat : g.tree.FlatArrays)
include narrow flat

theorem blank_walkFields_of_visits (elsewhere : e.parent ≠ id)
    (visits : ∀ e' child isLast o, (e', child) ∈ g.tree.children id →
      ((walk g bound (id :: path) (around.below (g.tree.kind? id)) child (some e') isLast o).get e).blankAfter =
        (o.get e).blankAfter) :
    ((walkFields g bound path around id o).get e).blankAfter = (o.get e).blankAfter := by
  have none_taken : .join e ∉ acts g id := fun member => elsewhere (parent_of_mem_acts narrow flat member)
  have kept := blank_foldl (fun child e' isLast o member => visits e' child isLast o (mem_children_of_visit member)) o
  rw [Bool.eq_iff_iff, walkFields, kept]
  simp [none_taken]

section
variable (bound : Nat) (path : List NodeId) (around : Around) (away : ¬ Relation.ReflTransGen g.tree.Child id e.parent)
include away

/-- Below a node that does not lead to the parent of an occurrence, its blank line is left. -/
theorem blank_walkFields (o : Occurrences) :
    ((walkFields g bound path around id o).get e).blankAfter = (o.get e).blankAfter := by
  have elsewhere {id : NodeId} (away : ¬ Relation.ReflTransGen g.tree.Child id e.parent) : e.parent ≠ id :=
    fun same => away (same ▸ .refl)
  induction bound generalizing path around id o with
  | zero => exact blank_walkFields_of_visits narrow flat (elsewhere away) fun _ _ _ _ _ => rfl
  | succ bound ih =>
    refine blank_walkFields_of_visits narrow flat (elsewhere away) fun e' child isLast o member => ?_
    by_cases met : child ∈ id :: path
    · rw [walk_of_mem met]
    · have other : some e' ≠ some e := by
        rintro ⟨⟩
        exact elsewhere away (Tree.parent_of_mem_children member)
      rw [walk_fresh met, blank_mark, if_neg (fun both => other both.1)]
      exact ih _ _ (fun reaches => away (.head ⟨e', member⟩ reaches)) o

theorem blank_walk_away (other : at_edge ≠ some e) (isLast : Bool) (o : Occurrences) :
    ((walk g bound path around id at_edge isLast o).get e).blankAfter = (o.get e).blankAfter := by
  cases bound with
  | zero => rfl
  | succ bound =>
    by_cases met : id ∈ path
    · rw [walk_of_mem met]
    · rw [walk_fresh met, blank_mark, if_neg (fun both => other both.1), blank_walkFields narrow flat _ _ _ away]

end

/-- Only one visit makes a difference below a node, and then the next element may take the blank line. -/
theorem blank_foldl_turn {visit : NodeId → Edge → Bool → Occurrences → Occurrences} {target : Edge} {child : NodeId}
    (member : (target, child) ∈ g.tree.children id)
    (others : ∀ e' other isLast o, (e', other) ∈ g.tree.children id → e' ≠ target →
      ((visit other e' isLast o).get e).blankAfter = (o.get e).blankAfter)
    (apart : e.parent = id → e = target) (holds : (o.get e).blankAfter = false) :
    ∃ before, (before.get e).blankAfter = false ∧ ((((acts g id).foldl (Act.run visit) o).get e).blankAfter ↔
      ((visit child target (g.tree.isFinal target) before).get e).blankAfter ∧
        ¬ (e = target ∧ joins g child (g.tree.next? target))) := by
  obtain ⟨front, back, split, early, late, taken⟩ := split_acts narrow flat member
  have among : front ⊆ acts g id ∧ back ⊆ acts g id := by simp [split]
  refine ⟨front.foldl (Act.run visit) o, ?_, ?_⟩
  · rw [Bool.eq_false_iff, Ne, blank_foldl, holds]
    · simp
    · intro other e' isLast o visited
      exact others e' other isLast o (mem_children_of_visit (among.1 visited)) (early _ visited)
  · rw [split, List.foldl_append, List.foldl_cons, blank_foldl]
    · refine and_congr_right fun _ => not_congr ⟨fun listed => ?_, fun both => both.1 ▸ taken.mpr both.2⟩
      have parent : (Act.join e).place.parent = id := parent_of_mem_acts narrow flat (among.2 listed)
      obtain rfl := apart parent
      exact ⟨rfl, taken.mp listed⟩
    · intro other e' isLast o visited
      refine others e' other isLast o (mem_children_of_visit (among.2 visited)) ?_
      rintro rfl
      exact late _ visited rfl

end

def Owes (g : Ground) (e : Edge) (id : NodeId) : Prop :=
  (g.tree.LeavesBlank id ∧ g.tree.isFinal e = false ∧ hasBlankAfter g id) ∧ joins g id (g.tree.next? e) = false

theorem keepsBlanks_below (unshared : g.tree.Unshared) {child : NodeId} (below : g.tree.Child id child)
    (known : around.keepsBlanks ↔ g.tree.LeavesBlank id) :
    (around.below (g.tree.kind? id)).keepsBlanks ↔ g.tree.LeavesBlank child := by
  have handed : (around.below (g.tree.kind? id)).keepsBlanks =
      if g.tree.isAmong id selfSeparating then false else if g.tree.isAmong id separable then true else around.keepsBlanks :=
    rfl
  rw [handed, unshared.leavesBlank_child below]
  split
  · simp
  · split
    · simp
    · exact known

section
variable (unshared : g.tree.Unshared) {n : NodeId} (occurs : (e, n) ∈ g.tree.children e.parent) (inside : n < g.tree.size)
include unshared occurs inside

/-- On the way to the parent of an occurrence only what is below the node matters. -/
theorem blank_walk_toward (reaches : Relation.ReflTransGen g.tree.Child id e.parent)
    (enough : g.tree.size < bound + id) (ahead : ∀ a ∈ path, a < id) (around : Around)
    (before : ∀ e' ∈ at_edge, e'.parent < id) (isLast : Bool) (o : Occurrences) :
    ∃ b, bound = b + 1 ∧ ((walk g bound path around id at_edge isLast o).get e).blankAfter =
      ((walkFields g b path around id o).get e).blankAfter := by
  have le := unshared.le_of_reaches reaches
  have room := Nat.lt_of_le_of_lt le (Nat.lt_trans (unshared.down ⟨e, occurs⟩) inside)
  have fresh : id ∉ path := fun member => Nat.lt_irrefl _ (ahead id member)
  have other : at_edge ≠ some e := by
    rintro rfl
    exact absurd (before e rfl) (Nat.not_lt.2 le)
  obtain ⟨b, rfl⟩ : ∃ b, bound = b + 1 := Nat.exists_eq_add_one_of_ne_zero (by omega)
  exact ⟨b, rfl, by rw [walk_fresh fresh, blank_mark, if_neg fun both => other both.1]⟩

variable (narrow : g.tree.Narrow) (flat : g.tree.FlatArrays)
include narrow flat

/-- The walk sets the blank line of an occurrence when it comes to its parent. -/
theorem blank_walkFields_parent (enough : g.tree.size ≤ bound + e.parent)
    (ahead : ∀ a ∈ path, a < e.parent) (known : around.keepsBlanks ↔ g.tree.LeavesBlank e.parent)
    (holds : (o.get e).blankAfter = false) :
    ((walkFields g bound path around e.parent o).get e).blankAfter ↔ Owes g e n := by
  have below := unshared.down ⟨e, occurs⟩
  have room := Nat.lt_trans below inside
  have away {child : NodeId} (child_of : g.tree.Child e.parent child) :
      ¬ Relation.ReflTransGen g.tree.Child child e.parent := fun back =>
    absurd (unshared.down child_of) (Nat.not_lt.2 (unshared.le_of_reaches back))
  have handed := keepsBlanks_below unshared ⟨e, occurs⟩ known
  obtain ⟨before, none_yet, turned⟩ := blank_foldl_turn narrow flat occurs (fun e' child isLast o member other =>
    blank_walk_away narrow flat bound (e.parent :: path) (around.below (g.tree.kind? e.parent)) (away ⟨e', member⟩)
      (fun same => other (Option.some.inj same)) isLast o) (fun _ => rfl) holds
  have fresh : n ∉ e.parent :: path := by
    rintro (_ | ⟨_, member⟩)
    · exact Nat.lt_irrefl _ below
    · exact Nat.lt_irrefl _ (Nat.lt_trans (ahead n member) below)
  obtain ⟨bound, rfl⟩ : ∃ b, bound = b + 1 := Nat.exists_eq_add_one_of_ne_zero (by omega)
  rw [walkFields, turned, walk_fresh fresh, blank_mark, blank_walkFields narrow flat _ _ _ (away ⟨e, occurs⟩), none_yet,
    Owes, ← handed]
  simp [and_assoc]

/-- The walk sets the blank line of an occurrence if it is owed, once it comes to the parent of the occurrence. -/
theorem blank_walk (reaches : Relation.ReflTransGen g.tree.Child id e.parent)
    (enough : g.tree.size < bound + id) (ahead : ∀ a ∈ path, a < id)
    (known : around.keepsBlanks ↔ g.tree.LeavesBlank id) (before : ∀ e' ∈ at_edge, e'.parent < id)
    (isLast : Bool) (holds : (o.get e).blankAfter = false) :
    ((walk g bound path around id at_edge isLast o).get e).blankAfter ↔ Owes g e n := by
  induction reaches using Relation.ReflTransGen.head_induction_on generalizing bound path around at_edge isLast o with
  | refl =>
    obtain ⟨b, rfl, same⟩ := blank_walk_toward unshared occurs inside .refl enough ahead around before isLast o
    rw [same]
    exact blank_walkFields_parent unshared occurs inside narrow flat (by omega) ahead known holds
  | @head id child first rest ih =>
    obtain ⟨b, rfl, same⟩ := blank_walk_toward unshared occurs inside (.head first rest) enough ahead around before isLast o
    have down := unshared.down first
    have further := Nat.add_le_add_left (Nat.succ_le_of_lt down) b
    have elsewhere : e.parent ≠ id := by
      rintro rfl
      exact absurd down (Nat.not_lt.2 (unshared.le_of_reaches rest))
    obtain ⟨target, member⟩ := first
    have away {e' : Edge} {other : NodeId} (listed : (e', other) ∈ g.tree.children id) (differ : e' ≠ target) :
        ¬ Relation.ReflTransGen g.tree.Child other e.parent := by
      intro reaches
      obtain rfl := unshared.child_unique ⟨e', listed⟩ ⟨target, member⟩ reaches rest
      exact differ (Option.some.inj ((unshared.once listed).symm.trans (unshared.once member)))
    obtain ⟨before, none_yet, turned⟩ := blank_foldl_turn narrow flat member (fun e' other isLast o listed differ => by
      have not_here : some e' ≠ some e := by
        rintro ⟨⟩
        exact elsewhere (Tree.parent_of_mem_children listed)
      exact blank_walk_away narrow flat b (id :: path) (around.below (g.tree.kind? id)) (away listed differ) not_here isLast o)
      (fun here => absurd here elsewhere) holds
    have not_here : e ≠ target := by
      rintro rfl
      exact elsewhere (Tree.parent_of_mem_children member)
    rw [same, walkFields, turned, ih (by omega) ?_ (keepsBlanks_below unshared ⟨target, member⟩ known) ?_ _ none_yet]
    · simp [not_here]
    · rintro a (_ | ⟨_, listed⟩)
      · exact down
      · exact Nat.lt_trans (ahead a listed) down
    · rintro _ ⟨⟩
      rwa [Tree.parent_of_mem_children member]

end

theorem blank_ofTree {json : Json} {tree : Tree} (read : Tree.ofJson json = .ok tree) (free : tree.ReferenceFree)
    (narrow : tree.Narrow) (flat : tree.FlatArrays) (extents : Extents) (lines : Text.Lines)
    (occurs : (e, n) ∈ tree.children e.parent) :
    ((ofTree tree extents lines).get e).blankAfter ↔ Owes ⟨tree, extents, lines⟩ e n := by
  have unshared := Tree.unshared_of_ofJson read free
  have parent_inside := Extents.child_size ⟨e, occurs⟩
  have inside : n < tree.size := by
    obtain ⟨value, listed, holds⟩ := Extents.child_iff.1 ⟨e, occurs⟩
    obtain ⟨field, member, rfl⟩ := List.mem_map.1 listed
    exact (Tree.wellOrdered_ofJson read).inside parent_inside member holds
  refine blank_walk (g := ⟨tree, extents, lines⟩) unshared occurs inside narrow flat (Tree.reaches_ofJson read parent_inside)
    ?_ (by simp) ?_ (by simp) _ rfl
  · exact Nat.lt_succ_self _
  · simpa using unshared.leavesBlank_root

theorem isFinal_eq_false_iff {t : Tree} : t.isFinal e = false ↔ ∀ i, e.index = some i → ∃ value, t.next? e = some value := by
  unfold Tree.isFinal
  cases e.index with
  | none => simp
  | some i => simp [Option.isSome_iff_exists]

theorem hasBlankAfter_iff : hasBlankAfter g n ↔
    ∃ span, g.extents.get? n = some span ∧ g.tree.isAmong n separable ∧ g.lines.isBlank (g.lines.endLine span + 1) := by
  unfold hasBlankAfter
  cases g.extents.get? n with
  | none => simp
  | some span => simp

theorem joins_eq_false_iff {span : Span} (known : g.extents.get? n = some span) (item : Option Value) :
    joins g n item = false ↔ ∀ next after, item = some (.node next) → g.extents.get? next = some after →
      g.lines.startLine after ≠ g.lines.endLine span := by
  constructor
  · rintro apart next after rfl there same
    simp [joins, shareLine, known, there, same] at apart
  · intro apart
    unfold joins
    split
    · next next =>
      unfold shareLine
      rw [known]
      cases there : g.extents.get? next with
      | none => rfl
      | some after => simpa using Ne.symm (apart next after rfl there)
    · rfl

/-- In a narrow tree without references and arrays in arrays, the occurrences with a blank line are those of nodes that may keep
    one, whose nearest separating node above leaves it to them, that are not the last in an array, with a blank line after
    the last line of the node and no next element that starts on that line. -/
theorem blankAfter_ofTree_iff {json : Json} {tree : Tree} (read : Tree.ofJson json = .ok tree) (free : tree.ReferenceFree)
    (narrow : tree.Narrow) (flat : tree.FlatArrays) (extents : Extents) (source : String) {e : Edge} {n : NodeId}
    (occurs : (e, n) ∈ tree.children e.parent) :
    let lines := Text.Lines.ofText source
    ((ofTree tree extents lines).get e).blankAfter ↔
      ∃ span, extents.get? n = some span ∧ tree.isAmong n separable ∧
        (∀ above, tree.NearestSeparating above n → ¬ tree.isAmong above selfSeparating) ∧
        (∀ i, e.index = some i → ∃ value, tree.next? e = some value) ∧ lines.isBlank (lines.endLine span + 1) ∧
        ∀ next after, tree.next? e = some (.node next) → extents.get? next = some after →
          lines.startLine after ≠ lines.endLine span := by
  intro lines
  rw [blank_ofTree read free narrow flat extents lines occurs, Owes, isFinal_eq_false_iff, hasBlankAfter_iff]
  constructor
  · rintro ⟨⟨leaves, followed, span, known, own, blank⟩, apart⟩
    exact ⟨span, known, own, leaves, followed, blank, (joins_eq_false_iff known _).1 apart⟩
  · rintro ⟨span, known, own, leaves, followed, blank, apart⟩
    exact ⟨⟨leaves, followed, span, known, own, blank⟩, (joins_eq_false_iff known _).2 apart⟩

def steps : Tree :=
  ⟨#[.of .blockStmnt [("stmnts", .array [.node 1, .node 2])],
    .of .returnStmnt [] none (some ⟨0, 0, some 0⟩),
    .of .returnStmnt [] none (some ⟨0, 0, some 1⟩)]⟩

def stepsJson : Json :=
  let step : Json := .object [("@class", .string Kind.returnStmnt.className)]
  .object [("@class", .string Kind.blockStmnt.className), ("stmnts", .array [step, step])]

/-- The block leaves the blank line between its statements to the first one. -/
theorem blankAfter_ofTree_iff_steps :
    let extents : Extents := ⟨#[none, some ⟨0, 7⟩, some ⟨9, 16⟩]⟩
    Tree.ofJson stepsJson = .ok steps ∧ steps.ReferenceFree ∧ steps.Narrow ∧ steps.FlatArrays ∧
      (⟨0, 0, some 0⟩, 1) ∈ steps.children 0 ∧
      ((ofTree steps extents (Text.Lines.ofText "return;\n\nreturn;")).get ⟨0, 0, some 0⟩).blankAfter := by
  intro extents
  have read : Tree.ofJson stepsJson = .ok steps := by rfl
  have free : steps.ReferenceFree := by
    have all : ∀ p < 3, ∀ below ∈ steps.children p, steps.origin below.2 = some below.1 := by decide
    intro p edge d member
    exact all p (Extents.child_size ⟨edge, member⟩) (edge, d) member
  have flat : steps.FlatArrays := by
    rintro (_ | _ | _ | id) name items inner member
    · obtain ⟨-, rfl⟩ : name = "stmnts" ∧ items = [.node 1, .node 2] := by simpa [steps, Tree.node] using member
      simp
    all_goals simp [steps, Tree.node] at member
  have narrow : steps.Narrow := Tree.narrow_of_all (by decide)
  have occurs : (⟨0, 0, some 0⟩, 1) ∈ steps.children 0 := by decide
  refine ⟨read, free, narrow, flat, occurs, (blankAfter_ofTree_iff read free narrow flat extents _ occurs).2 ?_⟩
  refine ⟨⟨0, 7⟩, rfl, by decide, ?_, ?_, by decide, ?_⟩
  · rintro above ⟨reaches, -⟩
    obtain rfl : above = 0 := Nat.lt_one_iff.1 ((Tree.unshared_of_ofJson read free).lt_of_above reaches)
    decide
  · exact fun _ _ => ⟨.node 2, rfl⟩
  · rintro next after ⟨⟩ ⟨⟩
    decide

end Occurrences
end ApexLayout
