import ApexLayout.Occurrence
import ApexLayout.Proofs.Occurrence.Edges
import Mathlib.Data.List.Perm.Subperm

/-!
What the walk over a tree keeps, and where it comes. A property that marking a node and taking a blank line keep is kept
by the whole walk. Nodes on the way down are not entered again, yet the walk comes to every node below its start.
Marking a node changes the flags of few occurrences (`get_mark`). So the walk gives places in a chain to branches only,
only parameters are in parentheses, and a blank line is kept only after a node that may keep one.
-/
namespace ApexLayout

namespace Tree

/-- A way down from one node to another that meets no node of the path, and none twice. -/
inductive Way (t : Tree) : List NodeId → NodeId → NodeId → Prop where
  | here {path : List NodeId} {id : NodeId} (fresh : id ∉ path) : Way t path id id
  | step {path : List NodeId} {id child target : NodeId} (fresh : id ∉ path) (below : t.Child id child)
      (way : Way t (id :: path) child target) : Way t path id target

variable {t : Tree} {path : List NodeId} {id target : NodeId}

theorem Way.mono (way : t.Way path id target) {fewer : List NodeId} (among : ∀ a ∈ fewer, a ∈ path) :
    t.Way fewer id target := by
  induction way generalizing fewer with
  | here fresh => exact .here fun member => fresh (among _ member)
  | step fresh below _ ih =>
    refine .step (fun member => fresh (among _ member)) below (ih fun a member => ?_)
    rcases List.mem_cons.1 member with rfl | further
    · exact List.mem_cons_self
    · exact List.mem_cons_of_mem _ (among a further)

/-- A way meets a given node, from which the rest of it leads on, or it avoids the node. -/
theorem Way.avoid (way : t.Way path id target) (a : NodeId) : t.Way (a :: path) id target ∨ t.Way [] a target := by
  induction way with
  | @here path id fresh =>
    by_cases same : id = a
    · exact .inr (same ▸ .here nofun)
    · exact .inl (.here (by simp [same, fresh]))
  | @step path id child target fresh below way ih =>
    by_cases same : id = a
    · subst same
      exact .inr (.step nofun below (way.mono (by simp)))
    · refine ih.imp_left fun around => .step (by simp [same, fresh]) below (around.mono ?_)
      intro b member
      simp only [List.mem_cons] at member ⊢
      tauto

theorem way_of_reaches (reaches : Relation.ReflTransGen t.Child id target) : t.Way [] id target := by
  induction reaches using Relation.ReflTransGen.head_induction_on with
  | refl => exact .here nofun
  | head below _ ih => exact (ih.avoid _).elim (.step nofun below) fun found => found

end Tree

namespace Occurrences

variable {g : Ground} {P : Occurrences → Prop} {o : Occurrences} {id : NodeId} {edge : Edge}

/-- Marking a node where it occurs and taking a blank line keep the property. -/
structure Keeps (g : Ground) (P : Occurrences → Prop) : Prop where
  mark {o : Occurrences} {id : NodeId} {edge : Option Edge} (around : Around) (isLast : Bool) :
    (∀ e ∈ edge, (e, id) ∈ g.tree.children e.parent) → P o → P (mark g id edge around isLast o)
  clearBlank {o : Occurrences} (edge : Edge) : P o → P (o.clearBlank edge)

/-! ### Below one node -/

def Act.place : Act → Edge
  | .visit _ edge _ => edge
  | .join edge => edge

def Act.visited? : Act → Option (Edge × NodeId)
  | .visit child edge _ => some (edge, child)
  | .join _ => none

theorem visited?_joinActs (g : Ground) (edge : Edge) (index : Nat) (items : List Value) :
    (joinActs g edge index items).filterMap Act.visited? = [] := by
  fun_induction joinActs g edge index items with
  | case1 index first rest ih =>
    rw [List.filterMap_append, ih]
    split <;> rfl
  | case2 _ _ _ _ ih => exact ih
  | case3 => rfl

mutual
theorem visited?_valueActs (g : Ground) (edge : Edge) (isLast : Bool) (value : Value) :
    (valueActs g edge isLast value).filterMap Act.visited? = Tree.occurrences edge value := by
  cases value with
  | array items =>
    rw [valueActs, List.filterMap_append, visited?_itemActs, visited?_joinActs, List.append_nil, Tree.occurrences]
  | _ => rfl
theorem visited?_itemActs (g : Ground) (edge : Edge) (index count : Nat) (items : List Value) :
    (itemActs g edge index count items).filterMap Act.visited? = Tree.occurrencesFrom edge index items := by
  cases items with
  | nil => rfl
  | cons item rest =>
    rw [itemActs, List.filterMap_append, visited?_valueActs, visited?_itemActs, Tree.occurrencesFrom]
end

/-- The walk goes on to every occurrence below a node, in order. -/
theorem visited?_acts (g : Ground) (id : NodeId) : (acts g id).filterMap Act.visited? = g.tree.children id := by
  simp only [acts, Tree.children, List.filterMap_flatMap, visited?_valueActs]
  rfl

theorem mem_children_of_visit {child : NodeId} {isLast : Bool} (member : .visit child edge isLast ∈ acts g id) :
    (edge, child) ∈ g.tree.children id := by
  rw [← visited?_acts]
  exact List.mem_filterMap.mpr ⟨_, member, rfl⟩

theorem occurs_of_visit {child : NodeId} {isLast : Bool} (member : .visit child edge isLast ∈ acts g id) :
    (edge, child) ∈ g.tree.children edge.parent := by
  have listed := mem_children_of_visit member
  rwa [Tree.parent_of_mem_children listed]

theorem visit_of_mem_children {child : NodeId} (listed : (edge, child) ∈ g.tree.children id) :
    ∃ isLast, .visit child edge isLast ∈ acts g id := by
  rw [← visited?_acts, List.mem_filterMap] at listed
  obtain ⟨act, member, visited⟩ := listed
  cases act with
  | visit other at_edge isLast =>
    cases visited
    exact ⟨isLast, member⟩
  | join => cases visited

/-! ### The walk -/

/-- Going on from any occurrence keeps the property. -/
def Visits (g : Ground) (P : Occurrences → Prop) (visit : NodeId → Edge → Bool → Occurrences → Occurrences) : Prop :=
  ∀ id edge isLast o, (edge, id) ∈ g.tree.children edge.parent → P o → P (visit id edge isLast o)

section
variable (keeps : Keeps g P) {visit : NodeId → Edge → Bool → Occurrences → Occurrences} (visits : Visits g P visit)
include keeps visits

theorem Keeps.foldl {list : List Act} (among : list ⊆ acts g id) (holds : P o) : P (list.foldl (Act.run visit) o) := by
  refine List.foldlRecOn list _ holds fun o holds act member => ?_
  cases act with
  | visit child edge isLast => exact visits _ _ _ _ (occurs_of_visit (among member)) holds
  | join edge => exact keeps.clearBlank edge holds

theorem Keeps.foldl_reached {child : NodeId} (below : g.tree.Child id child)
    (reached : ∀ edge isLast o, (edge, child) ∈ g.tree.children edge.parent → P (visit child edge isLast o)) :
    P ((acts g id).foldl (Act.run visit) o) := by
  obtain ⟨edge, listed⟩ := below
  obtain ⟨isLast, member⟩ := visit_of_mem_children listed
  obtain ⟨front, back, split⟩ := List.append_of_mem member
  have among : back ⊆ acts g id := by simp [split]
  rw [split, List.foldl_append, List.foldl_cons]
  exact keeps.foldl visits among (reached _ _ _ (occurs_of_visit member))

end

def walkFields (g : Ground) (bound : Nat) (path : List NodeId) (around : Around) (id : NodeId)
    (o : Occurrences) : Occurrences :=
  (acts g id).foldl (Act.run fun child edge isLast o =>
    walk g bound (id :: path) (around.below (g.tree.kind? id)) child (some edge) isLast o) o

section
variable {path : List NodeId} {bound : Nat} {around : Around} {at_edge : Option Edge} {isLast : Bool}

theorem walk_fresh (fresh : id ∉ path) : walk g (bound + 1) path around id at_edge isLast o =
    mark g id at_edge around isLast (walkFields g bound path around id o) := by
  rw [walk, if_neg (by simpa using fresh), walkFields]

theorem walk_of_mem (met : id ∈ path) : walk g bound path around id at_edge isLast o = o := by
  cases bound with
  | zero => rfl
  | succ bound => rw [walk, if_pos (by simpa using met)]

end

theorem Keeps.walk (keeps : Keeps g P) (bound : Nat) (path : List NodeId) (around : Around) (id : NodeId)
    (edge : Option Edge) (isLast : Bool) (occurs : ∀ e ∈ edge, (e, id) ∈ g.tree.children e.parent) (holds : P o) :
    P (walk g bound path around id edge isLast o) := by
  induction bound generalizing path around id edge isLast o with
  | zero => exact holds
  | succ bound ih =>
    by_cases met : id ∈ path
    · rwa [walk_of_mem met]
    rw [walk_fresh met]
    refine keeps.mark around isLast occurs (keeps.foldl ?_ (List.Subset.refl _) holds)
    intro child e isLast o below holds
    refine ih _ _ _ _ _ ?_ holds
    rintro _ ⟨⟩
    exact below

theorem length_le_of_inside {path : List NodeId} {size : Nat} (distinct : path.Nodup) (inside : ∀ a ∈ path, a < size) :
    path.length ≤ size := by
  have among : path ⊆ List.range size := fun a member => List.mem_range.2 (inside a member)
  simpa using (List.subperm_of_subset distinct among).length_le

/-- What marking a node brings about holds after the walk, if there is a way to the node. -/
theorem Keeps.walk_reached (keeps : Keeps g P) {target : NodeId}
    (marked : ∀ edge around isLast o, P (Occurrences.mark g target edge around isLast o)) {path : List NodeId}
    (way : g.tree.Way path id target) (distinct : path.Nodup) (inside : ∀ a ∈ path, a < g.tree.size) (bound : Nat)
    (enough : bound + path.length = g.tree.size + 1) (around : Around) (edge : Option Edge) (isLast : Bool)
    (occurs : ∀ e ∈ edge, (e, id) ∈ g.tree.children e.parent) : P (Occurrences.walk g bound path around id edge isLast o) := by
  have room := length_le_of_inside distinct inside
  obtain ⟨bound, rfl⟩ : ∃ b, bound = b + 1 := Nat.exists_eq_add_one_of_ne_zero (by omega)
  induction way generalizing bound around edge isLast o with
  | @here path id fresh =>
    rw [walk_fresh fresh]
    exact marked _ _ _ _
  | @step path id child target fresh below way ih =>
    have longer : ∀ a ∈ id :: path, a < g.tree.size := by
      intro a member
      rcases List.mem_cons.1 member with rfl | further
      · exact Extents.child_size below
      · exact inside a further
    have distinct_here := List.nodup_cons.2 ⟨fresh, distinct⟩
    have room_here := length_le_of_inside distinct_here longer
    obtain ⟨bound, rfl⟩ : ∃ b, bound = b + 1 := Nat.exists_eq_add_one_of_ne_zero (by simp at room_here; omega)
    rw [walk_fresh fresh]
    refine keeps.mark around isLast occurs (keeps.foldl_reached ?_ below ?_)
    · intro child e isLast o below holds
      refine keeps.walk _ _ _ _ _ _ ?_ holds
      rintro _ ⟨⟩
      exact below
    · intro e isLast o below_here
      refine ih marked distinct_here longer _ _ _ ?_ room_here bound (by simp; omega)
      rintro _ ⟨⟩
      exact below_here

/-! ### Flags -/

variable {e : Edge} {tree : Tree}

theorem lookup_cons (flags : Flags) (rest : List (Edge × Flags)) :
    ((edge, flags) :: rest).lookup e = if e = edge then some flags else rest.lookup e := by
  by_cases same : e = edge
  · subst same
    simp
  · have other : (e == edge) = false := by simpa using same
    simp [List.lookup_cons, other, same]

theorem lookup_updateIn (f : Flags → Flags) (all : List (Edge × Flags)) :
    (updateIn edge f all).lookup e = if e = edge then some (f ((all.lookup edge).getD {})) else all.lookup e := by
  induction all with
  | nil => simp [updateIn, lookup_cons]
  | cons entry all ih =>
    obtain ⟨key, flags⟩ := entry
    rw [updateIn]
    by_cases here : key = edge
    · subst here
      by_cases same : e = key <;> simp [lookup_cons, same]
    · by_cases found : e = key
      · simp [found, here]
      · simp [lookup_cons, here, Ne.symm here, found, ih]

theorem get_update (f : Flags → Flags) : (o.update edge f).get e = if e = edge then f (o.get edge) else o.get e := by
  simp only [get, update, lookup_updateIn]
  split <;> simp

theorem get_clearBlank :
    (o.clearBlank edge).get e = if e = edge then { o.get e with blankAfter := false } else o.get e := by
  obtain ⟨flags, multiline⟩ := o
  simp only [get, clearBlank]
  induction flags with
  | nil => simp
  | cons entry flags ih =>
    obtain ⟨key, first⟩ := entry
    rw [List.map_cons, lookup_cons, lookup_cons]
    by_cases found : e = key
    · by_cases same : key = edge <;> simp [found, same]
    · simpa [found] using ih

theorem get_updateAll {f : Edge → Flags → Flags} (again : ∀ edge flags, f edge (f edge flags) = f edge flags)
    (edges : List Edge) : (o.updateAll edges f).get e = if e ∈ edges then f e (o.get e) else o.get e := by
  induction edges generalizing o with
  | nil => rfl
  | cons edge edges ih =>
    rw [updateAll, List.foldl_cons]
    refine ih.trans ?_
    rw [get_update]
    by_cases same : e = edge
    · subst same
      simp [again]
    · simp [same]

theorem branch_clearBlank : ((o.clearBlank edge).get e).branch = (o.get e).branch := by
  rw [get_clearBlank]
  split <;> rfl

def isBranch (tree : Tree) (e : Edge) : Bool :=
  tree.isKind e.parent .ifElseBlock && (elementEdges tree e.parent "ifBlocks").contains e

theorem parent_of_mem_elementEdges {id : NodeId} {name : String} (member : e ∈ elementEdges tree id name) :
    e.parent = id := by
  unfold elementEdges at member
  split at member
  · obtain ⟨i, -, rfl⟩ := List.mem_map.1 member
    rfl
  · cases member

theorem mem_elementEdges {name : String} : e ∈ elementEdges tree e.parent name ↔
    ((tree.node e.parent).slot? name).map Nat.toUInt16 = some e.slot ∧
      ∃ i < (tree.items e.parent name).length, e.index = some i := by
  obtain ⟨parent, slot, index⟩ := e
  unfold elementEdges
  cases (tree.node parent).slot? name with
  | none => simp
  | some found =>
    simp only [List.mem_map, List.mem_range, Edge.mk.injEq, true_and, Option.map_some, Option.some.injEq]
    constructor
    · rintro ⟨i, less, rfl, rfl⟩
      exact ⟨rfl, i, less, rfl⟩
    · rintro ⟨rfl, i, less, rfl⟩
      exact ⟨i, less, rfl, rfl⟩

theorem mem_elementEdges_iff {id : NodeId} (known : tree.isKind id .ifElseBlock) :
    e ∈ elementEdges tree id "ifBlocks" ↔ isBranch tree e ∧ e.parent = id := by
  simp only [isBranch, Bool.and_eq_true, List.contains_iff_mem]
  constructor
  · intro member
    obtain rfl := parent_of_mem_elementEdges member
    exact ⟨⟨known, member⟩, rfl⟩
  · rintro ⟨⟨-, member⟩, rfl⟩
    exact member

/-- Marking a node sets the flags of its occurrence, and those of its branches and its parameters. -/
theorem get_mark (id : NodeId) (at_edge : Option Edge) (around : Around) (isLast : Bool) :
    (mark g id at_edge around isLast o).get e =
      { blankAfter := (o.get e).blankAfter ||
          (at_edge == some e && (around.keepsBlanks && !isLast && hasBlankAfter g id))
        isLast := (o.get e).isLast || (at_edge == some e && isLast)
        inParentheses := (o.get e).inParentheses || decide (e ∈ elementEdges g.tree id "inputParameters")
        branch := if isBranch g.tree e ∧ e.parent = id then e.index else (o.get e).branch
        inAssignment := (o.get e).inAssignment ||
          (at_edge == some e && (around.inAssignment && g.tree.isAmong id [.soqlExpr, .soslExpr])) } := by
  unfold mark
  extract_lets listed branched passed
  have at_list : listed.get e = o.get e := by
    unfold listed
    split <;> rfl
  have at_branch : branched.get e =
      { o.get e with branch := if isBranch g.tree e ∧ e.parent = id then e.index else (o.get e).branch } := by
    unfold branched
    split
    · next known =>
      refine (get_updateAll (by intro _ _; rfl) _).trans ?_
      rw [at_list, if_congr (mem_elementEdges_iff known) rfl rfl]
      split <;> rfl
    · next other =>
      have no_branch : ¬ (isBranch g.tree e = true ∧ e.parent = id) := by
        rintro ⟨branch, rfl⟩
        exact other (Bool.and_eq_true_iff.1 branch).1
      rw [at_list, if_neg no_branch]
  have at_pass : passed.get e = { branched.get e with
      inParentheses := (branched.get e).inParentheses || decide (e ∈ elementEdges g.tree id "inputParameters") } := by
    refine (get_updateAll (by intro _ _; rfl) _).trans ?_
    split <;> simp [*]
  have one {c : Bool} {o : Occurrences} {at_edge : Edge} {f : Flags → Flags} :
      (if c then o.update at_edge f else o).get e = if some at_edge == some e && c then f (o.get e) else o.get e := by
    cases c with
    | false => simp
    | true =>
      by_cases here : e = at_edge
      · simp [get_update, here]
      · simp [get_update, here, Ne.symm here]
  cases at_edge with
  | none => simp [at_pass, at_branch]
  | some at_edge =>
    simp only [one, at_pass, at_branch]
    split_ifs <;> simp_all

theorem branch_mark (id : NodeId) (at_edge : Option Edge) (around : Around) (isLast : Bool) :
    ((mark g id at_edge around isLast o).get e).branch =
      if isBranch g.tree e ∧ e.parent = id then e.index else (o.get e).branch := by
  rw [get_mark]

/-- A branch has its place in the chain, and nothing else has a place. -/
theorem branch_ofTree (tree : Tree) (extents : Extents) (lines : Text.Lines)
    (reaches : Relation.ReflTransGen tree.Child tree.root e.parent) :
    ((ofTree tree extents lines).get e).branch = if isBranch tree e then e.index else none := by
  have keeps : Keeps ⟨tree, extents, lines⟩ fun o => (o.get e).branch = if isBranch tree e then e.index else none := by
    refine ⟨fun around isLast _ holds => ?_, fun edge holds => branch_clearBlank.trans holds⟩
    rw [branch_mark, holds]
    split
    · next both => rw [if_pos both.1]
    · rfl
  by_cases branch : isBranch tree e = true
  · have way : tree.Way [] tree.root e.parent := Tree.way_of_reaches reaches
    refine keeps.walk_reached (fun at_edge around isLast o => ?_) way List.nodup_nil nofun _ rfl _ _ _ nofun
    rw [branch_mark, if_pos ⟨branch, rfl⟩, if_pos branch]
  · refine keeps.walk _ _ _ _ _ _ nofun ?_
    rw [if_neg branch]
    rfl

theorem mem_of_inParentheses {extents : Extents} {lines : Text.Lines}
    (inside : ((ofTree tree extents lines).get e).inParentheses) : e ∈ elementEdges tree e.parent "inputParameters" := by
  have keeps : Keeps ⟨tree, extents, lines⟩ fun o =>
      (o.get e).inParentheses → e ∈ elementEdges tree e.parent "inputParameters" := by
    refine ⟨fun around isLast _ holds => ?_, fun edge holds => ?_⟩
    · rw [get_mark]
      intro either
      rcases Bool.or_eq_true_iff.1 either with before | marked
      · exact holds before
      · have member := of_decide_eq_true marked
        rwa [parent_of_mem_elementEdges member]
    · rw [get_clearBlank]
      split <;> exact holds
  refine keeps.walk _ _ _ _ _ _ (by simp) ?_ inside
  intro unset
  cases unset

theorem separable_of_blankAfter {extents : Extents} {lines : Text.Lines}
    (blank : ((ofTree tree extents lines).get e).blankAfter) :
    ∃ id, (e, id) ∈ tree.children e.parent ∧ tree.isAmong id separable := by
  have keeps : Keeps ⟨tree, extents, lines⟩ fun o =>
      (o.get e).blankAfter → ∃ id, (e, id) ∈ tree.children e.parent ∧ tree.isAmong id separable := by
    refine ⟨fun {_ id _} around isLast occurs holds => ?_, fun edge holds => ?_⟩
    · rw [get_mark]
      intro either
      rcases Bool.or_eq_true_iff.1 either with before | marked
      · exact holds before
      · simp only [Bool.and_eq_true, beq_iff_eq] at marked
        obtain ⟨here, -, blank⟩ := marked
        refine ⟨id, occurs e here, ?_⟩
        unfold hasBlankAfter at blank
        split at blank
        · exact (Bool.and_eq_true_iff.1 blank).1
        · cases blank
    · rw [get_clearBlank]
      split
      · intro unset
        cases unset
      · exact holds
  refine keeps.walk _ _ _ _ _ _ (by simp) ?_ blank
  intro unset
  cases unset

end Occurrences
end ApexLayout
