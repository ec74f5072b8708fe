import ApexLayout.Comment.Basic
import Mathlib.Data.List.Sort

/-!
A shelf keeps every comment put on it exactly once, among those of its owner. Adding a comment and
sorting the comments of a node keep this; sorting also restores the order by where the comments
start, which adding a comment out of turn may break.
-/
namespace ApexLayout.Shelf

variable {s : Shelf}

def held (s : Shelf) : List BoundComment := (s.owned.map (·.2)).flatten ++ s.loose

/-! ### Changing the comments of a node -/

theorem lookup_modifyIn (id key : NodeId) (f : List BoundComment → List BoundComment)
    (owned : List (NodeId × List BoundComment)) :
    ((modifyIn id f owned).lookup key).getD [] =
      if key = id then f ((owned.lookup id).getD []) else (owned.lookup key).getD [] := by
  induction owned with
  | nil =>
    by_cases same : key = id
    · simp [modifyIn, same]
    · have other : (key == id) = false := by simpa using same
      simp [modifyIn, List.lookup_cons, same, other]
  | cons entry owned ih =>
    obtain ⟨first, list⟩ := entry
    by_cases here : first = id
    · subst here
      by_cases same : key = first
      · simp [modifyIn, same]
      · have other : (key == first) = false := by simpa using same
        simp [modifyIn, List.lookup_cons, same, other]
    · have apart : (id == first) = false := by simpa using Ne.symm here
      by_cases found : key = first
      · subst found
        simp [modifyIn, here]
      · have other : (key == first) = false := by simpa using found
        simpa [modifyIn, List.lookup_cons, here, other, apart] using ih

theorem keys_modifyIn (id : NodeId) (f : List BoundComment → List BoundComment)
    (owned : List (NodeId × List BoundComment)) :
    (modifyIn id f owned).map (·.1) = if id ∈ owned.map (·.1) then owned.map (·.1) else owned.map (·.1) ++ [id] := by
  induction owned with
  | nil => simp [modifyIn]
  | cons entry owned ih =>
    obtain ⟨first, list⟩ := entry
    by_cases here : first = id
    · simp [modifyIn, here]
    · by_cases member : id ∈ owned.map (·.1)
      · simp [modifyIn, here, Ne.symm here, ih, member]
      · simp [modifyIn, here, Ne.symm here, ih, member]

theorem flatten_modifyIn_perm (id : NodeId) {f : List BoundComment → List BoundComment} {extra : List BoundComment}
    (adds : ∀ list, (f list).Perm (list ++ extra)) (owned : List (NodeId × List BoundComment)) :
    ((modifyIn id f owned).map (·.2)).flatten.Perm ((owned.map (·.2)).flatten ++ extra) := by
  induction owned with
  | nil => simpa [modifyIn] using adds []
  | cons entry owned ih =>
    obtain ⟨first, list⟩ := entry
    by_cases here : first = id
    · simp only [modifyIn, here, ↓reduceIte, List.map_cons, List.flatten_cons, List.append_assoc]
      refine ((adds list).append_right _).trans ?_
      rw [List.append_assoc]
      exact List.perm_append_comm.append_left _
    · simp only [modifyIn, here, ↓reduceIte, List.map_cons, List.flatten_cons, List.append_assoc]
      exact ih.append_left _

theorem of_modify (s : Shelf) (id key : NodeId) (f : List BoundComment → List BoundComment) :
    (s.modify id f).of key = if key = id then f (s.of id) else s.of key :=
  lookup_modifyIn id key f s.owned

theorem held_modify_perm (s : Shelf) (id : NodeId) (f : List BoundComment → List BoundComment)
    (extra : List BoundComment) (adds : ∀ list, (f list).Perm (list ++ extra)) :
    (s.modify id f).held.Perm (s.held ++ extra) := by
  refine ((flatten_modifyIn_perm id adds s.owned).append_right s.loose).trans ?_
  rw [held, List.append_assoc, List.append_assoc]
  exact List.perm_append_comm.append_left _

theorem distinct_modify (id : NodeId) (f : List BoundComment → List BoundComment)
    (distinct : (s.owned.map (·.1)).Nodup) : ((s.modify id f).owned.map (·.1)).Nodup := by
  simp only [modify, keys_modifyIn]
  split
  · exact distinct
  · next absent =>
    refine List.nodup_append.mpr ⟨distinct, by simp, ?_⟩
    intro key member other single same
    rw [List.mem_singleton.mp single] at same
    exact absent (same ▸ member)

theorem mem_of_iff (distinct : (s.owned.map (·.1)).Nodup) (id : NodeId) (c : BoundComment) :
    c ∈ s.of id ↔ ∃ list, (id, list) ∈ s.owned ∧ c ∈ list := by
  obtain ⟨owned, loose⟩ := s
  induction owned with
  | nil => simp [of]
  | cons entry owned ih =>
    obtain ⟨first, list⟩ := entry
    obtain ⟨absent, distinct⟩ := List.nodup_cons.mp distinct
    by_cases here : id = first
    · subst here
      have no_more : ∀ other, (id, other) ∉ owned :=
        fun other member => absent (List.mem_map.mpr ⟨(id, other), member, rfl⟩)
      simp [of, no_more]
    · have other : (id == first) = false := by simpa using here
      simpa [of, List.lookup_cons, here, other] using ih distinct

theorem mem_held_iff (distinct : (s.owned.map (·.1)).Nodup) (c : BoundComment) :
    c ∈ s.held ↔ (∃ id, c ∈ s.of id) ∨ c ∈ s.loose := by
  simp only [held, List.mem_append, List.mem_flatten, List.mem_map, mem_of_iff distinct]
  constructor
  · rintro (⟨list, ⟨⟨id, _⟩, member, rfl⟩, inside⟩ | loose)
    · exact .inl ⟨id, _, member, inside⟩
    · exact .inr loose
  · rintro (⟨id, list, member, inside⟩ | loose)
    · exact .inl ⟨list, ⟨(id, list), member, rfl⟩, inside⟩
    · exact .inr loose

theorem of_sublist_held (s : Shelf) (id : NodeId) : (s.of id).Sublist s.held := by
  unfold of
  cases found : s.owned.lookup id with
  | none => exact List.nil_sublist _
  | some list =>
    obtain ⟨before, after, split, _⟩ := List.lookup_eq_some_iff.mp found
    have member : list ∈ s.owned.map (·.2) := by simp [split]
    exact (List.sublist_flatten_of_mem member).trans (List.sublist_append_left _ _)

section
variable {s : Shelf} {c : BoundComment} (distinct : (s.held.map (·.index)).Nodup) (member : c ∈ s.held)
include distinct member

theorem index_mem_iff {list : List BoundComment} (inside : ∀ d ∈ list, d ∈ s.held) :
    c.index ∈ list.map (·.index) ↔ c ∈ list := by
  refine ⟨fun numbered => ?_, fun here => List.mem_map.mpr ⟨c, here, rfl⟩⟩
  obtain ⟨d, here, same⟩ := List.mem_map.mp numbered
  rw [← List.inj_on_of_nodup_map distinct (inside d here) member same]
  exact here

theorem count_sublist {list : List BoundComment} (part : list.Sublist s.held) :
    (list.map (·.toComment)).count c.toComment = if c ∈ list then 1 else 0 := by
  have numbers : ((list.map (·.toComment)).map (·.index)).Nodup := by
    rw [List.map_map]
    exact distinct.sublist (part.map _)
  have known : c.toComment ∈ list.map (·.toComment) ↔ c ∈ list := by
    refine ⟨fun noted => ?_, fun here => List.mem_map.mpr ⟨c, here, rfl⟩⟩
    rw [← index_mem_iff distinct member fun d here => part.subset here]
    simpa using List.mem_map_of_mem (f := Comment.index) noted
  rw [numbers.of_map.count]
  simp only [known]

end

/-! ### Shelves that hold comments -/

/-- Every node has one list, and every comment stands among those of its owner. -/
structure Filed (s : Shelf) : Prop where
  distinct : (s.owned.map (·.1)).Nodup
  owned : ∀ id, ∀ c ∈ s.of id, c.owner = some id
  unowned : ∀ c ∈ s.loose, c.owner = none

/-- The shelf holds exactly the given comments, each once, among those of its owner. -/
structure Holds (s : Shelf) (comments : List Comment) : Prop extends Filed s where
  exactly : (s.held.map (·.toComment)).Perm comments

def StartsNoLater (a b : BoundComment) : Prop := a.span.start ≤ b.span.start

/-- The comments of every node but some, and those of none, are in order. -/
structure SortedBut (s : Shelf) (exempt : List NodeId) : Prop where
  nodes : ∀ id ∉ exempt, (s.of id).Pairwise StartsNoLater
  loose : s.loose.Pairwise StartsNoLater

theorem holds_empty : Holds {} [] := ⟨⟨by simp, by simp [of], by simp⟩, by simp [held]⟩

theorem sortedBut_empty (exempt : List NodeId) : SortedBut {} exempt := ⟨by simp [of], by simp⟩

namespace Filed

variable {s : Shelf}

theorem modify (filed : Filed s) (id : NodeId) {f : List BoundComment → List BoundComment}
    (kept : ∀ list, f list ⊆ list) : Filed (s.modify id f) := by
  refine ⟨distinct_modify id f filed.distinct, fun key c member => ?_, filed.unowned⟩
  rw [of_modify] at member
  split at member
  · next here =>
    subst here
    exact filed.owned key c (kept _ member)
  · exact filed.owned key c member

section
variable {c : BoundComment} (member : c ∈ s.held)
include member

theorem mem_of_iff_owner (filed : Filed s) (id : NodeId) : c ∈ s.of id ↔ c.owner = some id := by
  refine ⟨filed.owned id c, fun owner => ?_⟩
  rcases (mem_held_iff filed.distinct c).mp member with ⟨key, inside⟩ | loose
  · obtain rfl : key = id := Option.some.inj ((filed.owned key c inside).symm.trans owner)
    exact inside
  · cases (filed.unowned c loose).symm.trans owner

theorem mem_loose_iff_owner (filed : Filed s) : c ∈ s.loose ↔ c.owner = none := by
  refine ⟨filed.unowned c, fun owner => ?_⟩
  rcases (mem_held_iff filed.distinct c).mp member with ⟨key, inside⟩ | loose
  · cases (filed.owned key c inside).symm.trans owner
  · exact loose

variable (distinct : (s.held.map (·.index)).Nodup)
include distinct

theorem index_mem_of_iff (filed : Filed s) (id : NodeId) : c.index ∈ (s.of id).map (·.index) ↔ c.owner = some id := by
  rw [← filed.mem_of_iff_owner member]
  exact index_mem_iff distinct member fun d inside => (mem_held_iff filed.distinct d).mpr (.inl ⟨id, inside⟩)

theorem index_mem_loose_iff (filed : Filed s) : c.index ∈ s.loose.map (·.index) ↔ c.owner = none := by
  rw [← filed.mem_loose_iff_owner member]
  exact index_mem_iff distinct member fun d loose => (mem_held_iff filed.distinct d).mpr (.inr loose)

/-- With distinct numbers, a comment stands once among those of its owner, and nowhere else. -/
theorem count_of (filed : Filed s) (id : NodeId) (q : BoundComment → Bool) :
    (((s.of id).filter q).map (·.toComment)).count c.toComment = if c.owner == some id && q c then 1 else 0 := by
  rw [count_sublist distinct member (List.filter_sublist.trans (of_sublist_held s id))]
  simp [filed.mem_of_iff_owner member]

theorem count_loose (filed : Filed s) (q : BoundComment → Bool) :
    ((s.loose.filter q).map (·.toComment)).count c.toComment = if c.owner == none && q c then 1 else 0 := by
  rw [count_sublist distinct member (List.filter_sublist.trans (List.sublist_append_right _ _))]
  simp [filed.mem_loose_iff_owner member]

end
end Filed

namespace Holds

variable {s : Shelf} {comments : List Comment} {c : BoundComment}

section
variable (holds : Holds s comments)
include holds

theorem of_perm {others : List Comment} (same : comments.Perm others) : Holds s others :=
  ⟨holds.toFiled, holds.exactly.trans same⟩

theorem mem (member : c ∈ s.held) : c.toComment ∈ comments :=
  holds.exactly.mem_iff.mp (List.mem_map.mpr ⟨c, member, rfl⟩)

theorem mem_of_owned {id : NodeId} (member : c ∈ s.of id) :
    c.toComment ∈ comments :=
  holds.mem ((mem_held_iff holds.distinct c).mpr (.inl ⟨id, member⟩))

theorem mem_of_loose (member : c ∈ s.loose) : c.toComment ∈ comments :=
  holds.mem ((mem_held_iff holds.distinct c).mpr (.inr member))

theorem add (c : BoundComment) : Holds (s.add c) (comments ++ [c.toComment]) := by
  unfold Shelf.add
  split
  · next id owner =>
    refine ⟨⟨distinct_modify id _ holds.distinct, fun key d member => ?_, holds.unowned⟩, ?_⟩
    · rw [of_modify] at member
      split at member
      · next same =>
        subst same
        rcases List.mem_append.mp member with before | last
        · exact holds.owned key d before
        · rw [List.mem_singleton.mp last, owner]
      · exact holds.owned key d member
    · have more := (held_modify_perm s id (· ++ [c]) [c] fun list => .refl _).map (·.toComment)
      rw [List.map_append] at more
      exact more.trans (holds.exactly.append_right _)
  · next owner =>
    refine ⟨⟨holds.distinct, holds.owned, fun d member => ?_⟩, ?_⟩
    · rcases List.mem_append.mp member with before | last
      · exact holds.unowned d before
      · rw [List.mem_singleton.mp last, owner]
    · simpa [held] using holds.exactly.append_right [c.toComment]

theorem addAll (bound : List BoundComment) :
    Holds (bound.foldl Shelf.add s) (comments ++ bound.map (·.toComment)) := by
  induction bound generalizing s comments with
  | nil => simpa using holds
  | cons c bound ih => simpa using ih (holds.add c)

theorem modify (id : NodeId) {f : List BoundComment → List BoundComment}
    (moves : ∀ list, (f list).Perm list) : Holds (s.modify id f) comments := by
  refine ⟨holds.toFiled.modify id fun list => (moves list).subset, ?_⟩
  have same := held_modify_perm s id f [] fun list => by simpa using moves list
  rw [List.append_nil] at same
  exact (same.map _).trans holds.exactly

theorem sort (id : NodeId) : Holds (s.sort id) comments :=
  holds.modify id fun list => List.mergeSort_perm list _

theorem all_eq {n : Nat} (numbered : comments.map (·.index) = List.range n) :
    s.all.map (·.toComment) = comments := by
  have ascending : (s.all.map (·.toComment)).Pairwise fun a b => a.index ≤ b.index := by
    rw [List.pairwise_map]
    refine (List.pairwise_mergeSort ?_ ?_ s.held).imp fun before => of_decide_eq_true before
    · simp only [decide_eq_true_eq]
      omega
    · simp only [Bool.or_eq_true, decide_eq_true_eq]
      omega
  have numbers : comments.Pairwise fun a b => a.index ≤ b.index := by
    have in_turn : (comments.map (·.index)).Pairwise (· ≤ ·) := numbered ▸ List.pairwise_le_range
    exact List.pairwise_map.mp in_turn
  have perm : (s.all.map (·.toComment)).Perm comments := ((List.mergeSort_perm _ _).map _).trans holds.exactly
  refine perm.eq_of_pairwise (fun a b first second before after => ?_) ascending numbers
  have distinct : (comments.map (·.index)).Nodup := numbered ▸ List.nodup_range
  exact List.inj_on_of_nodup_map distinct (perm.mem_iff.mp first) second (Nat.le_antisymm before after)

end

end Holds

namespace SortedBut

variable {s : Shelf} {exempt : List NodeId}

theorem add (sorted : SortedBut s exempt) {c : BoundComment}
    (late_node : ∀ id, ∀ d ∈ s.of id, StartsNoLater d c) (late_loose : ∀ d ∈ s.loose, StartsNoLater d c) :
    SortedBut (s.add c) exempt := by
  have snoc : ∀ {list : List BoundComment}, list.Pairwise StartsNoLater → (∀ d ∈ list, StartsNoLater d c) →
      (list ++ [c]).Pairwise StartsNoLater := by
    intro list ordered late
    refine List.pairwise_append.mpr ⟨ordered, by simp, ?_⟩
    intro d member e last
    rw [List.mem_singleton.mp last]
    exact late d member
  unfold Shelf.add
  split
  · next id owner =>
    refine ⟨fun key free => ?_, sorted.loose⟩
    rw [of_modify]
    split
    · next same =>
      subst same
      exact snoc (sorted.nodes key free) (late_node key)
    · exact sorted.nodes key free
  · exact ⟨sorted.nodes, snoc sorted.loose late_loose⟩

theorem addAll (sorted : SortedBut s exempt) {bound : List BoundComment}
    (free : ∀ c ∈ bound, ∃ id ∈ exempt, c.owner = some id) : SortedBut (bound.foldl Shelf.add s) exempt := by
  induction bound generalizing s with
  | nil => exact sorted
  | cons c bound ih =>
    refine ih ?_ fun d member => free d (List.mem_cons_of_mem _ member)
    obtain ⟨id, member, owner⟩ := free c List.mem_cons_self
    refine ⟨fun key outside => ?_, by simpa [Shelf.add, owner, Shelf.modify] using sorted.loose⟩
    have other : key ≠ id := fun same => outside (same ▸ member)
    simpa [Shelf.add, owner, of_modify, other] using sorted.nodes key outside

theorem sort {id : NodeId} (sorted : SortedBut s (id :: exempt)) : SortedBut (s.sort id) exempt := by
  refine ⟨fun key free => ?_, sorted.loose⟩
  rw [Shelf.sort, of_modify]
  split
  · have ordered := @List.pairwise_mergeSort _ (fun a b : BoundComment => a.span.start ≤ b.span.start)
      (by simp only [decide_eq_true_eq]; omega) (by simp only [Bool.or_eq_true, decide_eq_true_eq]; omega) (s.of id)
    exact ordered.imp (by simp [StartsNoLater])
  · next other => exact sorted.nodes key (by simp [other, free])

end SortedBut
end ApexLayout.Shelf
