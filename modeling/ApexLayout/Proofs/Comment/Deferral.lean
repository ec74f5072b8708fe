import ApexLayout.Proofs.Comment.Binding
import Mathlib.Data.List.Induction

/-!
Which comments owe the blank line after a node. Moving a blank line changes the last trailing comment of its node and
nothing else, so all blank lines are moved as if at once (`foldl_deferBlank`). All comments stay where they are.
-/
namespace ApexLayout

theorem Occurrences.mem_blankEdges_clearBlank {o : Occurrences} {edge e : Edge} :
    e ∈ (o.clearBlank edge).blankEdges ↔ e ∈ o.blankEdges ∧ e ≠ edge := by
  simp only [blankEdges, clearBlank, List.mem_map, List.mem_filter]
  constructor
  · rintro ⟨_, ⟨⟨⟨at_edge, flags⟩, member, rfl⟩, blank⟩, rfl⟩
    by_cases same : at_edge = edge
    · simp [same] at blank
    · simp only [if_neg same] at blank
      exact ⟨⟨(at_edge, flags), ⟨member, blank⟩, rfl⟩, same⟩
  · rintro ⟨⟨⟨at_edge, flags⟩, ⟨member, blank⟩, rfl⟩, other⟩
    exact ⟨(at_edge, flags), ⟨⟨(at_edge, flags), member, by simp [other]⟩, blank⟩, rfl⟩

theorem Occurrences.mem_blankEdges_of_get {o : Occurrences} {e : Edge}
    (blank : (o.get e).blankAfter) : e ∈ o.blankEdges := by
  unfold get at blank
  cases found : o.flags.lookup e with
  | none => simp [found] at blank
  | some flags =>
    obtain ⟨before, after, split, -⟩ := List.lookup_eq_some_iff.1 found
    have member : (e, flags) ∈ o.flags := by simp [split]
    exact List.mem_map.2 ⟨(e, flags), List.mem_filter.2 ⟨member, by simpa [found] using blank⟩, rfl⟩

namespace Shelf

variable {id : NodeId}

/-- A comment, whatever blank line it owes. -/
def plainly (c : BoundComment) : BoundComment := { c with blankAfter := none }

theorem map_plainly_owe (list : List BoundComment) : (owe list).map plainly = list.map plainly := by
  induction list with
  | nil => rfl
  | cons c list ih =>
    unfold owe
    split
    · simp [ih]
    · split
      · simp [plainly]
      · rfl

/-- What does not depend on the blank line owed is the same of comments that are plainly the same. -/
theorem map_eq_of_plainly {β : Type} (view : BoundComment → β) (blind : ∀ c, view (plainly c) = view c)
    {list other : List BoundComment} (same : list.map plainly = other.map plainly) : list.map view = other.map view := by
  have seen := congrArg (List.map view) same
  simpa only [List.map_map, Function.comp_def, blind] using seen

theorem of_oweAt (s : Shelf) (owes : NodeId → Bool) (id : NodeId) :
    (s.oweAt owes).of id = if owes id then owe (s.of id) else s.of id := by
  obtain ⟨owned, loose⟩ := s
  simp only [of, oweAt]
  induction owned with
  | nil => simp [owe]
  | cons entry owned ih =>
    obtain ⟨key, list⟩ := entry
    by_cases here : id = key
    · simp [here]
    · have other : (id == key) = false := by simpa using here
      simpa [List.lookup_cons, other] using ih

theorem filed_oweAt {s : Shelf} (filed : s.Filed) (owes : NodeId → Bool) :
    (s.oweAt owes).Filed ∧ (s.oweAt owes).held.map plainly = s.held.map plainly := by
  have same (owed : Bool) (list : List BoundComment) : (if owed then owe list else list).map plainly = list.map plainly := by
    cases owed with
    | false => rfl
    | true => exact map_plainly_owe list
  refine ⟨⟨by simpa [oweAt, Function.comp_def] using filed.distinct, fun id c member => ?_, filed.unowned⟩, ?_⟩
  · rw [of_oweAt] at member
    have seen : plainly c ∈ (s.of id).map plainly := same (owes id) (s.of id) ▸ List.mem_map_of_mem member
    obtain ⟨d, before, plain⟩ := List.mem_map.mp seen
    exact (congrArg BoundComment.owner plain :).symm.trans (filed.owned id d before)
  · simp [held, oweAt, List.map_flatten, Function.comp_def, same]

def owing (c : BoundComment) : BoundComment := if c.blankAfter = some false then c else { c with blankAfter := some true }

@[simp] theorem plainly_owing (c : BoundComment) : plainly (owing c) = plainly c := by
  unfold owing
  split <;> rfl

@[simp] theorem anchor_owing (c : BoundComment) : (owing c).anchor = c.anchor := by
  unfold owing
  split <;> rfl

theorem owing_owing (c : BoundComment) : owing (owing c) = owing c := by
  unfold owing
  split <;> simp

theorem owe_cons (c : BoundComment) (rest : List BoundComment) :
    owe (c :: rest) = if rest.any (·.anchor == .trailing) then c :: owe rest
      else if c.anchor = .trailing then owing c :: rest else c :: rest := by
  rw [owe]
  by_cases later : rest.any (·.anchor == .trailing)
  · rw [if_pos later, if_pos later]
  · rw [if_neg later, if_neg later]
    by_cases trails : c.anchor = .trailing
    · by_cases never : c.blankAfter = some false
      · simp [trails, owing, never]
      · simp [trails, owing, never]
    · simp [trails]

theorem owe_concat (front : List BoundComment) (c : BoundComment) :
    owe (front ++ [c]) = if c.anchor = .trailing then front ++ [owing c] else owe front ++ [c] := by
  induction front with
  | nil => simp [owe_cons, owe]
  | cons first front ih =>
    rw [List.cons_append, owe_cons, ih, owe_cons, List.any_append]
    by_cases trails : c.anchor = .trailing
    · simp [trails]
    · by_cases later : front.any (·.anchor == .trailing)
      · simp [trails, later]
      · by_cases here : first.anchor = .trailing
        · simp [trails, later, here]
        · simp [trails, later, here]

theorem owe_owe (list : List BoundComment) : owe (owe list) = owe list := by
  induction list using List.reverseRecOn with
  | nil => rfl
  | append_singleton front c ih =>
    by_cases trails : c.anchor = .trailing
    · simp [owe_concat, trails, owing_owing]
    · simp [owe_concat, trails, ih]

theorem owe_eq_self {list : List BoundComment} (none_trails : ∀ c ∈ list, c.anchor ≠ .trailing) : owe list = list := by
  induction list using List.reverseRecOn with
  | nil => rfl
  | append_singleton front c ih =>
    rw [owe_concat, if_neg (none_trails c (by simp)), ih fun d member => none_trails d (by simp [member])]

/-- Comments with certain anchors owe what they owe by themselves. -/
theorem filter_owe (keeps : Anchor → Bool) (list : List BoundComment) :
    (owe list).filter (keeps ·.anchor) = owe (list.filter (keeps ·.anchor)) := by
  induction list using List.reverseRecOn with
  | nil => rfl
  | append_singleton front c ih =>
    by_cases trails : c.anchor = .trailing
    · by_cases kept : keeps .trailing
      · simp [owe_concat, trails, kept]
      · have aside : owe (front.filter (keeps ·.anchor)) = front.filter (keeps ·.anchor) := by
          refine owe_eq_self fun d member same => kept ?_
          rw [← same]
          exact (List.mem_filter.mp member).2
        simp [owe_concat, trails, kept, aside]
    · by_cases kept : keeps c.anchor
      · simp [owe_concat, trails, kept, ih]
      · simp [owe_concat, trails, kept, ih]

variable (tree : Tree)

def isDefinedBy (edges : List Edge) (id : NodeId) : Bool :=
  edges.any fun edge => tree.target? edge == some id && tree.origin id == some edge

theorem isDefinedBy_iff {edges : List Edge} :
    isDefinedBy tree edges id ↔ ∃ edge ∈ edges, tree.target? edge = some id ∧ tree.origin id = some edge := by
  simp [isDefinedBy]

theorem isDefinedBy_clearBlank {edge : Edge} {node : NodeId} (target : tree.target? edge = some node)
    (origin : tree.origin node = some edge) (o : Occurrences) (id : NodeId) :
    isDefinedBy tree (o.clearBlank edge).blankEdges id ↔ isDefinedBy tree o.blankEdges id ∧ id ≠ node := by
  rw [isDefinedBy_iff, isDefinedBy_iff]
  constructor
  · rintro ⟨e, kept, leads, defines⟩
    obtain ⟨blank, apart⟩ := Occurrences.mem_blankEdges_clearBlank.1 kept
    refine ⟨⟨e, blank, leads, defines⟩, fun same => apart ?_⟩
    exact Option.some.inj (defines.symm.trans (same ▸ origin))
  · rintro ⟨⟨e, blank, leads, defines⟩, other⟩
    refine ⟨e, Occurrences.mem_blankEdges_clearBlank.2 ⟨blank, fun same => other ?_⟩, leads, defines⟩
    exact Option.some.inj (leads.symm.trans (same ▸ target))

theorem filter_of_owe {s t : Shelf} (same : t.of id = s.of id ∨ t.of id = owe (s.of id)) (keeps : Anchor → Bool)
    (aside : keeps .trailing = false) : (t.of id).filter (keeps ·.anchor) = (s.of id).filter (keeps ·.anchor) := by
  rcases same with same | owed
  · rw [same]
  · rw [owed, filter_owe, owe_eq_self fun c member trails => ?_]
    simp [trails, aside] at member

theorem isIgnored_of_owe {s t : Shelf} (same : t.of id = s.of id ∨ t.of id = owe (s.of id)) :
    t.isIgnored id = s.isIgnored id := by
  have leading : t.leading id = s.leading id := filter_of_owe same (· == .leading) rfl
  simp only [isIgnored, leading]

theorem oweAt_oweAt (s : Shelf) (owes further : NodeId → Bool) :
    (s.oweAt owes).oweAt further = s.oweAt fun id => owes id || further id := by
  simp only [oweAt, List.map_map, mk.injEq, and_true]
  refine List.map_congr_left fun entry _ => ?_
  by_cases first : owes entry.1
  · simp [first, owe_owe]
  · simp [first]

/-- All nodes that the occurrences define owe their blank lines at once. -/
theorem foldl_deferBlank (s : Shelf) (edges : List Edge) :
    edges.foldl (deferBlank tree) s = s.oweAt fun id => isDefinedBy tree edges id && !s.isIgnored id := by
  induction edges generalizing s with
  | nil => simp [isDefinedBy, oweAt]
  | cons edge edges ih =>
    have request (id : NodeId) : (deferBlank tree s edge).isIgnored id = s.isIgnored id := by
      refine isIgnored_of_owe ?_
      rw [deferBlank, of_oweAt]
      split
      · exact .inr rfl
      · exact .inl rfl
    simp only [List.foldl_cons, ih, request]
    rw [deferBlank, oweAt_oweAt]
    congr
    funext id
    simp [isDefinedBy, Bool.and_or_distrib_right]

/-- The comments of a node with all blank lines moved: the last trailing one owes a blank line if the occurrence that
    defines the node keeps one and the node is not taken as it is. -/
theorem of_deferBlanks (s : Shelf) (occurrences : Occurrences) (id : NodeId) :
    (s.deferBlanks tree occurrences).of id =
      if isDefinedBy tree occurrences.blankEdges id && !s.isIgnored id then owe (s.of id) else s.of id := by
  rw [deferBlanks, foldl_deferBlank, of_oweAt]

theorem filed_deferBlanks (occurrences : Occurrences) {s : Shelf} (filed : s.Filed) :
    (s.deferBlanks tree occurrences).Filed ∧ (s.deferBlanks tree occurrences).held.map plainly = s.held.map plainly := by
  rw [deferBlanks, foldl_deferBlank]
  exact filed_oweAt filed _

/-- The last trailing comment of a node owes a blank line now, unless it never does; no other comment is changed. -/
def Owes (was now : List BoundComment) : Prop :=
  (now = was ∧ ∀ c ∈ was, c.anchor ≠ .trailing) ∨
    ∃ front c rest, was = front ++ c :: rest ∧ now = front ++ owing c :: rest ∧ c.anchor = .trailing ∧
      ∀ d ∈ rest, d.anchor ≠ .trailing

theorem owes_owe (list : List BoundComment) : Owes list (owe list) := by
  induction list using List.reverseRecOn with
  | nil => exact .inl ⟨rfl, by simp⟩
  | append_singleton list c ih =>
    rw [owe_concat]
    by_cases trails : c.anchor = .trailing
    · exact .inr ⟨list, c, [], rfl, if_pos trails, trails, by simp⟩
    rw [if_neg trails]
    rcases ih with ⟨same, none⟩ | ⟨front, d, rest, rfl, owed, last, behind⟩
    · exact .inl ⟨by rw [same], by simpa [or_imp, forall_and] using ⟨none, trails⟩⟩
    · exact .inr ⟨front, d, rest ++ [c], by simp, by simp [owed], last, by simpa [or_imp, forall_and] using ⟨behind, trails⟩⟩

/-- In whatever order the blank lines are moved, the shelf is the same in the end: of the nodes that the occurrences
    define, but for those taken as they are, the last trailing comment owes a blank line, and nothing else is changed. -/
theorem foldl_deferBlank_perm (s : Shelf) (occurrences : Occurrences) {edges : List Edge}
    (order : edges.Perm occurrences.blankEdges) :
    edges.foldl (deferBlank tree) s = s.deferBlanks tree occurrences ∧ (s.deferBlanks tree occurrences).loose = s.loose ∧
      List.Forall₂ (fun was now => now.1 = was.1 ∧
          if isDefinedBy tree occurrences.blankEdges was.1 && !s.isIgnored was.1 then Owes was.2 now.2 else now.2 = was.2)
        s.owned (s.deferBlanks tree occurrences).owned := by
  have defined (id : NodeId) : isDefinedBy tree edges id = isDefinedBy tree occurrences.blankEdges id := by
    rw [Bool.eq_iff_iff, isDefinedBy_iff, isDefinedBy_iff]
    simp only [order.mem_iff]
  rw [deferBlanks, foldl_deferBlank, foldl_deferBlank]
  simp only [defined, oweAt, List.forall₂_map_right_iff, List.forall₂_same, true_and]
  intro entry _
  split
  · exact owes_owe entry.2
  · rfl

theorem foldl_deferBlank_perm_swap :
    let c : BoundComment :=
      { kind := .inline, text := "//", span := ⟨0, 2⟩, placement := .endOfLine, owner := some 1, anchor := .trailing }
    let last : BoundComment := { c with index := 1, owner := some 2, blankAfter := some false }
    let s : Shelf := { owned := [(2, [last]), (1, [c])] }
    let tree : Tree := ⟨#[{ fields := [("", .array [.node 1, .node 2])] }, { origin := some ⟨0, 0, some 0⟩ },
      { origin := some ⟨0, 0, some 1⟩ }]⟩
    let o : Occurrences := { flags := [(⟨0, 0, some 0⟩, { blankAfter := true }), (⟨0, 0, some 1⟩, { blankAfter := true })] }
    [⟨0, 0, some 1⟩, ⟨0, 0, some 0⟩].foldl (deferBlank tree) s = s.deferBlanks tree o ∧
      s.deferBlanks tree o = { owned := [(2, [last]), (1, [{ c with blankAfter := some true }])] } := by
  intro c last s tree o
  exact ⟨(foldl_deferBlank_perm tree s o (.swap ..)).1, rfl⟩

end Shelf

/-- As it is bound, no comment owes a blank line, and the last one never will. -/
theorem Site.blankAfter_of_bind {site : Site} {ids : List NodeId} {shelf : Shelf} (bound : site.bind ids = .ok shelf)
    {id : NodeId} {c : BoundComment} (member : c ∈ shelf.of id) :
    c.blankAfter = if c.index + 1 = ids.length then some false else none := by
  obtain ⟨read, comments, -, around, rfl, ascending, numbered, -⟩ := bind_inOrder site bound
  obtain ⟨holds, -⟩ := bindAll_holds site comments [] [] {} [] Shelf.holds_empty (Shelf.sortedBut_empty []) (.refl _)
    (by simp) ascending
  have same := neighbours_same site around
  have count : (inOrder read).length = ids.length := by
    rw [same.length_eq]
    simpa using congrArg List.length numbered
  have kept := map_eq_of_forall₂ (f := fun c => (c.index, c.blankAfter)) (fun _ _ => rfl) same
  have listed : (c.index, c.blankAfter) ∈ (inOrder read).map fun c => (c.index, c.blankAfter) :=
    kept ▸ List.mem_map_of_mem (f := fun c : Comment => (c.index, c.blankAfter)) (holds.mem_of_owned member)
  obtain ⟨d, in_order, same_marks⟩ := List.mem_map.1 listed
  obtain ⟨index, blankAfter⟩ := Prod.mk.inj same_marks
  rw [← index, ← blankAfter, ← count]
  obtain ⟨⟨first, place⟩, -, rfl⟩ := List.mem_map.1 in_order
  simp [inOrder]

end ApexLayout
