import ApexLayout.Comment.Binding
import ApexLayout.Proofs.Comment.Shelf
import ApexLayout.Proofs.Outcome
import Mathlib.Computability.Primrec.List
import Mathlib.Data.List.Permutation

/-!
Binding keeps every comment: those placed on the shelf and the ties that wait are together all comments so far. A tie
is placed late, so it may be out of turn; both lists it may go to are then sorted.
-/
namespace ApexLayout.Site

variable {shelf : Shelf} {ids : List NodeId} {comments : List Comment}

/-- The first comment starts before the second, or with it and ends no later. -/
def Precedes (a b : Comment) : Prop :=
  a.span.start < b.span.start ∨ a.span.start = b.span.start ∧ a.span.stop ≤ b.span.stop

theorem Precedes.starts_le {a b : Comment} (precedes : Precedes a b) : a.span.start ≤ b.span.start := by
  rcases precedes with before | ⟨same, _⟩
  · omega
  · omega

theorem breakTies_holds (site : Site) (ties : List Tie) {placed : List Comment}
    (holds : shelf.Holds placed) (sorted : shelf.SortedBut []) :
    (site.breakTies ties shelf).Holds (placed ++ ties.map Tie.comment) ∧ (site.breakTies ties shelf).SortedBut [] := by
  cases ties with
  | nil => exact ⟨by simpa [breakTies] using holds, sorted⟩
  | cons first rest =>
    obtain ⟨comment, preceding, following⟩ := first
    simp only [breakTies]
    generalize split : List.length (_ :: rest) - site.leadingTies _ _ = trailing
    generalize waiting : (⟨comment, preceding, following⟩ : Tie) :: rest = ties
    set bound : List BoundComment :=
      (ties.take trailing).map (fun tie =>
          { tie.comment with placement := .remaining, owner := some preceding, anchor := .trailing }) ++
        (ties.drop trailing).map (fun tie =>
          { tie.comment with placement := .remaining, owner := some following, anchor := .leading }) with bound_is
    have comments : bound.map (·.toComment) = ties.map Tie.comment := by
      rw [bound_is, List.map_append, List.map_map, List.map_map]
      conv_rhs => rw [← List.take_append_drop trailing ties, List.map_append]
      rfl
    have owners : ∀ c ∈ bound, ∃ id ∈ [preceding, following], c.owner = some id := by
      intro c member
      rcases List.mem_append.mp member with early | late
      · obtain ⟨tie, _, rfl⟩ := List.mem_map.mp early
        exact ⟨preceding, by simp, rfl⟩
      · obtain ⟨tie, _, rfl⟩ := List.mem_map.mp late
        exact ⟨following, by simp, rfl⟩
    constructor
    · rw [← comments]
      exact ((holds.addAll bound).sort preceding).sort following
    · have exempt : shelf.SortedBut [preceding, following] := ⟨fun id _ => sorted.nodes id (by simp), sorted.loose⟩
      exact (exempt.addAll owners).sort.sort

theorem joinTies_holds (site : Site) (tie : Tie) (ties : List Tie) {placed : List Comment}
    (holds : shelf.Holds placed) (sorted : shelf.SortedBut []) :
    ∃ now, (site.joinTies tie ties shelf).2.Holds now ∧ (site.joinTies tie ties shelf).2.SortedBut [] ∧
      now ++ (site.joinTies tie ties shelf).1.map Tie.comment = placed ++ ties.map Tie.comment ++ [tie.comment] := by
  unfold joinTies
  split
  · split
    · exact ⟨placed, holds, sorted, by simp⟩
    · obtain ⟨all, ordered⟩ := breakTies_holds site ties holds sorted
      exact ⟨_, all, ordered, by simp⟩
  · next none_waits =>
    have nil : ties = [] := List.getLast?_eq_none_iff.mp none_waits
    exact ⟨placed, holds, sorted, by simp [nil]⟩

theorem bindAll_holds (site : Site) (rest : List Comment) :
    ∀ (before : List Comment) (ties : List Tie) (shelf : Shelf) (placed : List Comment),
      shelf.Holds placed → shelf.SortedBut [] → (placed ++ ties.map Tie.comment).Perm before →
      (∀ a ∈ before, ∀ b ∈ rest, a.span.start ≤ b.span.start) → rest.Pairwise Precedes →
      (site.bindAll before ties shelf rest).Holds (before ++ rest) ∧ (site.bindAll before ties shelf rest).SortedBut [] := by
  induction rest with
  | nil =>
    intro before ties shelf placed holds sorted all _ _
    obtain ⟨placed_all, ordered⟩ := breakTies_holds site ties holds sorted
    rw [List.append_nil]
    exact ⟨placed_all.of_perm all, ordered⟩
  | cons c rest ih =>
    intro before ties shelf placed holds sorted all earlier ascending
    obtain ⟨first, ascending⟩ := List.pairwise_cons.mp ascending
    have still : ∀ a ∈ c :: before, ∀ b ∈ rest, a.span.start ≤ b.span.start := by
      intro a member b later
      rcases List.mem_cons.mp member with rfl | old
      · exact (first b later).starts_le
      · exact earlier a old b (List.mem_cons_of_mem _ later)
    have late : ∀ d ∈ placed, d.span.start ≤ c.span.start := fun d member =>
      earlier d (all.mem_iff.mp (List.mem_append_left _ member)) c List.mem_cons_self
    have moved : (c :: before ++ rest).Perm (before ++ c :: rest) := List.perm_middle.symm
    simp only [bindAll]
    split
    · next owner anchor _ =>
      have added := holds.add { c with placement := site.placement before c rest, owner, anchor }
      have ordered := sorted.add (c := { c with placement := site.placement before c rest, owner, anchor })
        (fun id d member => late _ (holds.mem_of_owned member)) (fun d member => late _ (holds.mem_of_loose member))
      have now : ((placed ++ [c]) ++ ties.map Tie.comment).Perm (c :: before) := by
        rw [List.append_assoc]
        exact List.perm_middle.trans (all.cons c)
      obtain ⟨bound, in_order⟩ := ih (c :: before) ties _ _ added ordered now still ascending
      exact ⟨bound.of_perm moved, in_order⟩
    · next preceding following _ =>
      obtain ⟨now, joined, ordered, same⟩ := joinTies_holds site ⟨c, preceding, following⟩ ties holds sorted
      have waiting : (now ++ (site.joinTies ⟨c, preceding, following⟩ ties shelf).1.map Tie.comment).Perm (c :: before) := by
        rw [same]
        exact (all.append_right [c]).trans (List.perm_append_singleton c before)
      obtain ⟨bound, in_order⟩ := ih (c :: before) _ _ now joined ordered waiting still ascending
      exact ⟨bound.of_perm moved, in_order⟩

/-! ### The comments in the order of the source -/

theorem comment_node (site : Site) {id : NodeId} {c : Comment} (found : site.comment id = .ok c) : c.node = id := by
  unfold comment at found
  split at found
  · cases found
  · cases found
    rfl

theorem mapM_comment_nodes (site : Site) (found : ids.mapM site.comment = .ok comments) : comments.map (·.node) = ids := by
  have each := forall₂_of_mapM found
  clear found
  induction each with
  | nil => rfl
  | cons here later ih => simp [comment_node site here, ih]

theorem neighbours_same (site : Site) {found : List Comment} {memo : ChildMemo}
    (ok : site.neighbours comments memo = .ok found) :
    List.Forall₂ (fun c d => ∃ near, d = { c with near }) comments found := by
  induction comments generalizing found memo with
  | nil =>
    cases ok
    exact .nil
  | cons c comments ih =>
    simp only [neighbours, bind_eq_ok, pure_eq_ok] at ok
    obtain ⟨⟨near, memo⟩, _, rest, others, rfl⟩ := ok
    exact .cons ⟨near, rfl⟩ (ih others)

theorem map_eq_of_forall₂ {α : Type} {f : Comment → α} (ignores : ∀ c near, f { c with near } = f c)
    {found : List Comment} (same : List.Forall₂ (fun c d => ∃ near, d = { c with near }) comments found) :
    found.map f = comments.map f := by
  induction same with
  | nil => rfl
  | cons here later ih =>
    obtain ⟨near, rfl⟩ := here
    simp [ignores, ih]

theorem index_inOrder (comments : List Comment) :
    (inOrder comments).map (·.index) = List.range comments.length := by
  simp only [inOrder, List.map_map]
  rw [show ((fun c : Comment => c.index) ∘ fun p : Comment × Nat =>
      { p.1 with index := p.2, blankAfter := if p.2 + 1 = _ then some false else none }) = Prod.snd from rfl]
  rw [List.zipIdx_map_snd, List.range_eq_range', (List.mergeSort_perm _ _).length_eq]

theorem span_inOrder (comments : List Comment) : ((inOrder comments).map (·.span)).Pairwise fun a b =>
    a.start < b.start ∨ a.start = b.start ∧ a.stop ≤ b.stop := by
  simp only [inOrder, List.map_map]
  rw [show ((fun c : Comment => c.span) ∘ fun p : Comment × Nat =>
      { p.1 with index := p.2, blankAfter := if p.2 + 1 = _ then some false else none }) =
        (·.span) ∘ Prod.fst from rfl, ← List.map_map, List.zipIdx_map_fst, List.pairwise_map]
  refine (List.pairwise_mergeSort ?_ ?_ comments).imp ?_
  · simp only [Bool.or_eq_true, Bool.and_eq_true, decide_eq_true_eq, beq_iff_eq]
    omega
  · simp only [Bool.or_eq_true, Bool.and_eq_true, decide_eq_true_eq, beq_iff_eq]
    omega
  · simp

theorem node_inOrder (comments : List Comment) :
    ((inOrder comments).map (·.node)).Perm (comments.map (·.node)) := by
  simp only [inOrder, List.map_map]
  rw [show ((fun c : Comment => c.node) ∘ fun p : Comment × Nat =>
      { p.1 with index := p.2, blankAfter := if p.2 + 1 = _ then some false else none }) =
        (·.node) ∘ Prod.fst from rfl, ← List.map_map, List.zipIdx_map_fst]
  exact (List.mergeSort_perm _ _).map _

/-- Comment nodes are bound in the order of their spans, after each has found its neighbours. -/
theorem bind_inOrder (site : Site) (bound : site.bind ids = .ok shelf) :
    ∃ read comments, ids.mapM site.comment = .ok read ∧ site.neighbours (inOrder read) [] = .ok comments ∧
      shelf = site.bindAll [] [] {} comments ∧ comments.Pairwise Precedes ∧
      comments.map (·.index) = List.range ids.length ∧ (comments.map (·.node)).Perm ids := by
  simp only [Site.bind, bind_eq_ok, pure_eq_ok] at bound
  obtain ⟨read, found, comments, around, rfl⟩ := bound
  have same := neighbours_same site around
  have nodes : read.map (·.node) = ids := mapM_comment_nodes site found
  have ascending : comments.Pairwise Precedes := by
    have spans := span_inOrder read
    rw [← map_eq_of_forall₂ (f := (·.span)) (fun _ _ => rfl) same, List.pairwise_map] at spans
    exact spans
  refine ⟨read, comments, found, around, rfl, ascending, ?_, ?_⟩
  · rw [map_eq_of_forall₂ (f := (·.index)) (fun _ _ => rfl) same, index_inOrder, ← nodes, List.length_map]
  · rw [map_eq_of_forall₂ (f := (·.node)) (fun _ _ => rfl) same, ← nodes]
    exact node_inOrder read

theorem bind_holds (site : Site) (bound : site.bind ids = .ok shelf) :
    ∃ comments, shelf.Holds comments ∧ shelf.SortedBut [] ∧ comments.Pairwise Precedes ∧
      comments.map (·.index) = List.range ids.length ∧ (comments.map (·.node)).Perm ids := by
  obtain ⟨_, comments, -, -, rfl, ascending, numbered, nodes⟩ := bind_inOrder site bound
  obtain ⟨holds, sorted⟩ := bindAll_holds site comments [] [] {} [] Shelf.holds_empty (Shelf.sortedBut_empty [])
    (.refl _) (by simp) ascending
  exact ⟨comments, holds, sorted, ascending, numbered, nodes⟩

/-- A shelf with the comments of the given nodes, each of them once and at its owner. -/
structure Conserves (ids : List NodeId) (shelf : Shelf) : Prop where
  nodes : (shelf.all.map (·.node)).Perm ids
  ascending : shelf.all.Pairwise fun a b => Precedes a.toComment b.toComment
  distinct : (shelf.owned.map (·.1)).Nodup
  /-- Every number stands once among the comments of all nodes and of none. -/
  indexes : (((shelf.owned.map (·.2)).flatten ++ shelf.loose).map (·.index)).Perm (List.range ids.length)
  owned : ∀ i c, shelf.all[i]? = some c → ∀ id, i ∈ (shelf.of id).map (·.index) ↔ c.owner = some id
  unowned : ∀ i c, shelf.all[i]? = some c → (i ∈ shelf.loose.map (·.index) ↔ c.owner = none)
  sorted : ∀ id, ((shelf.of id).map (·.span.start)).Pairwise (· ≤ ·)
  sortedLoose : (shelf.loose.map (·.span.start)).Pairwise (· ≤ ·)

/-- Binding conserves the comments and keeps them in order, by whichever rule each found its owner and
    whenever a tie was broken. -/
theorem bind_conserves (site : Site) (ids : List NodeId) {shelf : Shelf} (bound : site.bind ids = .ok shelf) :
    Conserves ids shelf := by
  obtain ⟨comments, holds, sorted, ascending, numbered, nodes⟩ := bind_holds site bound
  have all := holds.all_eq numbered
  have indexes : (shelf.held.map (·.index)).Perm (List.range ids.length) := by
    have perm := holds.exactly.map (·.index)
    rwa [List.map_map, numbered] at perm
  have distinct : (shelf.held.map (·.index)).Nodup := indexes.nodup_iff.mpr List.nodup_range
  have number : ∀ i c, shelf.all[i]? = some c → c.index = i ∧ c ∈ shelf.held := by
    intro i c listed
    have numbers : shelf.all.map (·.index) = List.range ids.length := by
      rw [← numbered, ← all, List.map_map]
      rfl
    have there : (shelf.all.map (·.index))[i]? = some c.index := by simp [listed]
    rw [numbers] at there
    exact ⟨by grind, List.mem_mergeSort.mp (List.mem_of_getElem? listed)⟩
  refine ⟨?_, ?_, holds.distinct, indexes, ?_, ?_, ?_, ?_⟩
  · rw [← all, List.map_map] at nodes
    exact nodes
  · rw [← all, List.pairwise_map] at ascending
    exact ascending
  · intro i c listed
    obtain ⟨rfl, member⟩ := number i c listed
    exact holds.toFiled.index_mem_of_iff member distinct
  · intro i c listed
    obtain ⟨rfl, member⟩ := number i c listed
    exact holds.toFiled.index_mem_loose_iff member distinct
  · intro id
    exact List.pairwise_map.mpr (sorted.nodes id (by simp))
  · exact List.pairwise_map.mpr sorted.loose

theorem bind_of_eq {site : Site} {ids : List NodeId} {read placed : List Comment} {shelf : Shelf}
    (listed : ids.mapM site.comment = .ok read) (around : site.neighbours (inOrder read) [] = .ok placed)
    (owned : (site.bindAll [] [] {} placed).owned = shelf.owned)
    (loose : (site.bindAll [] [] {} placed).loose = shelf.loose) : site.bind ids = .ok shelf := by
  have bound : site.bindAll [] [] {} placed = shelf := congrArg₂ Shelf.mk owned loose
  exact bind_eq_ok.mpr ⟨_, listed, bind_eq_ok.mpr ⟨_, around, congrArg _ bound⟩⟩

def tied : Site where
  tree := ⟨#[{ fields := [("items", .array [.node 1, .node 2])] }, .of .variableExpr, .of .variableExpr,
    .of .blockComment, .of .blockComment]⟩
  extents := ⟨#[none, some ⟨0, 1⟩, some ⟨15, 16⟩, some ⟨2, 7⟩, some ⟨9, 14⟩]⟩
  source := "a /*1*/, /*2*/ b"

/-- The two comments, last one first, are tied until the end: the first then stays behind the node
    before it, and the second goes before the node after it. -/
theorem bind_conserves_tied : ∃ shelf, tied.bind [4, 3] = .ok shelf ∧
    shelf.owned.map (fun entry => (entry.1, entry.2.map (·.index))) = [(1, [0]), (2, [1])] ∧
      Conserves [4, 3] shelf := by
  let comment (node : NodeId) (span : Span) : Comment := { kind := .block, text := "", span, node }
  let comments : List Comment :=
    [{ comment 3 ⟨2, 7⟩ with near := ⟨none, some 1, some 2⟩ },
      { comment 4 ⟨9, 14⟩ with index := 1, near := ⟨none, some 1, some 2⟩, blankAfter := some false }]
  have read : [4, 3].mapM tied.comment = .ok [comment 4 ⟨9, 14⟩, comment 3 ⟨2, 7⟩] := by decide +kernel
  have around : tied.neighbours (inOrder [comment 4 ⟨9, 14⟩, comment 3 ⟨2, 7⟩]) [] = .ok comments := by cbv
  have bound : tied.bind [4, 3] = .ok (tied.bindAll [] [] {} comments) := bind_of_eq read around rfl rfl
  exact ⟨_, bound, by decide +kernel, bind_conserves tied [4, 3] bound⟩

end ApexLayout.Site
