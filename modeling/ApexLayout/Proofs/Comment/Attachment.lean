import ApexLayout.Proofs.Comment.Neighbours
import ApexLayout.Proofs.Comment.Ties
import ApexLayout.Proofs.Tree.Order

/-!
Comments go to their own neighbours. Ties are broken by the nodes of the first tie of a run. Without references, and
with divided levels, these are the neighbours of each tie (`Housed.between`, `bind_by_neighbours`).
-/
namespace ApexLayout.Site

variable {site : Site} {id k m p q d f : NodeId} {x y z c : Comment} {memo : ChildMemo} {comments : List Comment}
  {b : BoundComment} {one other : Tie}

/-! ### Levels -/

/-- The last step down to a node starts at the node above, or at one between them that cannot carry comments. -/
theorem Under.last (under : site.Under p d) :
    site.tree.Child p d ∨ ∃ between, site.Under p between ∧ ¬ site.canCarry between ∧ site.tree.Child between d := by
  induction under with
  | child below => exact .inl below
  | through below plain rest ih =>
    rcases ih with last | ⟨between, under, also, last⟩
    · exact .inr ⟨_, .child below, plain, last⟩
    · exact .inr ⟨between, .through below plain under, also, last⟩

def IsTop (site : Site) (id : NodeId) : Prop := id = site.tree.root ∨ site.canCarry id

theorem isTop_of_level (level : site.Level id) : site.IsTop id := by
  rcases Relation.ReflTransGen.cases_tail level with same | ⟨_, -, member⟩
  · exact .inl same
  · exact .inr (mem_gather member).1

theorem not_under_root (unshared : site.tree.Unshared) : ¬ site.Under p site.tree.root := by
  intro under
  rcases under.last with last | ⟨_, -, -, last⟩
  · exact unshared.rootless last
  · exact unshared.rootless last

theorem IsTop.not_plain (top : site.IsTop p) (unshared : site.tree.Unshared)
    (under : site.Under q p) : site.canCarry p := by
  rcases top with rfl | can
  · exact absurd under (not_under_root unshared)
  · exact can

theorem under_unique (unshared : site.tree.Unshared) (top : site.IsTop p) (other : site.IsTop q) (under : site.Under p d)
    (also : site.Under q d) : p = q := by
  -- Numbers grow on the way down, so the node above is dealt with before.
  induction d using Nat.strong_induction_on with
  | _ d ih =>
    rcases under.last with here | ⟨above, under, plain, here⟩
    · rcases also.last with there | ⟨between, also, plain, there⟩
      · exact unshared.parent_unique here there
      · obtain rfl := unshared.parent_unique here there
        exact absurd (top.not_plain unshared also) plain
    · rcases also.last with there | ⟨between, also, -, there⟩
      · obtain rfl := unshared.parent_unique here there
        exact absurd (other.not_plain unshared under) plain
      · obtain rfl := unshared.parent_unique here there
        exact ih above (unshared.down here) under also

theorem level_unique (unshared : site.tree.Unshared) (level : site.Level p) (other : site.Level q)
    (member : d ∈ site.carriers p) (also : d ∈ site.carriers q) : p = q :=
  under_unique unshared (isTop_of_level level) (isTop_of_level other) (mem_gather member).2 (mem_gather also).2

/-! ### Comments between comments -/

/-- The comment lies innermost in a node, overlaps nothing there, and knows its neighbours. -/
structure Housed (site : Site) (c : Comment) (id : NodeId) : Prop where
  innermost : site.Innermost c.span id
  free : ∀ d ∈ site.carriers id, ¬ site.clashes c.span d
  near : c.near = site.beside c.span id

namespace Housed

section
variable (housed : site.Housed c id)
include housed

theorem level : site.Level id := level_of_reached housed.innermost.reached

theorem aside (member : d ∈ site.carriers id) :
    site.endsBefore c.span d ∨ site.startsAfter c.span d := by
  have outside := housed.innermost.last d member
  have apart := housed.free d member
  simp only [clashes, outside, Bool.not_false, Bool.true_and, Bool.and_eq_true, Bool.not_eq_true'] at apart
  by_contra neither
  rw [not_or, Bool.not_eq_true, Bool.not_eq_true] at neither
  exact apart neither

theorem startsAfter_eq (row : site.Row (site.carriers id))
    (nonempty : c.span.start < c.span.stop) (member : d ∈ site.carriers id) :
    site.startsAfter c.span d = !site.endsBefore c.span d := by
  have either := housed.aside member
  have not_both := row.not_both nonempty member
  cases ends : site.endsBefore c.span d with
  | true =>
    cases starts : site.startsAfter c.span d with
    | true => exact absurd ⟨ends, starts⟩ not_both
    | false => rfl
  | false => simpa [ends] using either

/-- The node that follows a comment is searched beside it, and all others behind the comment follow that node. -/
theorem following (next : c.near.following = some f) :
    f ∈ site.carriers id ∧ site.startsAfter c.span f := by
  rw [housed.near] at next
  have member : f ∈ (site.carriers id).filter (site.startsAfter c.span) := List.mem_of_head? next
  exact ⟨(List.mem_filter.mp member).1, (List.mem_filter.mp member).2⟩

theorem follows_following (row : site.Row (site.carriers id))
    (next : c.near.following = some f) (member : d ∈ site.carriers id) (starts : site.startsAfter c.span d) :
    d = f ∨ ∀ s t, site.extents.get? f = some s → site.extents.get? d = some t → s.stop ≤ t.start := by
  rw [housed.near] at next
  obtain ⟨others, parts⟩ := List.head?_eq_some_iff.mp next
  have ranks := row.ranks.filter (site.startsAfter c.span)
  have listed : d ∈ (site.carriers id).filter (site.startsAfter c.span) := List.mem_filter.mpr ⟨member, starts⟩
  rw [parts] at ranks listed
  rcases List.mem_cons.mp listed with same | further
  · exact .inl same
  · rcases (List.pairwise_cons.mp ranks).1 d further with same | behind
    · exact .inl same.symm
    · exact .inr behind

end

/-- A node around two comments is not beside one that starts between them. -/
theorem not_aside (around_x : site.surrounds x.span d) (around_y : site.surrounds y.span d)
    (y_nonempty : y.span.start < y.span.stop) (z_nonempty : z.span.start < z.span.stop)
    (later : x.span.start ≤ z.span.start) (earlier : z.span.start ≤ y.span.start) :
    ¬ (site.endsBefore z.span d ∨ site.startsAfter z.span d) := by
  obtain ⟨span, extent, holds_x⟩ := surrounds_iff.mp around_x
  obtain ⟨_, same, holds_y⟩ := surrounds_iff.mp around_y
  obtain rfl := Option.some.inj (extent.symm.trans same)
  rw [Span.contains_iff] at holds_x holds_y
  rw [beside_iff extent]
  omega

theorem reached_between (unshared : site.tree.Unshared) (divided : site.Divided) (z_housed : site.Housed z m)
    (y_nonempty : y.span.start < y.span.stop) (z_nonempty : z.span.start < z.span.stop)
    (later : x.span.start ≤ z.span.start) (earlier : z.span.start ≤ y.span.start)
    (x_reached : Relation.ReflTransGen (site.Opens x.span) site.tree.root k)
    (y_reached : Relation.ReflTransGen (site.Opens y.span) site.tree.root k) :
    Relation.ReflTransGen (site.Opens z.span) site.tree.root k := by
  induction x_reached with
  | refl => exact .refl
  | @tail p d above opens ih =>
    rcases Relation.ReflTransGen.cases_tail y_reached with same | ⟨q, also, into⟩
    · exact absurd same (not_root_of_mem_carriers unshared.acyclic (level_of_reached above) opens.1)
    · obtain rfl := level_unique unshared (level_of_reached above) (level_of_reached also) opens.1 into.1
      have reached := ih also
      have between := not_aside opens.2 into.2 y_nonempty z_nonempty later earlier
      -- The third comment is searched at the same level, and the node is not beside it.
      rcases Relation.ReflTransGen.cases_head (z_housed.innermost.below divided z_nonempty reached) with rfl | ⟨next, step, -⟩
      · exact absurd (z_housed.aside opens.1) between
      · by_cases same : d = next
        · exact .tail reached (same ▸ step)
        · have parted := divided p (level_of_reached above)
          exact absurd (parted.beside_of_surrounds (row_carriers parted) step.1 step.2 opens.1 same) between

/-- No node of the level lies between two comments before the same node. -/
theorem before_or_after (divided : site.Divided) (x_housed : site.Housed x id) (y_housed : site.Housed y id)
    (y_nonempty : y.span.start < y.span.stop) (x_next : x.near.following = some f) (y_next : y.near.following = some f)
    (member : d ∈ site.carriers id) : site.endsBefore x.span d ∨ site.startsAfter y.span d := by
  have row := row_carriers (divided id x_housed.level)
  rcases x_housed.aside member with ends | starts
  · exact .inl ends
  · rcases y_housed.aside member with ends | starts_y
    · obtain ⟨here, starts_f⟩ := y_housed.following y_next
      obtain ⟨s, s_is, s_upright⟩ := row.spans here
      obtain ⟨t, t_is, t_upright⟩ := row.spans member
      obtain ⟨_, same, starts_f⟩ := startsAfter_iff.mp starts_f
      obtain rfl := Option.some.inj (s_is.symm.trans same)
      obtain ⟨_, same, ends⟩ := endsBefore_iff.mp ends
      obtain rfl := Option.some.inj (t_is.symm.trans same)
      rcases x_housed.follows_following row x_next member starts with rfl | behind
      · obtain rfl := Option.some.inj (s_is.symm.trans t_is)
        omega
      · have := behind s t s_is t_is
        omega
    · exact .inr starts_y

/-- A comment that starts between two comments before the same node has the neighbours of the first. -/
theorem between (unshared : site.tree.Unshared) (divided : site.Divided) (x_housed : site.Housed x id)
    (y_housed : site.Housed y k) (z_housed : site.Housed z m) (x_nonempty : x.span.start < x.span.stop)
    (y_nonempty : y.span.start < y.span.stop) (z_nonempty : z.span.start < z.span.stop)
    (x_next : x.near.following = some f) (y_next : y.near.following = some f)
    (later : x.span.start ≤ z.span.start) (earlier : z.span.start ≤ y.span.start) : z.near = x.near := by
  obtain rfl := level_unique unshared x_housed.level y_housed.level (x_housed.following x_next).1 (y_housed.following y_next).1
  have row := row_carriers (divided id x_housed.level)
  have reached := reached_between unshared divided z_housed y_nonempty z_nonempty later earlier x_housed.innermost.reached
    y_housed.innermost.reached
  have ends_mono {d : NodeId} (ends : site.endsBefore x.span d) : site.endsBefore z.span d := by
    obtain ⟨span, extent, ends⟩ := endsBefore_iff.mp ends
    exact endsBefore_iff.mpr ⟨span, extent, by omega⟩
  have last : ∀ d ∈ site.carriers id, ¬ site.surrounds z.span d := by
    intro d member around
    rcases before_or_after divided x_housed y_housed y_nonempty x_next y_next member with ends | starts
    · exact not_surrounds_of_beside z_nonempty (.inl (ends_mono ends)) around
    · obtain ⟨span, extent, around⟩ := surrounds_iff.mp around
      obtain ⟨_, same, starts⟩ := startsAfter_iff.mp starts
      obtain rfl := Option.some.inj (extent.symm.trans same)
      rw [Span.contains_iff] at around
      omega
  obtain rfl := z_housed.innermost.unique divided z_nonempty ⟨reached, last⟩
  have ends_iff : ∀ d ∈ site.carriers id, site.endsBefore z.span d = site.endsBefore x.span d := by
    intro d member
    rw [Bool.eq_iff_iff]
    refine ⟨fun ends => ?_, ends_mono⟩
    rcases before_or_after divided x_housed y_housed y_nonempty x_next y_next member with ends_x | starts
    · exact ends_x
    · obtain ⟨span, extent, upright⟩ := row.spans member
      obtain ⟨_, same, ends⟩ := endsBefore_iff.mp ends
      obtain rfl := Option.some.inj (extent.symm.trans same)
      obtain ⟨_, same, starts⟩ := startsAfter_iff.mp starts
      obtain rfl := Option.some.inj (extent.symm.trans same)
      omega
  have starts_iff : ∀ d ∈ site.carriers id, site.startsAfter z.span d = site.startsAfter x.span d := by
    intro d member
    rw [z_housed.startsAfter_eq row z_nonempty member, x_housed.startsAfter_eq row x_nonempty member, ends_iff d member]
  rw [z_housed.near, x_housed.near, beside, beside, List.filter_congr ends_iff, List.filter_congr starts_iff]

end Housed

theorem neighbours_housed (acyclic : site.tree.Acyclic) (divided : site.Divided) {found : List Comment}
    (ok : site.neighbours comments memo = .ok found) (kept : site.Kept memo)
    (nonempty : ∀ c ∈ comments, c.span.start < c.span.stop) :
    ∀ c ∈ found, c.span.start < c.span.stop ∧ ∃ id, site.Housed c id := by
  induction comments generalizing found memo with
  | nil =>
    cases ok
    simp
  | cons c comments ih =>
    simp only [neighbours, bind_eq_ok, getD_error_eq_ok, pure_eq_ok] at ok
    obtain ⟨⟨near, later⟩, down, rest, others, rfl⟩ := ok
    have here := nonempty c List.mem_cons_self
    obtain ⟨id, innermost, failed | ⟨free, memo, still, answer⟩⟩ :=
      descend_settled acyclic divided here down kept .refl (by simp)
    · obtain ⟨_, -, -, _, failed⟩ := failed
      cases failed
    · cases answer
      intro d member
      rcases List.mem_cons.mp member with rfl | further
      · exact ⟨here, id, innermost, free, rfl⟩
      · exact ih others still (fun e also => nonempty e (List.mem_cons_of_mem c also)) d further

/-! ### Where comments go -/

/-- Where a comment goes by its place on the line and its own neighbours. Between two nodes it goes before the
    second one if and only if there are only blanks from it over the given comments to that node. -/
structure ByNeighbours (site : Site) (others : List Comment) (b : BoundComment) : Prop where
  ownLine {f : NodeId} : b.placement = .ownLine → b.near.following = some f → b.owner = some f ∧ b.anchor = .leading
  ownLineLast {p : NodeId} : b.placement = .ownLine → b.near.following = none → b.near.preceding = some p →
    b.owner = some p ∧ b.anchor = .trailing
  endOfLine {p : NodeId} : b.placement = .endOfLine → b.near.preceding = some p → b.owner = some p ∧ b.anchor = .trailing
  endOfLineFirst {f : NodeId} : b.placement = .endOfLine → b.near.preceding = none → b.near.following = some f →
    b.owner = some f ∧ b.anchor = .leading
  behind {p : NodeId} : b.placement = .remaining → b.near.preceding = some p → b.near.following = none →
    b.owner = some p ∧ b.anchor = .trailing
  before {f : NodeId} : b.placement = .remaining → b.near.preceding = none → b.near.following = some f →
    b.owner = some f ∧ b.anchor = .leading
  tied {p f : NodeId} : b.placement = .remaining → b.near.preceding = some p → b.near.following = some f →
    if site.isBridged (site.startOf f) b.span.stop others then b.owner = some f ∧ b.anchor = .leading
    else b.owner = some p ∧ b.anchor = .trailing
  alone : b.near.preceding = none → b.near.following = none → b.owner = b.near.enclosing ∧ b.anchor = .dangling

theorem ByNeighbours.owner_of_bridged {others : List Comment} (goes : site.ByNeighbours others b)
    (placement : b.placement = .remaining) (prev : b.near.preceding = some p) (next : b.near.following = some f)
    (bridged : site.isBridged (site.startOf f) b.span.stop others) : b.owner = some f := by
  have tied := goes.tied placement prev next
  rw [if_pos bridged] at tied
  exact tied.1

/-- The comments behind one, in order, that are tied before the same node. Those before it are given nearest
    first. -/
def tiedBehind (site : Site) (before : List Comment) (c : Comment) (after : List Comment) : List Comment :=
  ((site.tiesOf (c :: before) after).filter fun tie => some tie.following = c.near.following).map Tie.comment

/-- The comments tied before the same node that lie between a comment and that node. -/
def tiedWithin (site : Site) (comments : List Comment) (c : Comment) : List Comment :=
  ((site.tiesOf [] comments).filter fun tie => some tie.following = c.near.following ∧
    c.span.stop ≤ tie.comment.span.start ∧ tie.comment.span.stop ≤ site.startOf tie.following).map Tie.comment

theorem byNeighbours_of_decision {placement : Placement} {owner : Option NodeId} {anchor : Anchor} (others : List Comment)
    (decided : site.decision placement c = .bind owner anchor) (unruled : site.verdict placement c = none) :
    site.ByNeighbours others { c with placement, owner, anchor } := by
  rw [decision, unruled] at decided
  obtain ⟨index, node, kind, text, span, ⟨enclosing, preceding, following⟩, blankAfter⟩ := c
  cases placement <;> cases preceding <;> cases following <;> cases decided <;>
    constructor <;> simp

theorem byNeighbours_of_tied {others : List Comment} (placement : b.placement = .remaining)
    (prev : b.near.preceding = some p) (next : b.near.following = some f)
    (goes : if site.isBridged (site.startOf f) b.span.stop others then b.owner = some f ∧ b.anchor = .leading
      else b.owner = some p ∧ b.anchor = .trailing) : site.ByNeighbours others b where
  ownLine := by simp [placement]
  ownLineLast := by simp [placement]
  endOfLine := by simp [placement]
  endOfLineFirst := by simp [placement]
  behind := by simp [next]
  before := by simp [prev]
  tied _ before behind := by
    obtain rfl := Option.some.inj (prev.symm.trans before)
    obtain rfl := Option.some.inj (next.symm.trans behind)
    exact goes
  alone := by simp [prev]

/-! ### Ties -/

theorem mem_tiesOf {before rest : List Comment} {tie : Tie} (member : tie ∈ site.tiesOf before rest) :
    tie.comment ∈ rest ∧ tie.comment.near.preceding = some tie.preceding ∧
      tie.comment.near.following = some tie.following := by
  obtain ⟨front, behind, parts⟩ := List.append_of_mem member
  obtain ⟨earlier, later, rfl, decided, -⟩ := split_of_tiesOf parts
  exact ⟨by simp, (tie_of_decision decided).2⟩

theorem tiesOf_sublist (before rest : List Comment) : ((site.tiesOf before rest).map Tie.comment).Sublist rest := by
  induction rest generalizing before with
  | nil => exact .slnil
  | cons c rest ih =>
    cases decided : site.decision (site.placement before c rest) c with
    | bind owner anchor =>
      rw [tiesOf_of_bind decided]
      exact (ih (c :: before)).cons c
    | tie preceding following =>
      rw [tiesOf_of_tie decided]
      exact (ih (c :: before)).cons_cons c

section
variable {comments : List Comment} (unshared : site.tree.Unshared) (divided : site.Divided)
  (sorted : comments.Pairwise Precedes) (housed : ∀ c ∈ comments, c.span.start < c.span.stop ∧ ∃ id, site.Housed c id)
include unshared divided housed

section
variable (here : one ∈ site.tiesOf [] comments) (there : other ∈ site.tiesOf [] comments)
  (same : one.following = other.following)
include here there same

/-- A comment that starts between two tied before the same node has their neighbours. -/
theorem near_between (member : z ∈ comments) (later : one.comment.span.start ≤ z.span.start)
    (earlier : z.span.start ≤ other.comment.span.start) : z.near = one.comment.near := by
  obtain ⟨one_in, -, one_next⟩ := mem_tiesOf here
  obtain ⟨other_in, -, other_next⟩ := mem_tiesOf there
  obtain ⟨one_nonempty, _, one_housed⟩ := housed _ one_in
  obtain ⟨other_nonempty, _, other_housed⟩ := housed _ other_in
  obtain ⟨nonempty, _, z_housed⟩ := housed _ member
  rw [← same] at other_next
  exact one_housed.between unshared divided other_housed z_housed one_nonempty other_nonempty nonempty one_next other_next
    later earlier

/-- Comments tied before the same node are tied behind the same node. -/
theorem near_of_following : one.comment.near = other.comment.near := by
  rcases Nat.le_total one.comment.span.start other.comment.span.start with before | behind
  · exact (near_between unshared divided housed here there same (mem_tiesOf there).1 before (Nat.le_refl _)).symm
  · exact near_between unshared divided housed there here same.symm (mem_tiesOf here).1 behind (Nat.le_refl _)

end

include sorted in
/-- No comment tied before another node comes between comments tied before one node. -/
theorem tiesOf_convex {inner : Tie} (order : [one, inner, other].Sublist (site.tiesOf [] comments))
    (same : one.following = other.following) : inner.following = other.following := by
  have ascending := (sorted.sublist (tiesOf_sublist [] comments)).sublist (order.map Tie.comment)
  simp only [List.map_cons, List.map_nil, List.pairwise_cons, List.mem_cons, List.not_mem_nil, or_false] at ascending
  have later := (ascending.1 inner.comment (.inl rfl)).starts_le
  have earlier := (ascending.2.1 other.comment rfl).starts_le
  have among := order.subset
  have near := near_between unshared divided housed (among (by simp)) (among (by simp)) same
    (mem_tiesOf (among (by simp : inner ∈ _))).1 later earlier
  have next := (mem_tiesOf (among (by simp : inner ∈ _))).2.2
  rw [near, (mem_tiesOf (among (by simp : one ∈ _))).2.2] at next
  exact (Option.some.inj next).symm.trans same

include sorted in
/-- A tie that is broken goes to one of its own neighbours, by the ties behind it before the same node. -/
theorem byNeighbours_of_broken {run : List Tie} (isRun : IsRun (site.tiesOf [] comments) run)
    (broken : site.Broken run b) :
    ∃ before after, comments = before ++ b.toComment :: after ∧
      b.placement = site.placement before.reverse b.toComment after ∧
      site.ByNeighbours (site.tiedBehind before.reverse b.toComment after) b := by
  obtain ⟨following, whole⟩ := isRun.eq_filter broken.ne_nil (tiesOf_convex unshared divided sorted housed)
  obtain ⟨first, front, tie, behind, head, parts, bound⟩ := broken
  have first_in : first ∈ run := List.mem_of_head? head
  have tie_in : tie ∈ run := by simp [parts]
  rw [whole] at first_in tie_in parts
  obtain ⟨first_in, first_next⟩ := List.mem_filter.mp first_in
  obtain ⟨tie_in, tie_next⟩ := List.mem_filter.mp tie_in
  simp only [decide_eq_true_eq] at first_next tie_next
  -- The first tie and this one have their neighbours in common.
  have near := near_of_following unshared divided housed first_in tie_in (first_next.trans tie_next.symm)
  obtain ⟨-, tie_before, tie_behind⟩ := mem_tiesOf tie_in
  have preceding : first.preceding = tie.preceding :=
    Option.some.inj ((mem_tiesOf first_in).2.1.symm.trans (near ▸ tie_before))
  obtain ⟨_, rest, split, -, parts⟩ := List.filter_eq_append_iff.mp parts
  obtain ⟨_, after, rfl, -, -, behind_is⟩ := List.filter_eq_cons_iff.mp parts
  rw [← List.append_assoc] at split
  obtain ⟨earlier, later, rfl, decided, rfl⟩ := split_of_tiesOf split
  rw [List.append_nil] at decided behind_is
  have kept : b.toComment = tie.comment := by
    rw [bound]
    split <;> rfl
  have remains : b.placement = .remaining := by
    rw [bound]
    split <;> rfl
  have others : site.tiedBehind earlier.reverse tie.comment later = behind.map Tie.comment := by
    rw [tiedBehind, tie_behind, ← behind_is]
    simp only [Option.some.injEq, tie_next]
  refine ⟨earlier, later, by rw [kept], ?_, ?_⟩
  · rw [kept, remains, (tie_of_decision decided).1]
  · refine byNeighbours_of_tied remains (kept ▸ tie_before) (kept ▸ tie_behind) ?_
    rw [kept, others, bound, first_next, tie_next, preceding]
    split
    · exact ⟨rfl, rfl⟩
    · exact ⟨rfl, rfl⟩

omit unshared divided in
include sorted in
/-- If no two comments overlap, those behind one in order are those that lie behind it in the text. -/
theorem tiedBehind_eq_tiedWithin {before after : List Comment} (parts : comments = before ++ c :: after)
    (apart : comments.Pairwise fun a b => a.span.stop ≤ b.span.start ∨ b.span.stop ≤ a.span.start) :
    site.tiedBehind before.reverse c after = site.tiedWithin comments c := by
  subst parts
  obtain ⟨ties, split, among⟩ := @tiesOf_append site [] (before ++ [c]) after
  rw [List.append_assoc, List.singleton_append, List.append_nil, List.reverse_append, List.reverse_singleton,
    List.singleton_append] at split
  obtain ⟨-, inner, outer⟩ := List.pairwise_append.mp sorted
  obtain ⟨-, apart_inner, -⟩ := List.pairwise_append.mp apart
  have nonempty := (housed c (by simp)).1
  have none_before : ∀ tie ∈ ties, ¬ (decide (some tie.following = c.near.following ∧
      c.span.stop ≤ tie.comment.span.start ∧ tie.comment.span.stop ≤ site.startOf tie.following)) = true := by
    intro tie member
    have starts : tie.comment.span.start ≤ c.span.start := by
      rcases List.mem_append.mp (among tie member) with early | same
      · exact (outer tie.comment early c List.mem_cons_self).starts_le
      · rw [List.mem_singleton.mp same]
    rw [decide_eq_true_eq]
    omega
  have each : ∀ tie ∈ site.tiesOf (c :: before.reverse) after, decide (some tie.following = c.near.following) =
      decide (some tie.following = c.near.following ∧
        c.span.stop ≤ tie.comment.span.start ∧ tie.comment.span.stop ≤ site.startOf tie.following) := by
    intro tie member
    obtain ⟨later, -, next⟩ := mem_tiesOf member
    obtain ⟨tie_nonempty, _, tie_housed⟩ := housed tie.comment (by simp [later])
    have starts := ((List.pairwise_cons.mp inner).1 tie.comment later).starts_le
    have behind : c.span.stop ≤ tie.comment.span.start := by
      rcases (List.pairwise_cons.mp apart_inner).1 tie.comment later with here | there
      · exact here
      · omega
    obtain ⟨span, extent, ends⟩ := startsAfter_iff.mp (tie_housed.following next).2
    have within : tie.comment.span.stop ≤ site.startOf tie.following := by simpa [startOf, extent] using ends
    simp [behind, within]
  rw [tiedBehind, tiedWithin, split, List.filter_append, List.filter_eq_nil_iff.mpr none_before, List.nil_append,
    List.filter_congr each]

end

/-! ### Binding -/

theorem mem_inOrder (member : c ∈ inOrder comments) : ∃ d ∈ comments, d.span = c.span := by
  simp only [inOrder, List.mem_map] at member
  obtain ⟨⟨d, index⟩, listed, rfl⟩ := member
  exact ⟨d, List.mem_mergeSort.mp (List.fst_mem_of_mem_zipIdx listed), rfl⟩

theorem span_comment (found : site.comment id = .ok c) : site.extents.get? id = some c.span := by
  unfold comment at found
  split at found
  · cases found
  · next extent =>
    cases found
    exact extent

theorem mapM_comment_spans {ids : List NodeId} (found : ids.mapM site.comment = .ok comments) :
    ∀ c ∈ comments, ∃ id ∈ ids, site.extents.get? id = some c.span := by
  have each := forall₂_of_mapM found
  clear found
  induction each with
  | nil => simp
  | @cons id c ids comments here _ ih =>
    intro d member
    rcases List.mem_cons.mp member with rfl | later
    · exact ⟨id, List.mem_cons_self, span_comment here⟩
    · obtain ⟨other, listed, extent⟩ := ih d later
      exact ⟨other, List.mem_cons_of_mem id listed, extent⟩

/-- The comments of the nodes on the shelf, in the order of the source, each at the node where its placement and
    its neighbours put it unless a rule has put it elsewhere. -/
structure Attached (site : Site) (ids : List NodeId) (shelf : Shelf) (comments : List Comment) : Prop where
  nodes : (comments.map (·.node)).Perm ids
  sorted : comments.Pairwise Precedes
  held : (shelf.held.map (·.toComment)).Perm comments
  near : ∀ c ∈ comments, ∃ id, site.Innermost c.span id ∧ c.near = site.beside c.span id
  /-- Comments tied before the same node are tied behind the same node. -/
  ties : ∀ one ∈ site.tiesOf [] comments, ∀ other ∈ site.tiesOf [] comments,
    one.following = other.following → one.preceding = other.preceding
  placed : ∀ b ∈ shelf.held, ∃ before after, comments = before ++ b.toComment :: after ∧
    b.placement = site.placement before.reverse b.toComment after ∧
    (site.verdict b.placement b.toComment = none →
      site.ByNeighbours (site.tiedBehind before.reverse b.toComment after) b)
  /-- The ties behind a comment are those in the text behind it, unless comments overlap. -/
  apart : (comments.Pairwise fun a b => a.span.stop ≤ b.span.start ∨ b.span.stop ≤ a.span.start) →
    ∀ b ∈ shelf.held, site.verdict b.placement b.toComment = none →
      site.ByNeighbours (site.tiedWithin comments b.toComment) b

/-- In a tree without references whose levels are divided, every comment that no rule takes goes to its own
    neighbours: on a line of its own before the node that follows, at the end of a line behind the node before,
    and with code on both sides before the node that follows if and only if there is nothing but blanks and
    comments tied before that node in between, as long as no two comments overlap. -/
theorem bind_by_neighbours {json : Json} {tree : Tree} (read : Tree.ofJson json = .ok tree) (free : tree.ReferenceFree)
    {shift : Nat → Nat} (located : site.tree = tree.mapOffsets shift) (divided : site.Divided) {ids : List NodeId}
    (nonempty : ∀ id ∈ ids, ∀ span, site.extents.get? id = some span → span.start < span.stop) {shelf : Shelf}
    (bound : site.bind ids = .ok shelf) : ∃ comments, site.Attached ids shelf comments := by
  have unshared : site.tree.Unshared := located ▸ (Tree.unshared_of_ofJson read free).mapOffsets shift
  obtain ⟨read, comments, found, around, rfl, sorted, -, nodes⟩ := bind_inOrder site bound
  have held := (bindAll_holds site comments [] [] {} [] Shelf.holds_empty (Shelf.sortedBut_empty []) (.refl _) (by simp)
    sorted).1.exactly
  have nonempty : ∀ c ∈ inOrder read, c.span.start < c.span.stop := by
    intro c member
    obtain ⟨d, listed, spans⟩ := mem_inOrder member
    obtain ⟨id, there, extent⟩ := mapM_comment_spans found d listed
    exact spans ▸ nonempty id there d.span extent
  have housed := neighbours_housed unshared.acyclic divided around (kept_nil site) nonempty
  have placed : ∀ b ∈ (site.bindAll [] [] {} comments).held, ∃ before after, comments = before ++ b.toComment :: after ∧
      b.placement = site.placement before.reverse b.toComment after ∧
      (site.verdict b.placement b.toComment = none →
        site.ByNeighbours (site.tiedBehind before.reverse b.toComment after) b) := by
    intro b member
    rcases mem_held_bindAll (by simp) member with none_yet | ⟨before, c, after, owner, anchor, parts, decided, rfl⟩ | broken
    · cases none_yet
    · rw [List.append_nil] at decided ⊢
      exact ⟨before, after, parts, rfl, byNeighbours_of_decision _ decided⟩
    · obtain ⟨run, isRun, broken⟩ := broken
      obtain ⟨before, after, parts, place, goes⟩ := byNeighbours_of_broken unshared divided sorted housed isRun broken
      exact ⟨before, after, parts, place, fun _ => goes⟩
  refine ⟨comments, nodes, sorted, by simpa using held, ?_, ?_, placed, ?_⟩
  · intro c member
    obtain ⟨-, id, house⟩ := housed c member
    exact ⟨id, house.innermost, house.near⟩
  · intro one here other there next
    have near := near_of_following unshared divided housed here there next
    have before := (mem_tiesOf here).2.1
    rw [near, (mem_tiesOf there).2.1] at before
    exact (Option.some.inj before).symm
  · intro apart b member unruled
    obtain ⟨before, after, parts, -, goes⟩ := placed b member
    rw [← tiedBehind_eq_tiedWithin sorted housed parts apart]
    exact goes unruled

def pairJson : Json :=
  let name : Json := .object [("@class", .string Kind.locationIdentifier.className)]
  let note : Json := .object [("@class", .string Kind.blockComment.className)]
  .object [("names", .array [name, name]), ("comments", .array [note, note])]

def pair : Tree :=
  ⟨#[{ fields := [("names", .array [.node 1, .node 2]), ("comments", .array [.node 3, .node 4])] },
    .of .locationIdentifier [] none (some ⟨0, 0, some 0⟩),
    .of .locationIdentifier [] none (some ⟨0, 0, some 1⟩),
    .of .blockComment [] none (some ⟨0, 1, some 0⟩),
    .of .blockComment [] none (some ⟨0, 1, some 1⟩)]⟩

theorem ofJson_pairJson : Tree.ofJson pairJson = .ok pair := by rfl

theorem pair_referenceFree : pair.ReferenceFree := by
  have all : ∀ p < 5, ∀ below ∈ pair.children p, pair.origin below.2 = some below.1 := by decide
  intro p edge d member
  exact all p (Extents.child_size ⟨edge, member⟩) (edge, d) member

theorem pair_mapOffsets : pair = pair.mapOffsets fun offset => offset := by simp [pair, Tree.mapOffsets]

def between (last first second : Span) (source : String) : Site where
  tree := pair
  extents := ⟨#[none, some ⟨0, 1⟩, some last, some first, some second]⟩
  source

theorem divided_between {last first second : Span} {source : String} (behind : 1 ≤ last.start)
    (upright : last.start ≤ last.stop) : (between last first second source).Divided := by
  have either {d : NodeId} (can : (between last first second source).canCarry d) : d = 1 ∨ d = 2 := by
    rcases d with _ | _ | _ | _ | _ | d
    · cases can
    · exact .inl rfl
    · exact .inr rfl
    · cases can
    · cases can
    · cases can
  intro id _
  refine ⟨fun member extent => ?_, fun here there different extent extent' => ?_⟩
  · rcases either (mem_gather member).1 with rfl | rfl <;> cases extent
    · decide
    · exact upright
  · rcases either (mem_gather here).1 with rfl | rfl <;> rcases either (mem_gather there).1 with rfl | rfl
    · exact absurd rfl different
    · cases extent
      cases extent'
      exact .inl behind
    · cases extent
      cases extent'
      exact .inr behind
    · exact absurd rfl different

def listed : Site := between ⟨15, 16⟩ ⟨2, 7⟩ ⟨9, 14⟩ "a /*1*/, /*2*/ b"

/-- The first comment stays behind the name before it, because of the comma, and the second goes before the other
    name. -/
theorem bind_by_neighbours_listed : ∃ shelf comments, listed.bind [4, 3] = .ok shelf ∧
    listed.Attached [4, 3] shelf comments ∧
    shelf.held.map (fun b => (b.node, b.owner, b.anchor)) = [(3, some 1, .trailing), (4, some 2, .leading)] ∧
    ∀ b ∈ shelf.held, listed.ByNeighbours (listed.tiedWithin comments b.toComment) b := by
  let comment (node : NodeId) (span : Span) : Comment := { kind := .block, text := "", span, node }
  let comments : List Comment :=
    [{ comment 3 ⟨2, 7⟩ with near := ⟨none, some 1, some 2⟩ },
      { comment 4 ⟨9, 14⟩ with index := 1, near := ⟨none, some 1, some 2⟩, blankAfter := some false }]
  have read : [4, 3].mapM listed.comment = .ok [comment 4 ⟨9, 14⟩, comment 3 ⟨2, 7⟩] := by decide +kernel
  have around : listed.neighbours (inOrder [comment 4 ⟨9, 14⟩, comment 3 ⟨2, 7⟩]) [] = .ok comments := by cbv
  have bound : listed.bind [4, 3] = .ok (listed.bindAll [] [] {} comments) := bind_of_eq read around rfl rfl
  have nonempty : ∀ id ∈ [4, 3], ∀ span, listed.extents.get? id = some span → span.start < span.stop := by
    intro id member span extent
    simp only [List.mem_cons, List.not_mem_nil, or_false] at member
    rcases member with rfl | rfl <;> cases extent <;> decide
  obtain ⟨ordered, attached⟩ := bind_by_neighbours ofJson_pairJson pair_referenceFree pair_mapOffsets
    (divided_between (by decide) (by decide)) nonempty bound
  have unruled : ∀ b ∈ (listed.bindAll [] [] {} comments).held, listed.verdict b.placement b.toComment = none := by
    decide +kernel
  have apart : ((listed.bindAll [] [] {} comments).held.map (·.toComment)).Pairwise fun a b =>
      a.span.stop ≤ b.span.start ∨ b.span.stop ≤ a.span.start := by decide +kernel
  have apart := (attached.held.pairwise_iff fun either => Or.symm either).mp apart
  refine ⟨_, ordered, bound, attached, by decide +kernel, ?_⟩
  intro b member
  exact attached.apart apart b member (unruled b member)

def nested : Site := between ⟨14, 15⟩ ⟨2, 13⟩ ⟨5, 10⟩ "a /*x/*y*/z*/ b"

/-- There are only blanks from the outer comment to the name behind it. Still it stays behind the name before it,
    because the inner comment, which is the last one in order, does. -/
theorem bind_nested_trailing : Tree.ofJson pairJson = .ok pair ∧ pair.ReferenceFree ∧
    (nested.tree = pair.mapOffsets fun offset => offset) ∧ nested.Divided ∧
    ∃ shelf comments b, nested.bind [3, 4] = .ok shelf ∧
      (shelf.held.map (·.toComment)).Perm comments ∧ comments.Pairwise Precedes ∧ b ∈ shelf.held ∧
      b.span = ⟨2, 13⟩ ∧ b.placement = .remaining ∧ nested.verdict b.placement b.toComment = none ∧
      b.near = ⟨none, some 1, some 2⟩ ∧ Text.isBlankBetween nested.source b.span.stop (nested.startOf 2) ∧
      b.owner = some 1 ∧ b.anchor = .trailing ∧
      ¬ nested.ByNeighbours (nested.tiedWithin comments b.toComment) b := by
  let comment (node : NodeId) (span : Span) : Comment := { kind := .block, text := "", span, node }
  let outer : Comment := { comment 3 ⟨2, 13⟩ with near := ⟨none, some 1, some 2⟩ }
  let inner : Comment :=
    { comment 4 ⟨5, 10⟩ with index := 1, near := ⟨none, some 1, some 2⟩, blankAfter := some false }
  have read : [3, 4].mapM nested.comment = .ok [comment 3 ⟨2, 13⟩, comment 4 ⟨5, 10⟩] := by decide +kernel
  have around : nested.neighbours (inOrder [comment 3 ⟨2, 13⟩, comment 4 ⟨5, 10⟩]) [] = .ok [outer, inner] := by cbv
  have bound : nested.bind [3, 4] = .ok (nested.bindAll [] [] {} [outer, inner]) := bind_of_eq read around rfl rfl
  let behind (c : Comment) : BoundComment := { c with placement := .remaining, owner := some 1, anchor := .trailing }
  have placed : nested.placement [] outer [inner] = .remaining ∧ nested.placement [outer] inner [] = .remaining := by
    decide +kernel
  have unruled : nested.verdict .remaining outer = none ∧ nested.verdict .remaining inner = none := by decide +kernel
  have trailing : nested.trailingTies (nested.startOf 2) [⟨outer, 1, 2⟩, ⟨inner, 1, 2⟩] = 2 := by decide +kernel
  have held : (nested.bindAll [] [] {} [outer, inner]).held = [behind outer, behind inner] := by
    have first : nested.decision (nested.placement [] outer [inner]) outer = .tie 1 2 := by
      rw [decision, placed.1, unruled.1]
      rfl
    have second : nested.decision (nested.placement [outer] inner []) inner = .tie 1 2 := by
      rw [decision, placed.2, unruled.2]
      rfl
    have waits : nested.bindAll [] [] {} [outer, inner] = nested.breakTies [⟨outer, 1, 2⟩, ⟨inner, 1, 2⟩] {} := by
      rw [bindAll_of_tie first, bindAll_of_tie second]
      rfl
    rw [waits, breakTies_cons, trailing]
    cbv
  have blank : Text.isBlankBetween nested.source (behind outer).span.stop (nested.startOf 2) := by decide +kernel
  have within : nested.tiedWithin [outer, inner] (behind outer).toComment = [] := by decide +kernel
  have divided : nested.Divided := divided_between (by decide) (by decide)
  refine ⟨ofJson_pairJson, pair_referenceFree, pair_mapOffsets, divided, _, [outer, inner], behind outer, bound, ?_, ?_,
    ?_, rfl, rfl, unruled.1, rfl, blank, rfl, rfl, ?_⟩
  · rw [held, List.map_cons, List.map_singleton]
  · exact List.pairwise_pair.mpr (.inl (by decide))
  · rw [held]
    exact List.mem_cons_self
  · rw [within]
    intro goes
    cases goes.owner_of_bridged rfl rfl rfl blank

end ApexLayout.Site
