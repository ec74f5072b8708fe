import ApexLayout.Proofs.Comment.Dangling
import ApexLayout.Proofs.Extent.Containment

/-!
Comments that are bound to a node in whose extent they lie. What a comment is bound to lies apart from it, or is the
node around it, and that by one of few ways only (`settles_of_bind`).
-/
namespace ApexLayout

namespace Site

variable {site : Site} {comment : Span} {id d : NodeId} {placement : Placement}

/-! ### Nodes apart from a comment -/

/-- The extent of a node, if it has one and is no comment, ends before the comment or starts behind it. -/
def Apart (site : Site) (comment : Span) (id : NodeId) : Prop :=
  ∀ span, site.tree.isComment id = false → site.extents.get? id = some span →
    span.stop ≤ comment.start ∨ comment.stop ≤ span.start

/-- Extents are nested, and comments hold no nodes. -/
structure Orderly (site : Site) : Prop where
  nested : Extents.Nested site.tree site.extents
  leaves {id d : NodeId} : site.tree.isComment id → ¬ site.tree.Child id d

/-- A neighbour of a comment: a node with an extent apart from it. -/
def Beside (site : Site) (comment : Span) (id : NodeId) : Prop :=
  site.tree.isComment id = false ∧ ∃ span, site.extents.get? id = some span ∧
    (span.stop ≤ comment.start ∨ comment.stop ≤ span.start)

theorem plain_of_canCarry (can : site.canCarry id) : site.tree.isComment id = false := by
  simp only [canCarry, Bool.and_eq_true, Bool.not_eq_true'] at can
  exact can.2

section
variable {comment : Span} {near : Neighbours} {id d : NodeId}

theorem Flanked.before (flanked : site.Flanked comment near)
    (there : near.preceding = some id) : site.Beside comment id := by
  obtain ⟨can, span, extent, ends⟩ := flanked.preceding there
  exact ⟨plain_of_canCarry can, span, extent, .inl ends⟩

theorem Flanked.after (flanked : site.Flanked comment near) (there : near.following = some id) : site.Beside comment id := by
  obtain ⟨can, span, extent, starts⟩ := flanked.following there
  exact ⟨plain_of_canCarry can, span, extent, .inr starts⟩

theorem Beside.apart (beside : site.Beside comment id) : site.Apart comment id := by
  intro span _ extent
  obtain ⟨-, _, same, apart⟩ := beside
  rw [extent] at same
  cases same
  exact apart

section
variable (beside : site.Beside comment id) (orderly : site.Orderly) (reaches : Extents.Reaches site.tree site.extents id d)
include beside orderly reaches

theorem Beside.below : site.Apart comment d := by
  intro inner plain extent
  obtain ⟨around_plain, outer, around, apart⟩ := beside
  have contains := orderly.nested around_plain plain around extent reaches
  simp only [Span.contains, Bool.and_eq_true, decide_eq_true_eq] at contains
  omega

theorem Beside.step {span : Span} (plain : site.tree.isComment d = false)
    (extent : site.extents.get? d = some span) : site.Beside comment d :=
  ⟨plain, span, extent, beside.below orderly reaches span plain extent⟩

end

end

theorem child_of_child? {tree : Tree} {name : String} (there : tree.child? id name = some d) :
    tree.Child id d := by
  obtain ⟨value, found, is_node⟩ := Option.bind_eq_some_iff.mp there
  obtain ⟨before, after, split, -⟩ := List.lookup_eq_some_iff.mp found
  cases value with
  | node other =>
    cases is_node
    exact Extents.child_iff.mpr ⟨.node d, by simp [split], .node d⟩
  | _ => cases is_node

theorem child_of_mem_nodesIn {tree : Tree} {name : String} (member : d ∈ tree.nodesIn id name) :
    tree.Child id d := by
  obtain ⟨value, there, is_node⟩ := List.mem_filterMap.mp member
  cases value with
  | node other =>
    cases is_node
    exact child_of_mem_items there
  | _ => cases is_node

/-! ### Rules -/

def isBare (site : Site) (id : NodeId) : Bool :=
  site.tree.isAmong id [.continueStmnt, .breakStmnt] ||
    (site.tree.isKind id .returnStmnt && (site.tree.optional? id "expr").isNone)

theorem bind_of_byPlacement {near : Neighbours} {anchor : Anchor}
    (decided : byPlacement placement near = .bind (some id) anchor) :
    near.preceding = some id ∨ near.following = some id ∨
      near.enclosing = some id ∧ near.preceding = none ∧ near.following = none ∧ .dangling = anchor := by
  obtain ⟨enclosing, preceding, following⟩ := near
  cases placement <;> cases preceding <;> cases following <;> simp_all [byPlacement]

theorem tie_of_decision {c : Comment} {preceding following : NodeId}
    (decided : site.decision placement c = .tie preceding following) :
    placement = .remaining ∧ c.near.preceding = some preceding ∧ c.near.following = some following := by
  unfold decision at decided
  split at decided
  · cases decided
  · generalize c.near = near at decided
    obtain ⟨enclosing, preceding, following⟩ := near
    cases placement <;> cases preceding <;> cases following <;> simp_all [byPlacement]

/-- Why a comment is bound to the node around it: it asks to ignore a declaration and stands before a
    modifier of it, it stands in a statement of one word, it stands in an empty body, or it has no
    neighbours. -/
inductive Inward (site : Site) (c : Comment) (id : NodeId) : Anchor → Prop where
  | request (ignore : c.isIgnore) {following : NodeId} (next : c.near.following = some following)
      (modifier : site.tree.family? following = some Kind.annotationMark.family) : Inward site c id .leading
  | statement (bare : site.isBare id) : Inward site c id .trailing
  | body (body : site.tree.isAmong id bodyKinds) : Inward site c id .dangling
  | alone (preceding : c.near.preceding = none) (following : c.near.following = none) : Inward site c id .dangling

/-- A comment goes to the node around it for one of these reasons, or to a node apart from it. -/
def Settles (site : Site) (c : Comment) (id : NodeId) (anchor : Anchor) : Prop :=
  c.near.enclosing = some id ∧ site.Inward c id anchor ∨ site.Apart c.span id

section
variable {c : Comment} {id : NodeId} {anchor : Anchor} (orderly : site.Orderly)
include orderly

theorem Beside.within {around block : NodeId} (beside : site.Beside comment around)
    (reaches : Extents.Reaches site.tree site.extents around block) (child : site.tree.Child block d) :
    site.Apart comment d := by
  have plain : site.tree.isComment block = false := Bool.eq_false_iff.mpr fun comment => orderly.leaves comment child
  cases extent : site.extents.get? block with
  | none => exact beside.below orderly (.through reaches plain extent child)
  | some span => exact (beside.step orderly reaches plain extent).below orderly (.child child)

omit orderly in
theorem apart_intoBlock {block : NodeId} (here : site.Apart comment block)
    (below : ∀ {d}, site.tree.Child block d → site.Apart comment d) (into : site.intoBlock block = (id, anchor)) :
    site.Apart comment id := by
  unfold intoBlock at into
  split at into
  · next listed =>
    cases into
    have member : id ∈ site.tree.nodesIn block "stmnts" := by simp [listed]
    exact below (child_of_mem_nodesIn member)
  · cases into
    exact here

variable (flanked : site.Flanked c.span c.near)
include flanked

theorem apart_of_betweenBranches (given : site.betweenBranches c = some (id, anchor)) : site.Apart c.span id := by
  simp only [betweenBranches, Option.bind_eq_bind, Option.bind_eq_some_iff] at given
  obtain ⟨_, -, _, -, following, next, given⟩ := given
  have beside := flanked.after next
  split at given
  · simp only [Option.bind_eq_some_iff] at given
    obtain ⟨_, -, _, -, given⟩ := given
    split at given
    · cases given
    · simp only [Option.bind_eq_some_iff] at given
      obtain ⟨body, there, given⟩ := given
      have reaches := Extents.Reaches.child (e := site.extents) (child_of_child? there)
      split at given
      · exact apart_intoBlock (beside.below orderly reaches) (beside.within orderly reaches) (Option.some.inj given)
      · cases given
        exact beside.below orderly reaches
  · cases given

theorem apart_of_betweenTryBlocks (given : site.betweenTryBlocks c = some (id, anchor)) : site.Apart c.span id := by
  simp only [betweenTryBlocks, Option.bind_eq_bind, Option.bind_eq_some_iff] at given
  obtain ⟨_, -, _, -, following, next, given⟩ := given
  have beside := flanked.after next
  split at given
  · obtain ⟨body, there, into⟩ := Option.map_eq_some_iff.mp given
    have reaches := Extents.Reaches.child (e := site.extents) (child_of_child? there)
    exact apart_intoBlock (beside.below orderly reaches) (beside.within orderly reaches) into
  · cases given

theorem apart_of_beforeBlock (given : site.beforeBlock c = some (id, anchor)) : site.Apart c.span id := by
  simp only [beforeBlock, Option.bind_eq_bind, Option.bind_eq_some_iff] at given
  obtain ⟨following, next, given⟩ := given
  have beside := flanked.after next
  split at given
  · exact apart_intoBlock beside.apart (fun child => beside.below orderly (.child child)) (Option.some.inj given)
  · cases given

theorem apart_of_behindOperation (given : site.behindOperation c = some (id, anchor)) : site.Apart c.span id := by
  simp only [behindOperation, Option.bind_eq_bind, Option.bind_eq_some_iff] at given
  obtain ⟨preceding, there, given⟩ := given
  split at given
  · simp only [Option.bind_eq_some_iff] at given
    obtain ⟨right, operand, given⟩ := given
    cases given
    exact (flanked.before there).below orderly (.child (child_of_child? operand))
  · cases given

omit orderly in
theorem apart_of_inConditionChain (given : site.inConditionChain c = some (id, anchor)) : site.Apart c.span id := by
  simp only [inConditionChain, Option.bind_eq_bind, Option.bind_eq_some_iff] at given
  obtain ⟨_, -, preceding, there, _, -, given⟩ := given
  split at given
  · simp only [Option.bind_eq_some_iff] at given
    obtain ⟨_, -, given⟩ := given
    split at given
    · cases given
      exact (flanked.before there).apart
    · cases given
  · cases given

omit orderly in
theorem apart_of_inCallChain (given : site.inCallChain c = some (id, anchor)) : site.Apart c.span id := by
  simp only [inCallChain, Option.bind_eq_bind, Option.bind_eq_some_iff] at given
  obtain ⟨_, -, preceding, there, _, -, given⟩ := given
  split at given
  · cases given
    exact (flanked.before there).apart
  · cases given

theorem settles_of_verdict (given : site.verdict placement c = some (id, anchor)) :
    site.Settles c id anchor := by
  obtain ⟨rule, listed, answer⟩ := List.exists_of_findSome?_eq_some given
  have member := (rules_sublist placement).subset listed
  simp only [rules, List.mem_cons, List.not_mem_nil, or_false] at member
  rcases member with rfl | rfl | rfl | rfl | rfl | rfl | rfl | rfl | rfl
  · obtain ⟨around, body, -, rfl⟩ := emptyBody_eq_some answer
    exact .inl ⟨around, .body body⟩
  · exact .inr (apart_of_betweenBranches orderly flanked answer)
  · exact .inr (apart_of_betweenTryBlocks orderly flanked answer)
  · exact .inr (apart_of_behindOperation orderly flanked answer)
  · exact .inr (apart_of_beforeBlock orderly flanked answer)
  · exact .inr (apart_of_inConditionChain flanked answer)
  · unfold ignoreBeforeModifier at answer
    split at answer
    · next ignore =>
      simp only [Option.bind_eq_bind, Option.bind_eq_some_iff] at answer
      obtain ⟨enclosing, around, following, next, answer⟩ := answer
      split at answer
      · next modifier =>
        cases answer
        exact .inl ⟨around, .request ignore next (by simpa using modifier)⟩
      · cases answer
    · cases answer
  · exact .inr (apart_of_inCallChain flanked answer)
  · simp only [inBareStatement, Option.bind_eq_bind, Option.bind_eq_some_iff] at answer
    obtain ⟨enclosing, around, answer⟩ := answer
    split at answer
    · next bare =>
      cases answer
      exact .inl ⟨around, .statement bare⟩
    · cases answer

theorem settles_of_decision (decided : site.decision placement c = .bind (some id) anchor) :
    site.Settles c id anchor := by
  unfold decision at decided
  split at decided
  · next given =>
    cases decided
    exact settles_of_verdict orderly flanked given
  · rcases bind_of_byPlacement decided with before | after | ⟨around, no_before, no_after, rfl⟩
    · exact .inr (flanked.before before).apart
    · exact .inr (flanked.after after).apart
    · exact .inl ⟨around, .alone no_before no_after⟩

end

/-! ### Ties -/

/-- The ties that wait have the same node after them, and start behind the node before the first. The
    comments that are left start no earlier. -/
structure Waiting (site : Site) (ties : List Tie) (rest : List Comment) : Prop where
  same {first tie : Tie} : first ∈ ties.head? → tie ∈ ties → tie.following = first.following
  before {first tie : Tie} : first ∈ ties.head? → tie ∈ ties →
    ∃ span, site.extents.get? first.preceding = some span ∧ span.stop ≤ tie.comment.span.start
  after {tie : Tie} : tie ∈ ties →
    ∃ span, site.extents.get? tie.following = some span ∧ tie.comment.span.stop ≤ span.start
  later {tie : Tie} {c : Comment} : tie ∈ ties → c ∈ rest → tie.comment.span.start ≤ c.span.start
  ascending : rest.Pairwise Precedes
  flanked {c : Comment} : c ∈ rest → site.Flanked c.span c.near

section
variable {ties : List Tie} {c : Comment} {rest : List Comment} {preceding following : NodeId}

section
variable (waiting : site.Waiting ties (c :: rest))
include waiting

theorem Waiting.onward : site.Waiting ties rest where
  same := waiting.same
  before := waiting.before
  after := waiting.after
  later there member := waiting.later there (List.mem_cons_of_mem _ member)
  ascending := (List.pairwise_cons.mp waiting.ascending).2
  flanked member := waiting.flanked (List.mem_cons_of_mem _ member)

theorem Waiting.single (before : c.near.preceding = some preceding)
    (after : c.near.following = some following) : site.Waiting [⟨c, preceding, following⟩] rest := by
  have flanked := waiting.flanked List.mem_cons_self
  have starts := (List.pairwise_cons.mp waiting.ascending).1
  constructor
  case same =>
    rintro first tie ⟨⟩ there
    rw [List.mem_singleton.mp there]
  case before =>
    rintro first tie ⟨⟩ there
    rw [List.mem_singleton.mp there]
    exact (flanked.preceding before).2
  case after =>
    intro tie there
    rw [List.mem_singleton.mp there]
    exact (flanked.following after).2
  case later =>
    intro tie d there member
    rw [List.mem_singleton.mp there]
    exact (starts d member).starts_le
  case ascending => exact waiting.onward.ascending
  case flanked => exact waiting.onward.flanked

theorem Waiting.join {last : Tie} (there : last ∈ ties.getLast?)
    (shared : last.following = following) (after : c.near.following = some following) :
    site.Waiting (ties ++ [⟨c, preceding, following⟩]) rest := by
  have flanked := waiting.flanked List.mem_cons_self
  have starts := (List.pairwise_cons.mp waiting.ascending).1
  have member : last ∈ ties := List.mem_of_getLast? there
  have head {first : Tie} (here : first ∈ (ties ++ [(⟨c, preceding, following⟩ : Tie)]).head?) : first ∈ ties.head? := by
    cases ties with
    | nil => cases there
    | cons tie ties => exact here
  have split {tie : Tie} (listed : tie ∈ ties ++ [(⟨c, preceding, following⟩ : Tie)]) :
      tie ∈ ties ∨ tie = ⟨c, preceding, following⟩ := by simpa using listed
  constructor
  case same =>
    intro first tie here listed
    rcases split listed with old | rfl
    · exact waiting.same (head here) old
    · exact shared.symm.trans (waiting.same (head here) member)
  case before =>
    intro first tie here listed
    rcases split listed with old | rfl
    · exact waiting.before (head here) old
    · obtain ⟨span, extent, ends⟩ := waiting.before (head here) member
      exact ⟨span, extent, Nat.le_trans ends (waiting.later member List.mem_cons_self)⟩
  case after =>
    intro tie listed
    rcases split listed with old | rfl
    · exact waiting.after old
    · exact (flanked.following after).2
  case later =>
    intro tie d listed left
    rcases split listed with old | rfl
    · exact waiting.onward.later old left
    · exact (starts d left).starts_le
  case ascending => exact waiting.onward.ascending
  case flanked => exact waiting.onward.flanked

theorem Waiting.joinTies (shelf : Shelf)
    (before : c.near.preceding = some preceding) (after : c.near.following = some following) :
    site.Waiting (site.joinTies ⟨c, preceding, following⟩ ties shelf).1 rest := by
  unfold Site.joinTies
  split
  · next last there =>
    split
    · next shared => exact waiting.join there shared after
    · exact waiting.single before after
  · exact waiting.single before after

end

theorem Waiting.breaks (waiting : site.Waiting ties rest) :
    Breaks (fun c => ∀ id, c.owner = some id → site.Settles c.toComment id c.anchor) ties := by
  intro first here tie listed
  constructor
  · rintro _ ⟨⟩
    refine .inr fun span _ extent => .inl ?_
    obtain ⟨_, same, ends⟩ := waiting.before here listed
    rw [extent] at same
    cases same
    exact ends
  · rintro _ ⟨⟩
    refine .inr fun span _ extent => .inr ?_
    obtain ⟨_, same, starts⟩ := waiting.after listed
    rw [waiting.same here listed, extent] at same
    cases same
    exact starts

end

/-- Every comment is bound to the node around it for one of few reasons, or to a node apart from it. -/
theorem settles_of_bind (orderly : site.Orderly) {ids : List NodeId} {shelf : Shelf} (bound : site.bind ids = .ok shelf) :
    ∀ c ∈ shelf.held, ∀ id, c.owner = some id → site.Settles c.toComment id c.anchor := by
  simp only [Site.bind, bind_eq_ok, pure_eq_ok] at bound
  obtain ⟨read, -, comments, around, rfl⟩ := bound
  have flanked c member := (neighbours_flanked around (good_nil site) c member).1
  have ascending : comments.Pairwise Precedes := by
    have spans := span_inOrder read
    rw [← map_eq_of_forall₂ (f := (·.span)) (fun _ _ => rfl) (neighbours_same site around), List.pairwise_map] at spans
    exact spans
  have waiting : site.Waiting [] comments := ⟨by simp, by simp, by simp, by simp, ascending, flanked _⟩
  have empty : ({} : Shelf).held = [] := rfl
  refine held_bindAll (Q := site.Waiting) Waiting.breaks Waiting.onward ?_ [] waiting (by simp [empty]) ?_
  · intro ties c rest placement preceding following shelf waiting decided
    obtain ⟨-, before, after⟩ := tie_of_decision decided
    exact waiting.joinTies shelf before after
  · rintro c member placement owner anchor decided id rfl
    exact settles_of_decision orderly (flanked c member) decided

end Site
end ApexLayout
