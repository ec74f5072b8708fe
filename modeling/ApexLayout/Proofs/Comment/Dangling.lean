import ApexLayout.Proofs.Comment.Deferral
import ApexLayout.Proofs.Comment.Descent

/-!
Where comments dangle. A comment belongs to a body itself only if the search for its neighbours finds nothing in the
body, or if a rule takes the body for empty (`members_of_bind`).
-/
namespace ApexLayout

def Tree.members (t : Tree) (id : NodeId) : List Value :=
  t.items id (if t.isKind id .blockStmnt then "stmnts" else "members")

namespace Site

variable {site : Site} {id : NodeId} {memo : ChildMemo} {comment : Span} {c : Comment} {placement : Placement}
  {ties : List Tie}

/-! ### Children -/

/-- The list holds nodes that can carry comments, and for a node that can do so itself all those right
    below it. -/
structure Lists (site : Site) (id : NodeId) (found : List NodeId) : Prop where
  carry : ∀ d ∈ found, site.canCarry d
  all : site.canCarry id → ∀ d, site.tree.Child id d → d ≠ id → site.canCarry d → d ∈ found

/-- Every list found so far is that of its node. -/
def Good (site : Site) (memo : ChildMemo) : Prop := AllRight site.Lists memo

theorem good_nil (site : Site) : site.Good [] := allRight_nil _

/-- Nodes that can carry comments are looked at from the top only. -/
theorem composes_lists (site : Site) :
    site.Composes (fun bound path id => site.canCarry id → bound ≠ 0 ∧ path = []) site.Lists where
  nothing top := ⟨by simp, fun can => absurd rfl (top can).1⟩
  inner _ _ plain can := absurd can plain
  sorted {bound path id parts} top nodes are_parts := by
    refine ⟨fun d member => ?_, fun can d child other carries => ?_⟩
    · obtain ⟨⟨node, part⟩, listed, there⟩ := List.mem_flatMap.mp (List.mem_mergeSort.mp member)
      have is_part : site.Part _ _ node part := are_parts _ listed
      cases is_part with
      | passed => cases there
      | carrier _ can => rwa [List.mem_singleton.mp there]
      | below _ _ right => exact right.carry d there
    · obtain ⟨edge, below⟩ := child
      have among : d ∈ parts.map (·.1) := nodes ▸ List.mem_map_of_mem below
      obtain ⟨⟨node, part⟩, listed, rfl⟩ := List.mem_map.mp among
      have is_part : site.Part _ _ node part := are_parts _ listed
      refine List.mem_mergeSort.mpr (List.mem_flatMap.mpr ⟨_, listed, ?_⟩)
      cases is_part with
      | passed on_way => simp [(top can).2, other] at on_way
      | carrier => exact List.mem_singleton_self _
      | below _ plain _ => exact absurd carries plain

/-! ### Neighbours -/

/-- The neighbours of a comment can carry comments, as can the node around it. The one before it ends where
    it starts or earlier, and the one after it starts where it stops or later. -/
structure Flanked (site : Site) (comment : Span) (near : Neighbours) : Prop where
  enclosing {id : NodeId} : near.enclosing = some id → site.canCarry id
  preceding {id : NodeId} : near.preceding = some id →
    site.canCarry id ∧ ∃ span, site.extents.get? id = some span ∧ span.stop ≤ comment.start
  following {id : NodeId} : near.following = some id →
    site.canCarry id ∧ ∃ span, site.extents.get? id = some span ∧ comment.stop ≤ span.start

theorem search_flanked {siblings : List NodeId} {left right : Nat} {enclosing preceding following : Option NodeId}
    {found : Found} (ok : site.search siblings comment left right preceding following = .ok found)
    (carry : ∀ d ∈ siblings, site.canCarry d) (inside : right ≤ siblings.length)
    (so_far : site.Flanked comment ⟨enclosing, preceding, following⟩) :
    (∃ child ∈ siblings, found = .inside child) ∨ ∃ before after, found = .beside before after ∧
      site.Flanked comment ⟨enclosing, before, after⟩ ∧
      (left < right ∨ preceding.isSome ∨ following.isSome → before.isSome ∨ after.isSome) := by
  fun_induction search site siblings comment left right preceding following with
  | case1 left right _ _ less middle out =>
    have outside := List.getElem?_eq_none_iff.mp out
    omega
  | case2 _ _ _ _ _ _ child there no_span =>
    have span := (Bool.and_eq_true_iff.mp (Bool.and_eq_true_iff.mp (carry child (List.mem_of_getElem? there))).1).2
    simp [no_span] at span
  | case3 _ _ _ _ _ _ child there =>
    cases ok
    exact .inl ⟨child, List.mem_of_getElem? there, rfl⟩
  | case4 _ _ _ _ _ _ child there span extent _ ends ih =>
    refine (ih ok inside ⟨so_far.enclosing, ?_, so_far.following⟩).imp_right ?_
    · rintro _ ⟨⟩
      exact ⟨carry child (List.mem_of_getElem? there), span, extent, ends⟩
    · rintro ⟨before, after, rfl, flanked, beside⟩
      exact ⟨before, after, rfl, flanked, fun _ => beside (by simp)⟩
  | case5 _ _ _ _ _ _ child there span extent _ _ starts ih =>
    refine (ih ok (by omega) ⟨so_far.enclosing, so_far.preceding, ?_⟩).imp_right ?_
    · rintro _ ⟨⟩
      exact ⟨carry child (List.mem_of_getElem? there), span, extent, starts⟩
    · rintro ⟨before, after, rfl, flanked, beside⟩
      exact ⟨before, after, rfl, flanked, fun _ => beside (by simp)⟩
  | case6 => cases ok
  | case7 left right preceding following done =>
    cases ok
    exact .inr ⟨preceding, following, rfl, so_far, fun any => any.resolve_left done⟩

/-- A comment without neighbours is in a node with nothing right below it that can carry comments. -/
def Lonely (site : Site) (near : Neighbours) : Prop :=
  near.preceding = none → near.following = none →
    ∀ id, near.enclosing = some id → ∀ d, site.tree.Child id d → d ≠ id → ¬ site.canCarry d = true

theorem level_lists {later : ChildMemo} {found : Outcome Found}
    (here : site.level comment id memo = (found, later)) (good : site.Good memo) :
    site.Good later ∧ ∃ siblings, site.Lists id siblings ∧
      site.search siblings comment 0 siblings.length none none = found := by
  obtain ⟨siblings, listed, searched⟩ := siblings_of_level here
  obtain ⟨lists, -, still⟩ := children_right site.composes_lists (fun _ => ⟨Nat.succ_ne_zero _, rfl⟩) good
  rw [listed] at still lists
  exact ⟨still, siblings, lists, searched⟩

theorem descend_flanked {enclosing : Option NodeId} {answer : Neighbours × ChildMemo}
    (ends : site.descend comment id enclosing memo = some (.ok answer)) (good : site.Good memo)
    (around : ∀ k, enclosing = some k → k = id ∧ site.canCarry id) :
    site.Good answer.2 ∧ site.Flanked comment answer.1 ∧ site.Lonely answer.1 := by
  refine descend_induction (motive := fun id enclosing memo answer => site.Good memo →
    (∀ k, enclosing = some k → k = id ∧ site.canCarry id) →
      site.Good answer.2 ∧ site.Flanked comment answer.1 ∧ site.Lonely answer.1) ?_ ?_ ends good around
  · intro id enclosing memo later before after here good around
    obtain ⟨still, siblings, lists, searched⟩ := level_lists here good
    have alone : site.Flanked comment ⟨enclosing, none, none⟩ :=
      ⟨fun {k} enclosed => (around k enclosed).1 ▸ (around k enclosed).2, by simp, by simp⟩
    rcases search_flanked searched lists.carry (Nat.le_refl _) alone with ⟨_, _, absurd⟩ | ⟨_, _, same, flanked, beside⟩
    · cases absurd
    cases same
    refine ⟨still, flanked, fun no_before no_after k enclosed d child other can => ?_⟩
    obtain ⟨rfl, carries⟩ := around k enclosed
    obtain rfl : before = none := no_before
    obtain rfl : after = none := no_after
    have some_beside := beside (.inl (List.length_pos_of_mem (lists.all carries d child other can)))
    simp at some_beside
  · intro id enclosing memo later child answer here ih good around
    obtain ⟨still, siblings, lists, searched⟩ := level_lists here good
    apply ih still
    rintro _ ⟨⟩
    have alone : site.Flanked comment ⟨none, none, none⟩ := ⟨by simp, by simp, by simp⟩
    rcases search_flanked searched lists.carry (Nat.le_refl _) alone with ⟨_, member, same⟩ | ⟨_, _, absurd, _⟩
    · cases same
      exact ⟨rfl, lists.carry _ member⟩
    · cases absurd

theorem neighbours_flanked {comments found : List Comment} (ok : site.neighbours comments memo = .ok found)
    (good : site.Good memo) : ∀ c ∈ found, site.Flanked c.span c.near ∧ site.Lonely c.near := by
  induction comments generalizing found memo with
  | nil =>
    cases ok
    simp
  | cons c comments ih =>
    simp only [neighbours, bind_eq_ok, getD_error_eq_ok, pure_eq_ok] at ok
    obtain ⟨⟨near, later⟩, down, rest, others, rfl⟩ := ok
    obtain ⟨still, flanked⟩ := descend_flanked down good (by simp)
    intro d member
    rcases List.mem_cons.mp member with rfl | further
    · exact flanked
    · exact ih others still d further

/-! ### Decisions -/

/-- Why a comment may belong to a node itself: the node is taken for an empty body, it is a block
    without statements, or the comment has no neighbours in it. -/
inductive Dangles (site : Site) (c : Comment) (id : NodeId) : Prop where
  | emptyBody (empty : site.isEmptyArray id "stmnts" || site.isEmptyArray id "members")
  | emptyBlock (none_listed : site.tree.nodesIn id "stmnts" = [])
      (block : site.tree.isKind id .blockStmnt ∨
        ∃ handler, site.tree.isAmong handler [.catchBlock, .finallyBlock] ∧ site.tree.child? handler "stmnt" = some id)
  | alone (enclosing : c.near.enclosing = some id) (preceding : c.near.preceding = none)
      (following : c.near.following = none)

theorem intoBlock_dangling {block : NodeId} (into : site.intoBlock block = (id, .dangling)) :
    id = block ∧ site.tree.nodesIn block "stmnts" = [] := by
  unfold intoBlock at into
  split at into
  · cases into
  · next none_listed =>
    cases into
    exact ⟨rfl, none_listed⟩

theorem dangles_of_betweenBranches (given : site.betweenBranches c = some (id, .dangling)) :
    site.Dangles c id := by
  simp only [betweenBranches, Option.bind_eq_bind, Option.bind_eq_some_iff] at given
  obtain ⟨enclosing, -, preceding, -, following, -, given⟩ := given
  split at given
  · simp only [Option.bind_eq_some_iff] at given
    obtain ⟨body, -, trails, -, given⟩ := given
    split at given
    · cases given
    · simp only [Option.bind_eq_some_iff] at given
      obtain ⟨block, -, given⟩ := given
      split at given
      · next known =>
        obtain ⟨rfl, none_listed⟩ := intoBlock_dangling (Option.some.inj given)
        exact .emptyBlock none_listed (.inl known)
      · cases given
  · cases given

theorem emptyBody_eq_some {anchor : Anchor} (given : site.emptyBody c = some (id, anchor)) :
    c.near.enclosing = some id ∧ site.tree.isAmong id bodyKinds ∧
      (site.isEmptyArray id "stmnts" || site.isEmptyArray id "members") ∧ anchor = .dangling := by
  simp only [emptyBody, Option.bind_eq_bind, Option.bind_eq_some_iff] at given
  obtain ⟨enclosing, around, given⟩ := given
  split at given
  · next both =>
    cases given
    exact ⟨around, (Bool.and_eq_true_iff.mp both).1, (Bool.and_eq_true_iff.mp both).2, rfl⟩
  · cases given

theorem rules_sublist (placement : Placement) : (rules placement).Sublist (rules .endOfLine) := by
  cases placement with
  | ownLine =>
    exact .cons_cons _ (.cons_cons _ (.cons_cons _ (.cons _ (.cons_cons _ (.cons_cons _ (.cons_cons _
      (.cons_cons _ (.cons _ .slnil))))))))
  | endOfLine => exact .refl _
  | remaining =>
    exact .cons _ (.cons_cons _ (.cons_cons _ (.cons _ (.cons _ (.cons_cons _ (.cons_cons _ (.cons_cons _
      (.cons_cons _ .slnil))))))))

theorem dangles_of_verdict (given : site.verdict placement c = some (id, .dangling)) : site.Dangles c id := by
  obtain ⟨rule, listed, answer⟩ := List.exists_of_findSome?_eq_some given
  have member := (rules_sublist placement).subset listed
  simp only [rules, List.mem_cons, List.not_mem_nil, or_false] at member
  -- The rules with no more than a `simp` put comments before or behind a node.
  rcases member with rfl | rfl | rfl | rfl | rfl | rfl | rfl | rfl | rfl
  · exact .emptyBody (emptyBody_eq_some answer).2.2.1
  · exact dangles_of_betweenBranches answer
  · simp only [betweenTryBlocks, Option.bind_eq_bind, Option.bind_eq_some_iff] at answer
    obtain ⟨enclosing, -, preceding, -, following, -, answer⟩ := answer
    split at answer
    · next known =>
      obtain ⟨block, there, into⟩ := Option.map_eq_some_iff.mp answer
      obtain ⟨rfl, none_listed⟩ := intoBlock_dangling into
      exact .emptyBlock none_listed (.inr ⟨following, (Bool.and_eq_true_iff.mp known).2, there⟩)
    · cases answer
  · simp [behindOperation, Option.bind_eq_some_iff] at answer
  · simp only [beforeBlock, Option.bind_eq_bind, Option.bind_eq_some_iff] at answer
    obtain ⟨following, -, answer⟩ := answer
    split at answer
    · next block =>
      obtain ⟨rfl, none_listed⟩ := intoBlock_dangling (Option.some.inj answer)
      exact .emptyBlock none_listed (.inl block)
    · cases answer
  · simp [inConditionChain, Option.bind_eq_some_iff] at answer
  · simp [ignoreBeforeModifier, Option.bind_eq_some_iff] at answer
  · simp [inCallChain, Option.bind_eq_some_iff] at answer
  · simp [inBareStatement, Option.bind_eq_some_iff] at answer

theorem byPlacement_dangling {near : Neighbours}
    (decided : byPlacement placement near = .bind (some id) .dangling) :
    near.enclosing = some id ∧ near.preceding = none ∧ near.following = none := by
  obtain ⟨enclosing, preceding, following⟩ := near
  cases placement <;> cases preceding <;> cases following <;> simp [byPlacement] at decided
  all_goals exact ⟨decided, rfl, rfl⟩

theorem dangles_of_decision (decided : site.decision placement c = .bind (some id) .dangling) : site.Dangles c id := by
  unfold decision at decided
  split at decided
  · next owner anchor given =>
    cases decided
    exact dangles_of_verdict given
  · obtain ⟨enclosing, preceding, following⟩ := byPlacement_dangling decided
    exact .alone enclosing preceding following

/-! ### The shelf -/

theorem held_add_perm (shelf : Shelf) (c : BoundComment) : (shelf.add c).held.Perm (shelf.held ++ [c]) := by
  unfold Shelf.add
  split
  · exact Shelf.held_modify_perm shelf _ (· ++ [c]) [c] fun list => .refl _
  · simp [Shelf.held]

variable {P : BoundComment → Prop} {shelf : Shelf}

theorem held_foldl_add (bound : List BoundComment) (held : ∀ c ∈ shelf.held, P c) (each : ∀ c ∈ bound, P c) :
    ∀ c ∈ (bound.foldl Shelf.add shelf).held, P c := by
  induction bound generalizing shelf with
  | nil => exact held
  | cons first bound ih =>
    refine ih (fun c member => ?_) fun c member => each c (List.mem_cons_of_mem _ member)
    rcases List.mem_append.mp ((held_add_perm shelf first).mem_iff.mp member) with before | last
    · exact held c before
    · rw [List.mem_singleton.mp last]
      exact each first List.mem_cons_self

theorem mem_held_sort {c : BoundComment} {key : NodeId} (member : c ∈ (shelf.sort key).held) : c ∈ shelf.held := by
  have same : (shelf.sort key).held.Perm (shelf.held ++ []) :=
    Shelf.held_modify_perm shelf key _ [] fun list => by simpa using List.mergeSort_perm list _
  simpa using same.mem_iff.mp member

def Tie.boundTo (tie : Tie) (owner : NodeId) (anchor : Anchor) : BoundComment :=
  { tie.comment with placement := .remaining, owner := some owner, anchor }

/-- The property holds of ties, however they are broken. -/
def Breaks (P : BoundComment → Prop) (ties : List Tie) : Prop :=
  ∀ first ∈ ties.head?, ∀ tie ∈ ties, P (tie.boundTo first.preceding .trailing) ∧ P (tie.boundTo first.following .leading)

theorem held_breakTies (held : ∀ c ∈ shelf.held, P c) (breaks : Breaks P ties) :
    ∀ c ∈ (site.breakTies ties shelf).held, P c := by
  unfold breakTies
  split
  · exact held
  · next comment preceding following rest =>
    extract_lets stop trailing bindTo bound
    intro c member
    refine held_foldl_add bound held (fun c member => ?_) c (mem_held_sort (mem_held_sort member))
    rcases List.mem_append.mp member with early | late
    · obtain ⟨tie, there, rfl⟩ := List.mem_map.mp early
      exact (breaks _ rfl tie (List.mem_of_mem_take there)).1
    · obtain ⟨tie, there, rfl⟩ := List.mem_map.mp late
      exact (breaks _ rfl tie (List.mem_of_mem_drop there)).2

theorem held_joinTies (tie : Tie) (held : ∀ c ∈ shelf.held, P c) (breaks : Breaks P ties) :
    ∀ c ∈ (site.joinTies tie ties shelf).2.held, P c := by
  unfold joinTies
  split
  · split
    · exact held
    · exact held_breakTies held breaks
  · exact held

/-- What holds of ties, however they are broken, and of comments bound by a decision, holds of all comments
    bound. The ties that wait and the comments that are left may be related while it goes on. -/
theorem held_bindAll {Q : List Tie → List Comment → Prop} (breaks : ∀ {ties rest}, Q ties rest → Breaks P ties)
    (onward : ∀ {ties c rest}, Q ties (c :: rest) → Q ties rest)
    (joined : ∀ {ties c rest placement preceding following} (shelf : Shelf), Q ties (c :: rest) →
      site.decision placement c = .tie preceding following → Q (site.joinTies ⟨c, preceding, following⟩ ties shelf).1 rest)
    {rest : List Comment} (before : List Comment) (waiting : Q ties rest)
    (held : ∀ c ∈ shelf.held, P c)
    (decided : ∀ c ∈ rest, ∀ placement owner anchor, site.decision placement c = .bind owner anchor →
      P { c with placement, owner, anchor }) : ∀ c ∈ (site.bindAll before ties shelf rest).held, P c := by
  induction rest generalizing before ties shelf with
  | nil => exact held_breakTies held (breaks waiting)
  | cons first rest ih =>
    have later := fun c member => decided c (List.mem_cons_of_mem _ member)
    rw [bindAll]
    split
    · next owner anchor given =>
      refine ih _ (onward waiting) (fun c member => ?_) later
      rcases List.mem_append.mp ((held_add_perm shelf _).mem_iff.mp member) with old | last
      · exact held c old
      · rw [List.mem_singleton.mp last]
        exact decided first List.mem_cons_self _ _ _ given
    · next given => exact ih _ (joined shelf waiting given) (held_joinTies _ held (breaks waiting)) later

/-! ### Bodies with members -/

/-- Comments find what bodies list: a body with members has one that can carry comments, and no list that
    is empty, and what a handler of exceptions does is a block. -/
structure Furnished (site : Site) : Prop where
  member {id : NodeId} : site.tree.isAmong id bodyKinds → site.tree.members id ≠ [] →
    ∃ d, Value.node d ∈ site.tree.members id ∧ d ≠ id ∧ site.canCarry d
  lists {id : NodeId} : site.tree.isAmong id bodyKinds → site.tree.members id ≠ [] →
    (site.isEmptyArray id "stmnts" || site.isEmptyArray id "members") = false
  handler {id block : NodeId} : site.tree.isAmong id [.catchBlock, .finallyBlock] →
    site.tree.child? id "stmnt" = some block → site.tree.isKind block .blockStmnt

theorem child_of_mem_items {tree : Tree} {name : String} {d : NodeId} (member : Value.node d ∈ tree.items id name) :
    tree.Child id d := by
  unfold Tree.items at member
  cases found : (tree.field? id name).bind Value.array? with
  | none => simp [found] at member
  | some items =>
    obtain ⟨value, there, is_array⟩ := Option.bind_eq_some_iff.mp found
    obtain ⟨before, after, split, -⟩ := List.lookup_eq_some_iff.mp there
    cases value with
    | array items' =>
      cases is_array
      refine Extents.child_iff.mpr ⟨.array items, by simp [split], .array ?_ (.node d)⟩
      simpa [found] using member
    | _ => cases is_array

/-- A comment belongs to a body itself only if the body has no members. -/
theorem members_of_dangles (furnished : site.Furnished) (lonely : site.Lonely c.near)
    (dangles : site.Dangles c id) (body : site.tree.isAmong id bodyKinds) : site.tree.members id = [] := by
  by_contra listed
  obtain ⟨d, member, other, can⟩ := furnished.member body listed
  cases dangles with
  | emptyBody empty => simp [furnished.lists body listed] at empty
  | emptyBlock none_listed block =>
    have known : site.tree.isKind id .blockStmnt := by
      rcases block with known | ⟨handler, known, there⟩
      · exact known
      · exact furnished.handler known there
    rw [Tree.members, if_pos known] at member
    have nodes : d ∈ site.tree.nodesIn id "stmnts" := List.mem_filterMap.mpr ⟨_, member, rfl⟩
    simp [none_listed] at nodes
  | alone enclosing preceding following =>
    exact lonely preceding following id enclosing d (child_of_mem_items member) other can

/-- After binding, a comment belongs to a body itself only if the body has no members. -/
theorem members_of_bind (furnished : site.Furnished) {ids : List NodeId} (bound : site.bind ids = .ok shelf) :
    ∀ c ∈ shelf.held, c.anchor = .dangling → ∀ id, c.owner = some id → site.tree.isAmong id bodyKinds →
      site.tree.members id = [] := by
  simp only [Site.bind, bind_eq_ok, pure_eq_ok] at bound
  obtain ⟨read, -, comments, around, rfl⟩ := bound
  have lonely c member := (neighbours_flanked around (good_nil site) c member).2
  have empty : ({} : Shelf).held = [] := rfl
  -- Ties are broken before and behind nodes.
  have breaks (ties : List Tie) : Breaks (fun c => c.anchor = .dangling → ∀ id, c.owner = some id →
      site.tree.isAmong id bodyKinds → site.tree.members id = []) ties := fun _ _ _ _ => ⟨by rintro ⟨⟩, by rintro ⟨⟩⟩
  refine held_bindAll (Q := fun _ _ => True) (fun _ => breaks _) id (fun _ _ _ => trivial) [] trivial (by simp [empty]) ?_
  rintro c member placement owner anchor decided rfl id rfl body
  exact members_of_dangles furnished (lonely c member) (dangles_of_decision decided) body

end Site
end ApexLayout
