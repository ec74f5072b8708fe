import ApexLayout.Proofs.Comment.Descent
import Mathlib.Data.List.Permutation

/-!
The neighbours of a comment without any halving. Where the nodes of each level do not overlap, looking at all of them
in order gives what halving gives, and an error just if one of them overlaps the comment (`descend_eq_beside`).
In a tree without cycles a comment is searched at each level among the nearest nodes below that can carry comments
(`children_eq_carriers`).
-/
namespace ApexLayout.Site

variable {site : Site} {comment : Span} {id d child : NodeId} {memo : ChildMemo} {bound : Nat}
  {path siblings earlier later : List NodeId}

/-- The nearest nodes below a node that can carry comments, sorted, along ways of bounded length. -/
def gather (site : Site) : Nat → NodeId → List NodeId
  | 0, _ => []
  | bound + 1, id =>
    (((site.tree.children id).map (·.2)).flatMap fun child =>
      if site.canCarry child then [child] else site.gather bound child).mergeSort site.startsBefore

/-- The nearest nodes below a node that can carry comments, sorted by their extents. -/
def carriers (site : Site) (id : NodeId) : List NodeId := site.gather (site.tree.size + 1) id

/-- The nodes of a path are different nodes above a given one. -/
structure Above (site : Site) (path : List NodeId) (id : NodeId) : Prop where
  distinct : path.Nodup
  inside : ∀ a ∈ path, a < site.tree.size
  reaches : ∀ a ∈ path, Relation.TransGen site.tree.Child a id

theorem above_nil (site : Site) (id : NodeId) : site.Above [] id := ⟨List.nodup_nil, by simp, by simp⟩

theorem Above.notMem (acyclic : site.tree.Acyclic) (above : site.Above path id) : id ∉ path :=
  fun again => acyclic id (above.reaches id again)

theorem Above.step (acyclic : site.tree.Acyclic) (above : site.Above path id) (below : site.tree.Child id child) :
    site.Above (id :: path) child where
  distinct := List.nodup_cons.mpr ⟨above.notMem acyclic, above.distinct⟩
  inside := by
    intro a member
    rcases List.mem_cons.mp member with rfl | further
    · exact Extents.child_size below
    · exact above.inside a further
  reaches := Extents.above_cons above.reaches below

theorem Above.bound_ne_zero (above : site.Above path id) (enough : bound + path.length = site.tree.size + 1) : bound ≠ 0 := by
  have room := Occurrences.length_le_of_inside above.distinct above.inside
  omega

/-- With enough room for the ways down, the bound does not matter. -/
theorem gather_eq_gather (acyclic : site.tree.Acyclic) {other : Nat} {path' : List NodeId} (above : site.Above path id)
    (enough : bound + path.length = site.tree.size + 1) (above' : site.Above path' id)
    (enough' : other + path'.length = site.tree.size + 1) : site.gather bound id = site.gather other id := by
  induction bound generalizing other path path' id with
  | zero => exact absurd rfl (above.bound_ne_zero enough)
  | succ bound ih =>
    obtain ⟨other, rfl⟩ := Nat.exists_eq_add_one_of_ne_zero (above'.bound_ne_zero enough')
    rw [gather, gather]
    congr 1
    refine List.flatMap_congr fun child member => ?_
    have below := child_of_mem member
    have same : site.gather bound child = site.gather other child :=
      ih (above.step acyclic below) (by simp; omega) (above'.step acyclic below) (by simp; omega)
    rw [same]

theorem gather_eq_carriers (acyclic : site.tree.Acyclic) (above : site.Above path id)
    (enough : bound + path.length = site.tree.size + 1) : site.gather bound id = site.carriers id :=
  gather_eq_gather acyclic above enough (above_nil site id) rfl

/-- The nodes to search at a level are the children that can carry comments, and in place of each other
    child those to search at the child. -/
theorem carriers_eq (acyclic : site.tree.Acyclic) (id : NodeId) :
    site.carriers id = (((site.tree.children id).map (·.2)).flatMap fun child =>
      if site.canCarry child then [child] else site.carriers child).mergeSort site.startsBefore := by
  conv_lhs => rw [carriers, gather]
  congr 1
  refine List.flatMap_congr fun child member => ?_
  rw [gather_eq_carriers acyclic ((above_nil site id).step acyclic (child_of_mem member)) (by simp)]

def Kept (site : Site) (memo : ChildMemo) : Prop := ∀ k found, memo.lookup k = some found → found = site.carriers k

theorem kept_nil (site : Site) : site.Kept [] := allRight_nil _

theorem composes_carriers (acyclic : site.tree.Acyclic) :
    site.Composes (fun bound path id => site.Above path id ∧ bound + path.length = site.tree.size + 1) fun id found =>
      found = site.carriers id where
  nothing := by
    rintro path id ⟨above, enough⟩
    exact absurd rfl (above.bound_ne_zero enough)
  inner := by
    rintro bound path id d ⟨above, enough⟩ below -
    exact ⟨above.step acyclic below, by simp; omega⟩
  sorted := by
    rintro bound path id parts ⟨above, -⟩ nodes are_parts
    rw [carriers_eq acyclic, ← nodes, List.flatMap_map]
    congr 1
    refine List.flatMap_congr fun part member => ?_
    obtain ⟨d, found⟩ := part
    have fresh := (above.step acyclic (child_of_mem (nodes ▸ List.mem_map_of_mem member))).notMem acyclic
    have is_part : site.Part _ _ d found := are_parts _ member
    cases is_part with
    | passed on_way => exact absurd on_way fresh
    | carrier _ can => exact (if_pos can).symm
    | below _ plain right => exact right.trans (if_neg plain).symm

/-- What is found below a node is the plain list, and so is every list that is kept. -/
theorem children_eq_carriers (acyclic : site.tree.Acyclic) (kept : site.Kept memo) (id : NodeId) :
    (site.children (site.tree.size + 1) [] id memo).1 = site.carriers id ∧
      site.Kept (site.children (site.tree.size + 1) [] id memo).2 := by
  obtain ⟨found, -, still⟩ := children_right (composes_carriers acyclic) ⟨above_nil site id, rfl⟩ kept
  exact ⟨found, still⟩

theorem level_eq (acyclic : site.tree.Acyclic) (kept : site.Kept memo) (comment : Span) (id : NodeId) :
    ∃ later, site.Kept later ∧ site.level comment id memo =
      (site.search (site.carriers id) comment 0 (site.carriers id).length none none, later) := by
  obtain ⟨found, still⟩ := children_eq_carriers acyclic kept id
  refine ⟨_, still, ?_⟩
  rw [level, ← found]

/-! ### Where nodes lie -/

def endsBefore (site : Site) (comment : Span) (d : NodeId) : Bool :=
  (site.extents.get? d).any fun span => span.stop ≤ comment.start

def startsAfter (site : Site) (comment : Span) (d : NodeId) : Bool :=
  (site.extents.get? d).any fun span => comment.stop ≤ span.start

def surrounds (site : Site) (comment : Span) (d : NodeId) : Bool := (site.extents.get? d).any (·.contains comment)

def clashes (site : Site) (comment : Span) (d : NodeId) : Bool :=
  !site.surrounds comment d && !site.endsBefore comment d && !site.startsAfter comment d

/-- No node ends before it starts, and no two nodes overlap. -/
structure Parted (site : Site) (siblings : List NodeId) : Prop where
  upright {d : NodeId} {span : Span} : d ∈ siblings → site.extents.get? d = some span → span.start ≤ span.stop
  apart {d e : NodeId} {x y : Span} : d ∈ siblings → e ∈ siblings → d ≠ e →
    site.extents.get? d = some x → site.extents.get? e = some y → x.stop ≤ y.start ∨ y.stop ≤ x.start

/-- Nodes with extents, one behind the other. A node may be listed again. -/
structure Row (site : Site) (siblings : List NodeId) : Prop where
  spans {d : NodeId} : d ∈ siblings → ∃ span, site.extents.get? d = some span ∧ span.start ≤ span.stop
  ranks : siblings.Pairwise fun a b => a = b ∨
    ∀ x y, site.extents.get? a = some x → site.extents.get? b = some y → x.stop ≤ y.start

/-! ### Carriers -/

theorem mem_gather {bound : Nat} (member : d ∈ site.gather bound id) : site.canCarry d ∧ site.Under id d := by
  induction bound generalizing id with
  | zero => cases member
  | succ bound ih =>
    rw [gather, List.mem_mergeSort, List.mem_flatMap] at member
    obtain ⟨child, listed, here⟩ := member
    by_cases can : site.canCarry child
    · rw [if_pos can, List.mem_singleton] at here
      subst here
      exact ⟨can, .child (child_of_mem listed)⟩
    · rw [if_neg can] at here
      obtain ⟨carries, under⟩ := ih here
      exact ⟨carries, .through (child_of_mem listed) can under⟩

theorem Kept.sound (kept : site.Kept memo) : site.Sound memo := by
  intro k found there d member
  rw [kept k found there] at member
  exact mem_gather member

theorem startsBefore_iff {a b : NodeId} : site.startsBefore a b ↔ ∀ x, site.extents.get? a = some x →
    ∃ y, site.extents.get? b = some y ∧ (x.start < y.start ∨ x.start = y.start ∧ x.stop ≤ y.stop) := by
  simp only [startsBefore]
  rcases site.extents.get? a with _ | x
  · simp
  · rcases site.extents.get? b with _ | y
    · simp
    · simp

theorem startsBefore_total (site : Site) (a b : NodeId) : (site.startsBefore a b || site.startsBefore b a) = true := by
  rw [Bool.or_eq_true, startsBefore_iff, startsBefore_iff]
  rcases site.extents.get? a with _ | x
  · simp
  · rcases site.extents.get? b with _ | y
    · simp
    · simp only [Option.some.injEq, exists_eq_left', forall_eq']
      omega

theorem startsBefore_trans (site : Site) (a b c : NodeId) (first : site.startsBefore a b) (second : site.startsBefore b c) :
    site.startsBefore a c := by
  rw [startsBefore_iff] at *
  intro x x_is
  obtain ⟨y, y_is, before⟩ := first x x_is
  obtain ⟨z, z_is, further⟩ := second y y_is
  exact ⟨z, z_is, by omega⟩

/-- Sorted nodes that do not overlap lie one behind the other. -/
theorem row_carriers (parted : site.Parted (site.carriers id)) : site.Row (site.carriers id) where
  spans {d} member := by
    have can := (mem_gather member).1
    simp only [canCarry, Bool.and_eq_true] at can
    obtain ⟨span, extent⟩ := Option.isSome_iff_exists.mp can.1.2
    exact ⟨span, extent, parted.upright member extent⟩
  ranks := by
    have sorted : (site.carriers id).Pairwise fun a b => site.startsBefore a b := by
      rw [carriers, gather]
      exact List.pairwise_mergeSort (startsBefore_trans site) (startsBefore_total site) _
    refine sorted.imp_of_mem fun {a b} here there before => ?_
    by_cases same : a = b
    · exact .inl same
    · refine .inr fun x y x_is y_is => ?_
      have x_upright := parted.upright here x_is
      have y_upright := parted.upright there y_is
      obtain ⟨y', y'_is, starts⟩ := startsBefore_iff.mp before x x_is
      obtain rfl : y = y' := Option.some.inj (y_is.symm.trans y'_is)
      -- If the second ended before the first starts, both would be the same empty span.
      rcases parted.apart here there same x_is y_is with apart | apart
      · exact apart
      · omega

/-! ### One level -/

theorem endsBefore_iff : site.endsBefore comment d ↔ ∃ span, site.extents.get? d = some span ∧ span.stop ≤ comment.start := by
  simp [endsBefore, Option.any_eq_true]

theorem startsAfter_iff : site.startsAfter comment d ↔ ∃ span, site.extents.get? d = some span ∧ comment.stop ≤ span.start := by
  simp [startsAfter, Option.any_eq_true]

theorem surrounds_iff : site.surrounds comment d ↔ ∃ span, site.extents.get? d = some span ∧ span.contains comment := by
  simp [surrounds, Option.any_eq_true]

theorem Row.not_both (row : site.Row siblings) (nonempty : comment.start < comment.stop) (member : d ∈ siblings) :
    ¬ (site.endsBefore comment d ∧ site.startsAfter comment d) := by
  rintro ⟨ends, starts⟩
  obtain ⟨span, extent, upright⟩ := row.spans member
  obtain ⟨_, same, ends⟩ := endsBefore_iff.mp ends
  obtain ⟨_, again, starts⟩ := startsAfter_iff.mp starts
  obtain rfl := Option.some.inj (extent.symm.trans same)
  obtain rfl := Option.some.inj (extent.symm.trans again)
  omega

theorem Row.before (row : site.Row (earlier ++ d :: later)) (ends : site.endsBefore comment d) :
    ∀ a ∈ earlier, site.endsBefore comment a := by
  intro a member
  obtain ⟨x, x_is, -⟩ := row.spans (List.mem_append_left _ member)
  obtain ⟨y, y_is, y_upright⟩ := row.spans (List.mem_append_right earlier List.mem_cons_self)
  obtain ⟨_, same, ends_there⟩ := endsBefore_iff.mp ends
  obtain rfl := Option.some.inj (y_is.symm.trans same)
  rcases (List.pairwise_append.mp row.ranks).2.2 a member d List.mem_cons_self with rfl | behind
  · exact ends
  · have := behind x y x_is y_is
    exact endsBefore_iff.mpr ⟨x, x_is, by omega⟩

theorem Row.after (row : site.Row (earlier ++ d :: later)) (starts : site.startsAfter comment d) :
    ∀ b ∈ later, site.startsAfter comment b := by
  intro b member
  obtain ⟨x, x_is, x_upright⟩ := row.spans (List.mem_append_right earlier List.mem_cons_self)
  obtain ⟨y, y_is, -⟩ := row.spans (List.mem_append_right earlier (List.mem_cons_of_mem d member))
  obtain ⟨_, same, starts_there⟩ := startsAfter_iff.mp starts
  obtain rfl := Option.some.inj (x_is.symm.trans same)
  rcases (List.pairwise_cons.mp (List.pairwise_append.mp row.ranks).2.1).1 b member with rfl | behind
  · exact starts
  · have := behind x y x_is y_is
    exact startsAfter_iff.mpr ⟨y, y_is, by omega⟩

theorem drop_of_getElem? {index : Nat} (there : siblings[index]? = some d) :
    siblings.drop index = d :: siblings.drop (index + 1) := by
  rw [List.drop_eq_getElem?_toList_append, there]
  rfl

theorem Row.splitAt {index : Nat} (row : site.Row siblings) (there : siblings[index]? = some d) :
    site.Row (siblings.take index ++ d :: siblings.drop (index + 1)) := by
  rwa [← drop_of_getElem? there, List.take_append_drop]

/-- A search has three outcomes: a node that holds the comment, a node that overlaps it, or a place in the row
    with all nodes that end before the comment on one side and all that start behind it on the other. -/
inductive Searched (site : Site) (comment : Span) (siblings : List NodeId) : Outcome Found → Prop where
  | inside {child : NodeId} (member : child ∈ siblings) (holds : site.surrounds comment child) :
    Searched site comment siblings (.ok (.inside child))
  | clash {child : NodeId} {detail : String} (member : child ∈ siblings) (clashes : site.clashes comment child) :
    Searched site comment siblings (.error (.location (site.tree.className child) detail))
  | beside {earlier later : List NodeId} (row : siblings = earlier ++ later)
    (before : ∀ a ∈ earlier, site.endsBefore comment a) (after : ∀ b ∈ later, site.startsAfter comment b) :
    Searched site comment siblings (.ok (.beside earlier.getLast? later.head?))

/-- Halving keeps the nodes left of the part to search before the comment, and those right of it behind the
    comment. -/
theorem search_searched {left right : Nat} {preceding following : Option NodeId} (row : site.Row siblings)
    (ordered : left ≤ right) (upTo : right ≤ siblings.length)
    (before : ∀ a ∈ siblings.take left, site.endsBefore comment a) (last : preceding = (siblings.take left).getLast?)
    (after : ∀ b ∈ siblings.drop right, site.startsAfter comment b) (first : following = (siblings.drop right).head?) :
    site.Searched comment siblings (site.search siblings comment left right preceding following) := by
  fun_induction search site siblings comment left right preceding following with
  | case1 left right _ _ less middle out =>
    have outside := List.getElem?_eq_none_iff.mp out
    omega
  | case2 _ _ _ _ _ _ child there no_span =>
    obtain ⟨span, extent, -⟩ := row.spans (List.mem_of_getElem? there)
    rw [no_span] at extent
    cases extent
  | case3 _ _ _ _ _ _ child there span extent contains =>
    exact .inside (List.mem_of_getElem? there) (surrounds_iff.mpr ⟨span, extent, contains⟩)
  | case4 left right _ _ less middle child there span extent _ ends ih =>
    have ends := endsBefore_iff.mpr ⟨span, extent, ends⟩
    have taken : siblings.take (middle + 1) = siblings.take middle ++ [child] := by rw [List.take_add_one, there]; rfl
    refine ih (by omega) upTo ?_ (by simp [taken]) after first
    rw [taken]
    intro a member
    rcases List.mem_append.mp member with early | here
    · exact (row.splitAt there).before ends a early
    · rwa [List.mem_singleton.mp here]
  | case5 left right _ _ less middle child there span extent _ _ starts ih =>
    have starts := startsAfter_iff.mpr ⟨span, extent, starts⟩
    have dropped := drop_of_getElem? there
    refine ih (by omega) (by omega) before last ?_ (by rw [dropped]; rfl)
    rw [dropped]
    intro b member
    rcases List.mem_cons.mp member with rfl | further
    · exact starts
    · exact (row.splitAt there).after starts b further
  | case6 _ _ _ _ _ _ child there span extent outside not_before not_after =>
    refine .clash (List.mem_of_getElem? there) ?_
    simp [clashes, surrounds, endsBefore, startsAfter, extent, outside, not_before, not_after]
  | case7 left right preceding following done =>
    obtain rfl : left = right := by omega
    rw [last, first]
    exact .beside (List.take_append_drop left siblings).symm before after

theorem beside_iff {span : Span} (extent : site.extents.get? d = some span) :
    site.endsBefore comment d ∨ site.startsAfter comment d ↔ span.stop ≤ comment.start ∨ comment.stop ≤ span.start := by
  simp [endsBefore, startsAfter, extent]

theorem not_surrounds_of_beside (nonempty : comment.start < comment.stop)
    (beside : site.endsBefore comment d ∨ site.startsAfter comment d) : ¬ site.surrounds comment d := by
  intro holds
  obtain ⟨span, extent, around⟩ := surrounds_iff.mp holds
  rw [Span.contains_iff] at around
  rw [beside_iff extent] at beside
  omega

theorem not_clashes_of_beside (beside : site.endsBefore comment d ∨ site.startsAfter comment d) :
    ¬ site.clashes comment d := by
  rcases beside with ends | starts
  · simp [clashes, ends]
  · simp [clashes, starts]

/-- Next to a node that holds the comment, every other one lies beside the comment. -/
theorem Parted.beside_of_surrounds (parted : site.Parted siblings) (row : site.Row siblings) (member : child ∈ siblings)
    (holds : site.surrounds comment child) (other : d ∈ siblings) (different : d ≠ child) :
    site.endsBefore comment d ∨ site.startsAfter comment d := by
  obtain ⟨x, x_is, around⟩ := surrounds_iff.mp holds
  rw [Span.contains_iff] at around
  obtain ⟨y, y_is, -⟩ := row.spans other
  have apart := parted.apart other member different y_is x_is
  rw [beside_iff y_is]
  omega

/-! ### All levels -/

/-- The comment lies in a node to search at the level of another one. -/
def Opens (site : Site) (comment : Span) (p d : NodeId) : Prop := d ∈ site.carriers p ∧ site.surrounds comment d

def Level (site : Site) (id : NodeId) : Prop :=
  Relation.ReflTransGen (fun p d => d ∈ site.carriers p) site.tree.root id

def Divided (site : Site) : Prop := ∀ id, site.Level id → site.Parted (site.carriers id)

/-- The node is reached from the root as long as nodes hold the comment, and no further one holds it. -/
structure Innermost (site : Site) (comment : Span) (id : NodeId) : Prop where
  reached : Relation.ReflTransGen (site.Opens comment) site.tree.root id
  last : ∀ d ∈ site.carriers id, ¬ site.surrounds comment d

/-- The neighbours of a comment among the nodes of a level, looked at one by one. -/
def beside (site : Site) (comment : Span) (id : NodeId) : Neighbours where
  enclosing := if id = site.tree.root then none else some id
  preceding := ((site.carriers id).filter (site.endsBefore comment)).getLast?
  following := ((site.carriers id).filter (site.startsAfter comment)).head?

theorem level_of_reached (reached : Relation.ReflTransGen (site.Opens comment) site.tree.root id) : site.Level id :=
  Relation.ReflTransGen.mono (fun _ _ opens => And.left opens) _ _ reached

section
variable (divided : site.Divided) (nonempty : comment.start < comment.stop)
include divided nonempty

theorem opens_unique (level : site.Level id)
    (one : site.Opens comment id child) (other : site.Opens comment id d) : d = child := by
  by_contra different
  have parted := divided id level
  have beside := parted.beside_of_surrounds (row_carriers parted) one.1 one.2 other.1 different
  exact not_surrounds_of_beside nonempty beside other.2

/-- The way down to the innermost node passes every node that is reached. -/
theorem Innermost.below {k : NodeId}
    (innermost : site.Innermost comment k) (reached : Relation.ReflTransGen (site.Opens comment) site.tree.root id) :
    Relation.ReflTransGen (site.Opens comment) id k := by
  induction reached with
  | refl => exact innermost.reached
  | @tail p d above opens ih =>
    -- The way from the node before goes on, and there is one node to go to.
    rcases Relation.ReflTransGen.cases_head ih with rfl | ⟨next, step, rest⟩
    · exact absurd opens.2 (innermost.last d opens.1)
    · rwa [← opens_unique divided nonempty (level_of_reached above) opens step]

theorem Innermost.unique {k : NodeId}
    (innermost : site.Innermost comment id) (also : site.Innermost comment k) : k = id := by
  rcases Relation.ReflTransGen.cases_head (also.below divided nonempty innermost.reached) with same | ⟨next, step, -⟩
  · exact same.symm
  · exact absurd step.2 (innermost.last next step.1)

end

/-- The neighbours that halving finds are those found one by one. -/
theorem beside_eq {enclosing : Option NodeId} (nonempty : comment.start < comment.stop)
    (row : site.Row (site.carriers id)) (parts : site.carriers id = earlier ++ later)
    (around : enclosing = if id = site.tree.root then none else some id)
    (before : ∀ a ∈ earlier, site.endsBefore comment a) (after : ∀ b ∈ later, site.startsAfter comment b) :
    (⟨enclosing, earlier.getLast?, later.head?⟩ : Neighbours) = site.beside comment id := by
  have not_after : ∀ a ∈ earlier, ¬ site.startsAfter comment a := fun a member starts =>
    row.not_both nonempty (by rw [parts]; exact List.mem_append_left _ member) ⟨before a member, starts⟩
  have not_before : ∀ b ∈ later, ¬ site.endsBefore comment b := fun b member ends =>
    row.not_both nonempty (by rw [parts]; exact List.mem_append_right _ member) ⟨ends, after b member⟩
  rw [beside, ← around, parts, List.filter_append, List.filter_append, List.filter_eq_self.mpr before,
    List.filter_eq_self.mpr after, List.filter_eq_nil_iff.mpr not_before, List.filter_eq_nil_iff.mpr not_after,
    List.append_nil, List.nil_append]

def Settled (site : Site) (comment : Span) (answer : Outcome (Neighbours × ChildMemo)) : Prop :=
  ∃ k, site.Innermost comment k ∧
    ((∃ d ∈ site.carriers k, site.clashes comment d ∧
        ∃ detail, answer = .error (.location (site.tree.className d) detail)) ∨
      (∀ d ∈ site.carriers k, ¬ site.clashes comment d) ∧ ∃ later, site.Kept later ∧ answer = .ok (site.beside comment k, later))

theorem not_root_of_mem_carriers (acyclic : site.tree.Acyclic) (level : site.Level id) (member : d ∈ site.carriers id) :
    d ≠ site.tree.root := by
  have down : ∀ p d, d ∈ site.carriers p → Relation.TransGen site.tree.Child p d :=
    fun p d member => (mem_gather member).2.reaches
  rintro rfl
  have round : Relation.TransGen (fun p d => d ∈ site.carriers p) site.tree.root site.tree.root :=
    Relation.TransGen.tail' level member
  exact acyclic _ (Relation.TransGen.closed down _ _ round)

theorem descend_settled (acyclic : site.tree.Acyclic) (divided : site.Divided) (nonempty : comment.start < comment.stop)
    {enclosing : Option NodeId} {answer : Outcome (Neighbours × ChildMemo)}
    (ends : site.descend comment id enclosing memo = some answer) (kept : site.Kept memo)
    (reached : Relation.ReflTransGen (site.Opens comment) site.tree.root id)
    (around : enclosing = if id = site.tree.root then none else some id) : site.Settled comment answer := by
  refine descend.partial_correctness site comment
    (fun id enclosing memo answer => site.Kept memo → Relation.ReflTransGen (site.Opens comment) site.tree.root id →
      (enclosing = if id = site.tree.root then none else some id) → site.Settled comment answer)
    ?_ _ _ _ _ ends kept reached around
  intro further ih id enclosing memo answer found kept reached around
  have level := level_of_reached reached
  have parted := divided id level
  have row := row_carriers parted
  obtain ⟨later, still, searched⟩ := level_eq acyclic kept comment id
  rw [searched] at found
  have outcome : site.Searched comment (site.carriers id)
      (site.search (site.carriers id) comment 0 (site.carriers id).length none none) :=
    search_searched row (Nat.zero_le _) (Nat.le_refl _) (by simp) (by simp) (by simp) (by simp)
  generalize site.search (site.carriers id) comment 0 (site.carriers id).length none none = result at found outcome
  cases outcome with
  | @inside child member holds =>
    refine ih child _ _ _ found still (.tail reached ⟨member, holds⟩) ?_
    rw [if_neg (not_root_of_mem_carriers acyclic level member)]
  | @clash child detail member clash =>
    cases found
    refine ⟨id, ⟨reached, ?_⟩, .inl ⟨child, member, clash, detail, rfl⟩⟩
    intro d other holds
    by_cases same : child = d
    · subst same
      simp [clashes, holds] at clash
    · exact not_clashes_of_beside (parted.beside_of_surrounds row other holds member same) clash
  | @beside earlier behind parts before after =>
    cases found
    have aside : ∀ d ∈ site.carriers id, site.endsBefore comment d ∨ site.startsAfter comment d := by
      intro d member
      rw [parts] at member
      exact (List.mem_append.mp member).imp (before d) (after d)
    refine ⟨id, ⟨reached, fun d member => not_surrounds_of_beside nonempty (aside d member)⟩,
      .inr ⟨fun d member => not_clashes_of_beside (aside d member), later, still, ?_⟩⟩
    rw [beside_eq nonempty row parts around before after]

/-- From the root the search goes down as long as a node of the level holds the comment, to one innermost
    node. It fails if and only if a node of that level overlaps the comment; otherwise it finds the node gone
    into last, the last node of the level that ends before the comment and the first one that starts behind it. -/
theorem descend_eq_beside (acyclic : site.tree.Acyclic) (divided : site.Divided) (nonempty : comment.start < comment.stop)
    (kept : site.Kept memo) :
    ∃ id, site.Innermost comment id ∧ (∀ k, site.Innermost comment k → k = id) ∧
      ((∃ name detail, site.descend comment site.tree.root none memo = some (.error (.location name detail))) ↔
        ∃ d ∈ site.carriers id, site.clashes comment d) ∧
      ((∀ d ∈ site.carriers id, ¬ site.clashes comment d) →
        ∃ later, site.Kept later ∧
          site.descend comment site.tree.root none memo = some (.ok (site.beside comment id, later))) := by
  have ended : site.descend comment site.tree.root none memo ≠ none := descend_ne_none acyclic kept.sound
  obtain ⟨answer, ends⟩ := Option.ne_none_iff_exists'.mp ended
  obtain ⟨id, innermost, outcome⟩ := descend_settled acyclic divided nonempty ends kept .refl (by simp)
  refine ⟨id, innermost, fun k also => innermost.unique divided nonempty also, ?_⟩
  rcases outcome with ⟨d, member, clash, detail, rfl⟩ | ⟨free, later, still, rfl⟩
  · exact ⟨⟨fun _ => ⟨d, member, clash⟩, fun _ => ⟨_, _, ends⟩⟩, fun free => absurd clash (free d member)⟩
  · refine ⟨⟨?_, ?_⟩, fun _ => ⟨later, still, ends⟩⟩
    · rintro ⟨_, _, failed⟩
      rw [ends] at failed
      cases failed
    · rintro ⟨d, member, clash⟩
      exact absurd clash (free d member)

def parts : Site where
  tree := ⟨#[{ fields := [("body", .node 1)] },
    .of .variableExpr [("right", .node 3), ("left", .node 2)],
    { fields := [("value", .node 4)] }, .of .variableExpr,
    .of .variableExpr]⟩
  extents := ⟨#[none, some ⟨0, 20⟩, none, some ⟨12, 13⟩, some ⟨2, 3⟩]⟩
  source := ""

theorem divided_parts : parts.Divided := by
  have root : parts.carriers 0 = [1] := by cbv
  have whole : parts.carriers 1 = [4, 3] := by cbv
  have right : parts.carriers 3 = [] := by cbv
  have left : parts.carriers 4 = [] := by cbv
  have levels : ∀ id, parts.Level id → id = 0 ∨ id = 1 ∨ id = 3 ∨ id = 4 := by
    intro id level
    induction level with
    | refl => exact .inl rfl
    | tail above member ih =>
      rcases ih with rfl | rfl | rfl | rfl
      · simp_all
      · rw [whole] at member
        simp only [List.mem_cons, List.not_mem_nil, or_false] at member
        tauto
      · simp_all
      · simp_all
  have leaf : parts.Parted [] := ⟨by simp, by simp⟩
  intro id level
  rcases levels id level with rfl | rfl | rfl | rfl
  · rw [root]
    refine ⟨fun member extent => ?_, fun here there different => ?_⟩
    · obtain rfl := List.mem_singleton.mp member
      cases extent
      decide
    · exact absurd ((List.mem_singleton.mp here).trans (List.mem_singleton.mp there).symm) different
  · rw [whole]
    have either {d : NodeId} (member : d ∈ [4, 3]) : d = 4 ∨ d = 3 := by simpa using member
    refine ⟨fun member extent => ?_, fun here there different extent extent' => ?_⟩
    · rcases either member with rfl | rfl <;> cases extent <;> decide
    · rcases either here with rfl | rfl <;> rcases either there with rfl | rfl
      · exact absurd rfl different
      · cases extent
        cases extent'
        decide
      · cases extent
        cases extent'
        decide
      · exact absurd rfl different
  · rwa [right]
  · rwa [left]

/-- Between the parts, a comment finds both of them, and the expression around it. A comment across the edge of
    a part is refused. -/
theorem descend_eq_beside_parts :
    (∃ later, parts.descend ⟨5, 10⟩ 0 none [] = some (.ok (⟨some 1, some 4, some 3⟩, later))) ∧
    ∃ name detail, parts.descend ⟨2, 6⟩ 0 none [] = some (.error (.location name detail)) := by
  have acyclic : parts.tree.Acyclic := Extents.acyclic_of_lt (by decide +kernel)
  have root : parts.carriers 0 = [1] := by cbv
  have whole : parts.carriers 1 = [4, 3] := by cbv
  have inner {comment : Span} (inside : parts.surrounds comment 1) (left : ¬ parts.surrounds comment 4)
      (right : ¬ parts.surrounds comment 3) : parts.Innermost comment 1 := by
    refine ⟨.single ⟨?_, inside⟩, ?_⟩
    · exact root ▸ List.mem_singleton.mpr rfl
    · intro d member
      rw [whole] at member
      rcases List.mem_cons.mp member with rfl | member
      · exact left
      · rwa [List.mem_singleton.mp member]
  constructor
  · obtain ⟨id, -, only, -, found⟩ :=
      @descend_eq_beside parts ⟨5, 10⟩ [] acyclic divided_parts (by decide) (kept_nil parts)
    obtain rfl := only 1 (inner (by decide) (by decide) (by decide))
    obtain ⟨later, -, answer⟩ := found (by rw [whole]; decide)
    refine ⟨later, answer.trans ?_⟩
    have near : parts.beside ⟨5, 10⟩ 1 = ⟨some 1, some 4, some 3⟩ := by rw [beside, whole]; rfl
    rw [near]
  · obtain ⟨id, -, only, failed, -⟩ :=
      @descend_eq_beside parts ⟨2, 6⟩ [] acyclic divided_parts (by decide) (kept_nil parts)
    obtain rfl := only 1 (inner (by decide) (by decide) (by decide))
    exact failed.mpr ⟨4, by rw [whole]; decide, by decide⟩

end ApexLayout.Site
