import ApexLayout.Comment.Binding
import ApexLayout.Proofs.Occurrence.Walk
import ApexLayout.Tree.Build

/-!
The search for the neighbours of a comment, level by level. A search that comes to a node for the second time has no end
(`descend_eq_none_of_round`). Every other one takes at most as many levels as there are nodes (`descend_endless_iff`).
-/
namespace ApexLayout.Site

variable {site : Site} {comment : Span} {id child k : NodeId} {memo later last : ChildMemo} {enclosing : Option NodeId}
  {way : List NodeId}

/-! ### Lists of children -/

def Extends (memo later : ChildMemo) : Prop :=
  ∀ k found, memo.lookup k = some found → later.lookup k = some found

theorem Extends.refl (memo : ChildMemo) : Extends memo memo := fun _ _ here => here

theorem Extends.trans (first : Extends memo later) (second : Extends later last) : Extends memo last :=
  fun k found here => second k found (first k found here)

/-- What a node right below adds to a list: nothing if it is on the way down, itself if it can carry comments, and
    otherwise a list that is right for it. -/
inductive Part (site : Site) (Right : NodeId → List NodeId → Prop) (way : List NodeId) : NodeId → List NodeId → Prop where
  | passed {d : NodeId} (on_way : d ∈ way) : Part site Right way d []
  | carrier {d : NodeId} (off : d ∉ way) (can : site.canCarry d) : Part site Right way d [d]
  | below {d : NodeId} {found : List NodeId} (off : d ∉ way) (plain : ¬ site.canCarry d) (right : Right d found) :
      Part site Right way d found

/-- Lists are right for the nodes that a search comes to if they are made of right lists below, and sorted. -/
structure Composes (site : Site) (Comes : Nat → List NodeId → NodeId → Prop)
    (Right : NodeId → List NodeId → Prop) : Prop where
  nothing {path : List NodeId} {id : NodeId} : Comes 0 path id → Right id []
  inner {bound : Nat} {path : List NodeId} {id d : NodeId} : Comes (bound + 1) path id → site.tree.Child id d →
    ¬ site.canCarry d → Comes bound (id :: path) d
  sorted {bound : Nat} {path : List NodeId} {id : NodeId} {parts : List (NodeId × List NodeId)} : Comes (bound + 1) path id →
    parts.map (·.1) = (site.tree.children id).map (·.2) → (∀ part ∈ parts, site.Part Right (id :: path) part.1 part.2) →
    Right id ((parts.flatMap (·.2)).mergeSort site.startsBefore)

section
variable {Comes : Nat → List NodeId → NodeId → Prop} {Right : NodeId → List NodeId → Prop}

def AllRight (Right : NodeId → List NodeId → Prop) (memo : ChildMemo) : Prop :=
  ∀ k found, memo.lookup k = some found → Right k found

theorem allRight_nil (Right : NodeId → List NodeId → Prop) : AllRight Right [] := by
  intro k found here
  cases here

/-- A list has grown by a part. The lists that were kept still are, and all that are kept are right. -/
structure Takes (Right : NodeId → List NodeId → Prop) (acc : List NodeId × ChildMemo) (part : List NodeId)
    (more : List NodeId × ChildMemo) : Prop where
  found : more.1 = acc.1 ++ part
  kept : Extends acc.2 more.2
  right : AllRight Right more.2

theorem exists_parts {P : NodeId → List NodeId → Prop} {collect : List NodeId × ChildMemo → NodeId → List NodeId × ChildMemo}
    (nodes : List NodeId)
    (step : ∀ acc, ∀ d ∈ nodes, AllRight Right acc.2 → ∃ part, P d part ∧ Takes Right acc part (collect acc d))
    {acc : List NodeId × ChildMemo} (right : AllRight Right acc.2) :
    ∃ parts : List (NodeId × List NodeId), parts.map (·.1) = nodes ∧ (∀ part ∈ parts, P part.1 part.2) ∧
      Takes Right acc (parts.flatMap (·.2)) (nodes.foldl collect acc) := by
  induction nodes generalizing acc with
  | nil => exact ⟨[], rfl, by simp, by simp, .refl _, right⟩
  | cons d nodes ih =>
    obtain ⟨part, is_part, taken⟩ := step acc d List.mem_cons_self right
    obtain ⟨parts, rfl, are_parts, rest⟩ :=
      ih (fun acc other member => step acc other (List.mem_cons_of_mem _ member)) taken.right
    refine ⟨(d, part) :: parts, rfl, List.forall_mem_cons.mpr ⟨is_part, are_parts⟩, ?_, taken.kept.trans rest.kept, rest.right⟩
    rw [List.foldl_cons, rest.found, taken.found, List.flatMap_cons, List.append_assoc]

theorem child_of_mem (member : child ∈ (site.tree.children id).map (·.2)) : site.tree.Child id child := by
  obtain ⟨⟨edge, _⟩, listed, rfl⟩ := List.mem_map.mp member
  exact ⟨edge, listed⟩

/-- If right lists are made of right lists, then what is found is right, and so is every list that is kept. -/
theorem children_right (composes : site.Composes Comes Right) {bound : Nat} {path : List NodeId}
    (comes : Comes bound path id)
    (right : AllRight Right memo) :
    Right id (site.children bound path id memo).1 ∧ Extends memo (site.children bound path id memo).2 ∧
      AllRight Right (site.children bound path id memo).2 := by
  induction bound generalizing path id memo with
  | zero => exact ⟨composes.nothing comes, .refl memo, right⟩
  | succ bound ih =>
    rw [children]
    split
    · next found there => exact ⟨right id found there, .refl memo, right⟩
    · next absent =>
      extract_lets collect
      have step (acc : List NodeId × ChildMemo) (d : NodeId) (member : d ∈ (site.tree.children id).map (·.2))
          (right : AllRight Right acc.2) :
          ∃ part, site.Part Right (id :: path) d part ∧ Takes Right acc part (collect acc d) := by
        unfold collect
        by_cases on_way : (id :: path).contains d
        · rw [if_pos on_way]
          exact ⟨[], .passed (by simpa using on_way), by simp, .refl _, right⟩
        · rw [if_neg on_way]
          by_cases can : site.canCarry d
          · rw [if_pos can]
            exact ⟨[d], .carrier (by simpa using on_way) can, rfl, .refl _, right⟩
          · rw [if_neg can]
            obtain ⟨inner, kept, still⟩ := ih (composes.inner comes (child_of_mem member) can) right
            exact ⟨_, .below (by simpa using on_way) can inner, rfl, kept, still⟩
      have none_yet : AllRight Right (([], memo) : List NodeId × ChildMemo).2 := right
      obtain ⟨parts, nodes, are_parts, taken⟩ := exists_parts _ step none_yet
      generalize ((site.tree.children id).map (·.2)).foldl collect ([], memo) = all at taken
      have sorted : Right id (all.1.mergeSort site.startsBefore) := by
        rw [taken.found]
        exact composes.sorted comes nodes are_parts
      refine ⟨sorted, ?_, ?_⟩
      · intro k found there
        have other : (k == id) = false := by
          rw [beq_eq_false_iff_ne]
          rintro rfl
          rw [absent] at there
          cases there
        rw [List.lookup_cons, other]
        exact taken.kept k found there
      · intro k found there
        rw [List.lookup_cons] at there
        split at there
        · next same =>
          obtain rfl := Option.some.inj there
          rwa [beq_iff_eq.mp same]
        · exact taken.right k found there

end

/-- The second node occurs right below the first, or below nodes between them that cannot carry comments. -/
inductive Under (site : Site) : NodeId → NodeId → Prop where
  | child {p d : NodeId} (below : site.tree.Child p d) : Under site p d
  | through {p between d : NodeId} (below : site.tree.Child p between) (plain : ¬ site.canCarry between)
      (rest : Under site between d) : Under site p d

def Sound (site : Site) (memo : ChildMemo) : Prop :=
  ∀ k found, memo.lookup k = some found → ∀ d ∈ found, site.canCarry d ∧ site.Under k d

theorem sound_nil (site : Site) : site.Sound [] := allRight_nil _

theorem composes_under (site : Site) :
    site.Composes (fun _ _ _ => True) fun id found => ∀ d ∈ found, site.canCarry d ∧ site.Under id d where
  nothing := by simp
  inner := by simp
  sorted {bound path id parts} _ nodes are_parts d member := by
    obtain ⟨⟨node, part⟩, listed, there⟩ := List.mem_flatMap.mp (List.mem_mergeSort.mp member)
    have below : site.tree.Child id node := child_of_mem (nodes ▸ List.mem_map_of_mem listed)
    have is_part : site.Part _ _ node part := are_parts _ listed
    cases is_part with
    | passed => cases there
    | carrier _ can =>
      obtain rfl := List.mem_singleton.mp there
      exact ⟨can, .child below⟩
    | below _ plain right =>
      obtain ⟨can, under⟩ := right d there
      exact ⟨can, .through below plain under⟩

theorem lookup_children (bound : Nat) (path : List NodeId) (id : NodeId) (memo : ChildMemo) :
    (site.children (bound + 1) path id memo).2.lookup id = some (site.children (bound + 1) path id memo).1 := by
  rw [children]
  split
  · next found there => exact there
  · exact List.lookup_cons_self

theorem children_of_lookup {found : List NodeId} (there : memo.lookup id = some found) (bound : Nat) (path : List NodeId) :
    site.children (bound + 1) path id memo = (found, memo) := by
  rw [children, there]

/-! ### Levels -/

/-- What holds of a search that ends with neighbours is shown level by level, from the last one up. -/
theorem descend_induction {motive : NodeId → Option NodeId → ChildMemo → Neighbours × ChildMemo → Prop}
    (beside : ∀ {id enclosing memo later before after},
      site.level comment id memo = (.ok (.beside before after), later) →
        motive id enclosing memo (⟨enclosing, before, after⟩, later))
    (inside : ∀ {id enclosing memo later child answer},
      site.level comment id memo = (.ok (.inside child), later) → motive child (some child) later answer →
        motive id enclosing memo answer)
    {answer : Neighbours × ChildMemo} (ends : site.descend comment id enclosing memo = some (.ok answer)) :
    motive id enclosing memo answer := by
  refine descend.partial_correctness site comment
    (fun id enclosing memo r => ∀ answer, r = .ok answer → motive id enclosing memo answer) ?_ _ _ _ _ ends answer rfl
  intro further ih id enclosing memo r found answer same
  subst same
  split at found
  · cases found
  · next here => exact inside here (ih _ _ _ _ found answer rfl)
  · next here =>
    cases found
    exact beside here

theorem siblings_of_level {found : Outcome Found} (here : site.level comment id memo = (found, later)) :
    ∃ siblings, site.children (site.tree.size + 1) [] id memo = (siblings, later) ∧
      site.search siblings comment 0 siblings.length none none = found := by
  obtain ⟨rfl, rfl⟩ := Prod.mk.inj here
  exact ⟨_, rfl, rfl⟩

theorem level_again {found : Outcome Found} (here : site.level comment id memo = (found, later))
    (further : Extends later last) : site.level comment id last = (found, last) := by
  obtain ⟨siblings, listed, searched⟩ := siblings_of_level here
  have kept : later.lookup id = some siblings := by
    have kept := @lookup_children site site.tree.size [] id memo
    rwa [listed] at kept
  rw [level, children_of_lookup (further id siblings kept), ← searched]

def Within (site : Site) (comment : Span) (p d : NodeId) : Prop :=
  site.Under p d ∧ site.canCarry d ∧ ∃ span, site.extents.get? d = some span ∧ span.contains comment

theorem search_inside {siblings : List NodeId} {left right : Nat} {preceding following : Option NodeId}
    (found : site.search siblings comment left right preceding following = .ok (.inside child)) :
    child ∈ siblings ∧ ∃ span, site.extents.get? child = some span ∧ span.contains comment := by
  fun_induction search site siblings comment left right preceding following with
  | case1 | case2 | case6 | case7 => cases found
  | case3 _ _ _ _ _ _ other there span extent contains =>
    cases found
    exact ⟨List.mem_of_getElem? there, span, extent, contains⟩
  | case4 _ _ _ _ _ _ _ _ _ _ _ _ ih => exact ih found
  | case5 _ _ _ _ _ _ _ _ _ _ _ _ _ ih => exact ih found

theorem within_of_level (here : site.level comment id memo = (.ok (.inside child), later)) (sound : site.Sound memo) :
    site.Within comment id child ∧ Extends memo later ∧ site.Sound later := by
  obtain ⟨siblings, listed, searched⟩ := siblings_of_level here
  obtain ⟨gathered, still, sound⟩ := children_right site.composes_under trivial sound
  rw [listed] at gathered still sound
  obtain ⟨member, holds⟩ := search_inside searched
  obtain ⟨can, under⟩ := gathered child member
  exact ⟨⟨under, can, holds⟩, still, sound⟩

/-! ### Ways -/

/-- The search for a comment leads from one node down to another, through the nodes of a way. -/
inductive Leads (site : Site) (comment : Span) : NodeId → ChildMemo → List NodeId → NodeId → ChildMemo → Prop where
  | here {id : NodeId} {memo : ChildMemo} : Leads site comment id memo [] id memo
  | on {id child k : NodeId} {memo later last : ChildMemo} {way : List NodeId}
      (level : site.level comment id memo = (.ok (.inside child), later))
      (rest : Leads site comment child later way k last) : Leads site comment id memo (id :: way) k last

section
variable (leads : site.Leads comment id memo way k last)
include leads

theorem Leads.sound (sound : site.Sound memo) :
    Extends memo last ∧ site.Sound last := by
  induction leads with
  | here => exact ⟨.refl _, sound⟩
  | on level _ ih =>
    obtain ⟨-, still, sound⟩ := within_of_level level sound
    obtain ⟨further, sound⟩ := ih sound
    exact ⟨still.trans further, sound⟩

theorem Leads.inside (sound : site.Sound memo) :
    ∀ a ∈ way, a < site.tree.size := by
  induction leads with
  | here => simp
  | on level _ ih =>
    obtain ⟨⟨under, -⟩, -, still⟩ := within_of_level level sound
    intro a member
    rcases List.mem_cons.mp member with rfl | further
    · cases under with
      | child below => exact Extents.child_size below
      | through below => exact Extents.child_size below
    · exact ih still a further

theorem Leads.within (sound : site.Sound memo) :
    Relation.ReflTransGen (site.Within comment) id k := by
  induction leads with
  | here => exact .refl
  | on level _ ih =>
    obtain ⟨within, -, still⟩ := within_of_level level sound
    exact .head within (ih still)

theorem Leads.descend (enclosing : Option NodeId) :
    ∃ around, site.descend comment id enclosing memo = site.descend comment k around last := by
  induction leads generalizing enclosing with
  | here => exact ⟨enclosing, rfl⟩
  | @on id child k memo later last way level _ ih =>
    obtain ⟨around, same⟩ := ih (some child)
    refine ⟨around, ?_⟩
    rw [Site.descend, level]
    exact same

theorem Leads.upTo {a : NodeId} (member : a ∈ way) :
    ∃ before between, site.Leads comment id memo before a between := by
  induction leads with
  | here => cases member
  | on level _ ih =>
    rcases List.mem_cons.mp member with rfl | further
    · exact ⟨[], _, .here⟩
    · obtain ⟨before, between, leads⟩ := ih further
      exact ⟨_, between, .on level leads⟩

/-- At the end of a way, each of its nodes still leads on as before, along the way or to its end. -/
theorem Leads.again (sound : site.Sound memo) :
    ∀ a ∈ way, ∃ b, (b ∈ way ∨ b = k) ∧ site.level comment a last = (.ok (.inside b), last) := by
  induction leads with
  | here => simp
  | @on id child k memo later last way level rest ih =>
    obtain ⟨-, -, still⟩ := within_of_level level sound
    intro a member
    rcases List.mem_cons.mp member with rfl | further
    · refine ⟨child, ?_, level_again level (rest.sound still).1⟩
      cases rest with
      | here => exact .inr rfl
      | on => exact .inl (by simp)
    · obtain ⟨b, onward, again⟩ := ih still a further
      exact ⟨b, onward.imp_left (List.mem_cons_of_mem _), again⟩

end

/-! ### Searches without end -/

/-- Nodes that lead to each other, with lists that are all there, are never left. -/
theorem descend_eq_none_of_trap {nodes : List NodeId}
    (trap : ∀ a ∈ nodes, ∃ b ∈ nodes, site.level comment a last = (.ok (.inside b), last)) (member : id ∈ nodes)
    (enclosing : Option NodeId) : site.descend comment id enclosing last = none := by
  rw [Option.eq_none_iff_forall_ne_some]
  intro answer ends
  refine descend.partial_correctness site comment (fun id _ memo _ => memo = last → id ∉ nodes) ?_ _ _ _ _ ends rfl member
  rintro further ih id enclosing _ answer found rfl member
  obtain ⟨b, onward, level⟩ := trap id member
  rw [level] at found
  exact ih b (some b) _ answer found rfl onward

/-- A search that comes back to a node does not end. -/
theorem descend_eq_none_of_round {round : List NodeId} (leads : site.Leads comment id memo round id last)
    (moves : round ≠ []) (sound : site.Sound memo) (enclosing : Option NodeId) :
    site.descend comment id enclosing memo = none := by
  have start : id ∈ round := by
    cases leads with
    | here => exact absurd rfl moves
    | on => exact List.mem_cons_self
  have trap : ∀ a ∈ round, ∃ b ∈ round, site.level comment a last = (.ok (.inside b), last) := by
    intro a member
    obtain ⟨b, onward | rfl, level⟩ := leads.again sound a member
    · exact ⟨b, onward, level⟩
    · exact ⟨b, start, level⟩
  obtain ⟨around, same⟩ := leads.descend enclosing
  rw [same]
  exact descend_eq_none_of_trap trap start around

def ComesBack (site : Site) (comment : Span) (id : NodeId) (memo : ChildMemo) : Prop :=
  ∃ before k between round last,
    site.Leads comment id memo before k between ∧ site.Leads comment k between round k last ∧ round ≠ []

theorem Leads.nodup_or_comesBack (leads : site.Leads comment id memo way k last) :
    way.Nodup ∨ site.ComesBack comment id memo := by
  induction leads with
  | here => exact .inl List.nodup_nil
  | @on id child k memo later last way level rest ih =>
    rcases ih with distinct | ⟨before, a, between, round, last, leads, back, moves⟩
    · by_cases again : id ∈ way
      · obtain ⟨before, between, leads⟩ := rest.upTo again
        exact .inr ⟨[], id, memo, _, between, .here, .on level leads, List.cons_ne_nil _ _⟩
      · exact .inl (List.nodup_cons.mpr ⟨again, distinct⟩)
    · exact .inr ⟨_, a, between, round, last, .on level leads, back, moves⟩

/-- A search without end leads on for any number of levels. -/
theorem exists_leads_of_descend (endless : site.descend comment id enclosing memo = none) (levels : Nat) :
    ∃ way k last, way.length = levels ∧ site.Leads comment id memo way k last := by
  induction levels generalizing id enclosing memo with
  | zero => exact ⟨[], id, memo, rfl, .here⟩
  | succ levels ih =>
    rw [Site.descend] at endless
    split at endless
    · cases endless
    · next child later level =>
      obtain ⟨way, k, last, length, leads⟩ := ih endless
      exact ⟨id :: way, k, last, by simp [length], .on level leads⟩
    · cases endless

theorem descend_eq_none_iff (sound : site.Sound memo) :
    site.descend comment id enclosing memo = none ↔ site.ComesBack comment id memo := by
  constructor
  · intro endless
    obtain ⟨way, k, last, length, leads⟩ := exists_leads_of_descend endless (site.tree.size + 1)
    rcases leads.nodup_or_comesBack with distinct | back
    · have short := Occurrences.length_le_of_inside distinct (leads.inside sound)
      omega
    · exact back
  · rintro ⟨before, k, between, round, last, leads, back, moves⟩
    obtain ⟨around, same⟩ := leads.descend enclosing
    rw [same]
    exact descend_eq_none_of_round back moves (leads.sound sound).2 around

/-- Coming back takes nodes around the comment that lie under each other. -/
theorem ComesBack.circle (back : site.ComesBack comment id memo) (sound : site.Sound memo) :
    ∃ k, Relation.TransGen (site.Within comment) k k := by
  obtain ⟨before, k, between, round, last, leads, back, moves⟩ := back
  have still := (leads.sound sound).2
  cases back with
  | here => exact absurd rfl moves
  | on level rest =>
    obtain ⟨within, -, further⟩ := within_of_level level still
    exact ⟨k, .head' within (rest.within further)⟩

theorem Under.reaches {p d : NodeId} (under : site.Under p d) : Relation.TransGen site.tree.Child p d := by
  induction under with
  | child below => exact .single below
  | through below _ _ ih => exact .head below ih

/-- In a tree without cycles every search ends. -/
theorem descend_ne_none (acyclic : site.tree.Acyclic) (sound : site.Sound memo) :
    site.descend comment k enclosing memo ≠ none := by
  intro endless
  obtain ⟨k, circle⟩ := ((descend_eq_none_iff sound).mp endless).circle sound
  exact acyclic k (Relation.TransGen.closed (fun _ _ within => within.1.reaches) k k circle)

/-! ### All comments -/

theorem search_ne_endless {siblings : List NodeId} {left right : Nat} {preceding following : Option NodeId} :
    site.search siblings comment left right preceding following ≠ .error .endless := by
  fun_induction search site siblings comment left right preceding following with
  | case1 | case2 | case3 | case6 | case7 => simp
  | case4 _ _ _ _ _ _ _ _ _ _ _ _ ih => exact ih
  | case5 _ _ _ _ _ _ _ _ _ _ _ _ _ ih => exact ih

theorem descend_ne_endless : site.descend comment id enclosing memo ≠ some (.error .endless) := by
  intro ends
  refine descend.partial_correctness site comment (fun _ _ _ answer => answer ≠ .error .endless) ?_ _ _ _ _ ends rfl
  rintro further ih id enclosing memo _ found rfl
  split at found
  · next level =>
    cases found
    obtain ⟨siblings, -, searched⟩ := siblings_of_level level
    exact search_ne_endless searched
  · exact ih _ _ _ _ found rfl
  · cases found

theorem descend_sound {answer : Neighbours × ChildMemo}
    (ends : site.descend comment id enclosing memo = some (.ok answer)) (sound : site.Sound memo) :
    site.Sound answer.2 := by
  refine descend_induction (motive := fun _ _ memo answer => site.Sound memo → site.Sound answer.2) ?_ ?_ ends sound
  · intro id enclosing memo later before after here sound
    obtain ⟨siblings, listed, -⟩ := siblings_of_level here
    obtain ⟨-, -, still⟩ := children_right site.composes_under trivial sound
    rw [listed] at still
    exact still
  · intro id enclosing memo later child answer here ih sound
    exact ih (within_of_level here sound).2.2

theorem neighbours_ne_endless (acyclic : site.tree.Acyclic) (comments : List Comment) (sound : site.Sound memo) :
    site.neighbours comments memo ≠ .error .endless := by
  induction comments generalizing memo with
  | nil => simp [neighbours]
  | cons c comments ih =>
    intro same
    rw [neighbours, bind_eq_error] at same
    rcases same with failed | ⟨answer, down, failed⟩
    · rcases down : site.descend c.span site.tree.root none memo with _ | answer
      · exact descend_ne_none acyclic sound down
      · rw [down, Option.getD_some] at failed
        rw [failed] at down
        exact descend_ne_endless down
    · rw [bind_eq_error] at failed
      rcases failed with others | ⟨_, -, absurd⟩
      · exact ih (descend_sound (getD_error_eq_ok.mp down) sound) others
      · cases absurd

/-- The search for the neighbours of a comment, from the root down, has no end if and only if it comes to
    a node for the second time. This takes nodes that hold the comment and lie under each other in a
    circle. A search that ends does so after at most as many levels as there are nodes, and in a tree
    without cycles the searches for all comments end. -/
theorem descend_endless_iff (site : Site) (comment : Span) {memo : ChildMemo} (sound : site.Sound memo) :
    (site.descend comment site.tree.root none memo = none ↔ site.ComesBack comment site.tree.root memo) ∧
    (site.descend comment site.tree.root none memo = none → ∃ k, Relation.TransGen (site.Within comment) k k) ∧
    (∀ answer way k last, site.descend comment site.tree.root none memo = some answer →
      site.Leads comment site.tree.root memo way k last → way.length ≤ site.tree.size) ∧
    (site.tree.Acyclic → ∀ comments, site.neighbours comments memo ≠ .error .endless) := by
  refine ⟨descend_eq_none_iff sound, fun endless => ((descend_eq_none_iff sound).mp endless).circle sound, ?_,
    fun acyclic comments => neighbours_ne_endless acyclic comments sound⟩
  intro answer way k last ends leads
  rcases leads.nodup_or_comesBack with distinct | back
  · exact Occurrences.length_le_of_inside distinct (leads.inside sound)
  · rw [(descend_eq_none_iff sound).mpr back] at ends
    cases ends

def circularJson : Json :=
  .object [("unit", .object [("@id", .string "1"), ("@class", .string "apex.jorje.data.ast.ClassDecl"),
    ("loc", .object [("startIndex", .number (.int 0)), ("endIndex", .number (.int 28))]),
    ("members", .array [.object [("@class", .string "apex.jorje.data.ast.ClassDecl"),
      ("loc", .object [("startIndex", .number (.int 10)), ("endIndex", .number (.int 26))]),
      ("members", .array [.object [("@reference", .string "1")]])]])])]

def circular : Site where
  tree := ⟨#[{ fields := [("unit", .node 1)] },
    .of .classDecl [("members", .array [.node 2])] (some ⟨0, 28⟩) (some ⟨0, 0, none⟩),
    .of .classDecl [("members", .array [.node 1])] (some ⟨10, 26⟩) (some ⟨1, 0, some 0⟩)]⟩
  extents := ⟨#[none, some ⟨0, 28⟩, some ⟨10, 26⟩]⟩
  source := "class A { class /*c*/ B {} }"

/-- The search for the comment in the inner class goes from there to the outer class again. -/
theorem descend_endless_iff_circular :
    Tree.ofJson circularJson = .ok circular.tree ∧
    Extents.ofTree circular.tree circular.source [⟨16, 21⟩] = .ok circular.extents ∧
    circular.Sound [] ∧ circular.descend ⟨16, 21⟩ 0 none [] = none ∧
    ∃ k, Relation.TransGen (circular.Within ⟨16, 21⟩) k k := by
  have sound := circular.sound_nil
  have holds := circular.descend_endless_iff ⟨16, 21⟩ sound
  have outer : circular.level ⟨16, 21⟩ 0 [] = (.ok (.inside 1), [(0, [1])]) := by with_unfolding_all rfl
  have inner : circular.level ⟨16, 21⟩ 1 [(0, [1])] = (.ok (.inside 2), [(1, [2]), (0, [1])]) := by
    with_unfolding_all rfl
  have back : circular.level ⟨16, 21⟩ 2 [(1, [2]), (0, [1])] = (.ok (.inside 1), [(2, [1]), (1, [2]), (0, [1])]) := by
    with_unfolding_all rfl
  have endless : circular.descend ⟨16, 21⟩ 0 none [] = none :=
    holds.1.mpr ⟨[0], 1, _, [1, 2], _, .on outer .here, .on inner (.on back .here), List.cons_ne_nil _ _⟩
  exact ⟨by rfl, by rfl, sound, endless, holds.2.1 endless⟩

end ApexLayout.Site
