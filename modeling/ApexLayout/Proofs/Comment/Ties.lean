import ApexLayout.Proofs.Comment.Inside

/-!
Ties and how they are broken. Those before one node wait until a comment is tied before another one, so they are
broken run by run: a tie goes before the node if there is nothing but blanks and the ties behind it between them
(`mem_held_bindAll`).
-/
namespace ApexLayout.Site

variable {site : Site} {shelf : Shelf} {before rest : List Comment} {ties : List Tie} {b : BoundComment} {first tie : Tie}

/-- The comments that are tied, in order. Those before them are given nearest first. -/
def tiesOf (site : Site) (before : List Comment) : List Comment → List Tie
  | [] => []
  | c :: rest =>
    match site.decision (site.placement before c rest) c with
    | .bind _ _ => site.tiesOf (c :: before) rest
    | .tie preceding following => ⟨c, preceding, following⟩ :: site.tiesOf (c :: before) rest

section
variable {c : Comment} {owner : Option NodeId} {anchor : Anchor} {preceding following : NodeId}

theorem tiesOf_of_bind (decided : site.decision (site.placement before c rest) c = .bind owner anchor) :
    site.tiesOf before (c :: rest) = site.tiesOf (c :: before) rest := by
  rw [tiesOf, decided]

theorem tiesOf_of_tie (decided : site.decision (site.placement before c rest) c = .tie preceding following) :
    site.tiesOf before (c :: rest) = ⟨c, preceding, following⟩ :: site.tiesOf (c :: before) rest := by
  rw [tiesOf, decided]

theorem bindAll_of_bind (decided : site.decision (site.placement before c rest) c = .bind owner anchor) :
    site.bindAll before ties shelf (c :: rest) = site.bindAll (c :: before) ties
      (shelf.add { c with placement := site.placement before c rest, owner, anchor }) rest := by
  rw [bindAll, decided]

theorem bindAll_of_tie (decided : site.decision (site.placement before c rest) c = .tie preceding following) :
    site.bindAll before ties shelf (c :: rest) = site.bindAll (c :: before)
      (site.joinTies ⟨c, preceding, following⟩ ties shelf).1 (site.joinTies ⟨c, preceding, following⟩ ties shelf).2 rest := by
  rw [bindAll, decided]

end

/-- Only blanks, and no line feed, stand between the one offset, the comments and the other offset. -/
def isBridged (site : Site) (stop start : Nat) : List Comment → Bool
  | [] => Text.isBlankBetween site.source start stop
  | c :: rest => Text.isBlankBetween site.source start c.span.start && site.isBridged stop c.span.stop rest

theorem isBridged_concat (stop start : Nat) (comments : List Comment) (c : Comment) :
    site.isBridged stop start (comments ++ [c]) =
      (site.isBridged c.span.start start comments && Text.isBlankBetween site.source c.span.stop stop) := by
  induction comments generalizing start with
  | nil => rfl
  | cons d comments ih => rw [List.cons_append, isBridged, ih, isBridged, Bool.and_assoc]

/-! ### Breaking ties -/

def startOf (site : Site) (id : NodeId) : Nat := ((site.extents.get? id).map Span.start).getD 0

/-- A tie is among the leading ones if there are only blanks from it over the ties behind it to the node. -/
theorem length_lt_leadingTies_iff (stop : Nat) (behind : List Tie) (tie : Tie) (front : List Tie) :
    behind.length < site.leadingTies stop (front ++ tie :: behind).reverse ↔
      site.isBridged stop tie.comment.span.stop (behind.map Tie.comment) := by
  -- The ties are counted from the last one on, so the last one behind is taken off.
  induction behind using List.reverseRecOn generalizing stop with
  | nil =>
    rw [List.reverse_append, List.reverse_singleton, List.singleton_append, leadingTies]
    split
    · next blank => exact iff_of_true (Nat.lt_add_right _ Nat.one_pos) (by simp [isBridged, blank])
    · next inked => simp [isBridged, inked]
  | append_singleton behind last ih =>
    rw [← List.cons_append, ← List.append_assoc, List.reverse_append, List.reverse_singleton, List.singleton_append,
      leadingTies, List.map_append, List.map_singleton, isBridged_concat, List.length_append, List.length_singleton]
    split
    · next blank =>
      rw [blank, Bool.and_true, ← ih]
      omega
    · next inked => simp [inked]

/-- The comment of one of the ties, once they are broken. All go by the nodes of the first tie. -/
def Broken (site : Site) (ties : List Tie) (b : BoundComment) : Prop :=
  ∃ first front tie behind, ties.head? = some first ∧ ties = front ++ tie :: behind ∧
    b = if site.isBridged (site.startOf first.following) tie.comment.span.stop (behind.map Tie.comment)
      then tie.boundTo first.following .leading else tie.boundTo first.preceding .trailing

/-- How many of the ties go behind the node before them. -/
def trailingTies (site : Site) (stop : Nat) (ties : List Tie) : Nat :=
  ties.length - site.leadingTies stop ties.reverse

theorem length_lt_trailingTies_iff (stop : Nat) (front : List Tie) (tie : Tie) (behind : List Tie) :
    front.length < site.trailingTies stop (front ++ tie :: behind) ↔
      ¬ site.isBridged stop tie.comment.span.stop (behind.map Tie.comment) := by
  rw [← length_lt_leadingTies_iff stop behind tie front, trailingTies, List.length_append, List.length_cons]
  omega

theorem broken_of_mem_take (head : ties.head? = some first)
    (member : tie ∈ ties.take (site.trailingTies (site.startOf first.following) ties)) :
    site.Broken ties (tie.boundTo first.preceding .trailing) := by
  obtain ⟨front, more, parts⟩ := List.append_of_mem member
  generalize count : site.trailingTies (site.startOf first.following) ties = trailing at member parts
  have split : ties = front ++ tie :: (more ++ ties.drop trailing) := by
    rw [← List.cons_append, ← List.append_assoc, ← parts, List.take_append_drop]
  have few : front.length < trailing := by
    have length := congrArg List.length parts
    simp only [List.length_take, List.length_append, List.length_cons] at length
    omega
  rw [← count] at few
  refine ⟨first, front, tie, _, head, split, ?_⟩
  rw [split, length_lt_trailingTies_iff] at few
  rw [if_neg few]

theorem broken_of_mem_drop (head : ties.head? = some first)
    (member : tie ∈ ties.drop (site.trailingTies (site.startOf first.following) ties)) :
    site.Broken ties (tie.boundTo first.following .leading) := by
  obtain ⟨more, behind, parts⟩ := List.append_of_mem member
  generalize count : site.trailingTies (site.startOf first.following) ties = trailing at member parts
  have split : ties = (ties.take trailing ++ more) ++ tie :: behind := by
    rw [List.append_assoc, ← parts, List.take_append_drop]
  have many : ¬ (ties.take trailing ++ more).length < trailing := by
    have length := congrArg List.length parts
    simp only [List.length_take, List.length_append, List.length_cons, List.length_drop] at length ⊢
    omega
  generalize ties.take trailing ++ more = front at split many
  subst split
  rw [← count, length_lt_trailingTies_iff, not_not] at many
  exact ⟨first, front, tie, behind, head, rfl, by rw [if_pos many]⟩

theorem breakTies_cons (first : Tie) (rest : List Tie) (shelf : Shelf) :
    site.breakTies (first :: rest) shelf =
      (((((first :: rest).take (site.trailingTies (site.startOf first.following) (first :: rest))).map
          (·.boundTo first.preceding .trailing) ++
        ((first :: rest).drop (site.trailingTies (site.startOf first.following) (first :: rest))).map
          (·.boundTo first.following .leading)).foldl Shelf.add shelf).sort first.preceding).sort first.following := by
  rfl

theorem mem_held_breakTies (member : b ∈ (site.breakTies ties shelf).held) : b ∈ shelf.held ∨ site.Broken ties b := by
  cases ties with
  | nil => exact .inl member
  | cons first rest =>
    rw [breakTies_cons] at member
    refine held_foldl_add (P := fun c => c ∈ shelf.held ∨ site.Broken (first :: rest) c) _ (fun c here => .inl here)
      (fun c here => .inr ?_) b (mem_held_sort (mem_held_sort member))
    rcases List.mem_append.mp here with early | late
    · obtain ⟨tie, taken, rfl⟩ := List.mem_map.mp early
      exact broken_of_mem_take List.head?_cons taken
    · obtain ⟨tie, dropped, rfl⟩ := List.mem_map.mp late
      exact broken_of_mem_drop List.head?_cons dropped

/-! ### Runs -/

/-- Ties before one node that stand together, with ties before other nodes or none around them. -/
def IsRun (all run : List Tie) : Prop :=
  ∃ earlier later following, all = earlier ++ run ++ later ∧ (∀ tie ∈ run, tie.following = following) ∧
    (∀ tie ∈ earlier.getLast?, tie.following ≠ following) ∧ ∀ tie ∈ later.head?, tie.following ≠ following

theorem IsRun.behind {further run : List Tie} (isRun : IsRun (first :: further) run) (some_run : run ≠ [])
    (apart : ∀ tie ∈ ties.getLast?, tie.following ≠ first.following) : IsRun (ties ++ first :: further) run := by
  obtain ⟨earlier, later, following, parts, same, left, right⟩ := isRun
  refine ⟨ties ++ earlier, later, following, by simp [parts], same, ?_, right⟩
  cases earlier with
  | nil =>
    rw [List.append_nil]
    have here : first ∈ run := by
      cases run with
      | nil => exact absurd rfl some_run
      | cons head run =>
        rw [List.nil_append, List.cons_append, List.cons.injEq] at parts
        exact parts.1 ▸ List.mem_cons_self
    rwa [same first here] at apart
  | cons head earlier =>
    rwa [List.getLast?_append_cons]

theorem Broken.ne_nil (broken : site.Broken ties b) : ties ≠ [] := by
  obtain ⟨first, front, tie, behind, -, rfl, -⟩ := broken
  simp

/-- A further tie joins the run that waits, or it starts a run and the one that waited is broken. -/
theorem joinTies_cases (site : Site) (tie : Tie) (ties : List Tie) (shelf : Shelf) :
    (∃ last ∈ ties.getLast?, last.following = tie.following ∧ site.joinTies tie ties shelf = (ties ++ [tie], shelf)) ∨
      (∀ last ∈ ties.getLast?, last.following ≠ tie.following) ∧
        site.joinTies tie ties shelf = ([tie], site.breakTies ties shelf) := by
  unfold joinTies
  cases waiting : ties.getLast? with
  | none =>
    obtain rfl := List.getLast?_eq_none_iff.mp waiting
    exact .inr ⟨by simp, rfl⟩
  | some last =>
    by_cases same : last.following = tie.following
    · exact .inl ⟨last, rfl, same, by simp [same]⟩
    · refine .inr ⟨?_, by simp [same]⟩
      rintro _ ⟨⟩
      exact same

def Decided (site : Site) (before comments : List Comment) (b : BoundComment) : Prop :=
  ∃ earlier c later owner anchor, comments = earlier ++ c :: later ∧
    site.decision (site.placement (earlier.reverse ++ before) c later) c = .bind owner anchor ∧
    b = { c with placement := site.placement (earlier.reverse ++ before) c later, owner, anchor }

theorem Decided.cons {c : Comment} (decided : site.Decided (c :: before) rest b) : site.Decided before (c :: rest) b := by
  obtain ⟨earlier, d, later, owner, anchor, rfl, decision, rfl⟩ := decided
  have context : (c :: earlier).reverse ++ before = earlier.reverse ++ c :: before := by
    rw [List.reverse_cons, List.append_assoc, List.singleton_append]
  exact ⟨c :: earlier, d, later, owner, anchor, rfl, by rw [context]; exact decision, by rw [context]⟩

/-- Every comment on the shelf in the end was there before, has been bound by a decision, or comes from a run
    of ties that was broken. -/
theorem mem_held_bindAll (same : ∀ tie ∈ ties, ∀ other ∈ ties, tie.following = other.following)
    (member : b ∈ (site.bindAll before ties shelf rest).held) :
    b ∈ shelf.held ∨ site.Decided before rest b ∨
      ∃ run, IsRun (ties ++ site.tiesOf before rest) run ∧ site.Broken run b := by
  induction rest generalizing before ties shelf with
  | nil =>
    rw [bindAll] at member
    refine (mem_held_breakTies member).imp_right fun broken => .inr ⟨ties, ?_, broken⟩
    obtain ⟨first, here⟩ := List.exists_mem_of_ne_nil ties broken.ne_nil
    exact ⟨[], [], first.following, by simp [tiesOf], fun tie there => same tie there first here, by simp, by simp⟩
  | cons c rest ih =>
    cases decided : site.decision (site.placement before c rest) c with
    | bind owner anchor =>
      rw [bindAll_of_bind decided] at member
      rw [tiesOf_of_bind decided]
      rcases ih same member with held | later | run
      · rcases List.mem_append.mp ((held_add_perm shelf _).mem_iff.mp held) with old | last
        · exact .inl old
        · exact .inr (.inl ⟨[], c, rest, owner, anchor, rfl, decided, List.mem_singleton.mp last⟩)
      · exact .inr (.inl later.cons)
      · exact .inr (.inr run)
    | tie preceding following =>
      rw [bindAll_of_tie decided] at member
      rw [tiesOf_of_tie decided]
      rcases joinTies_cases site ⟨c, preceding, following⟩ ties shelf with ⟨last, here, joins, join⟩ | ⟨apart, join⟩
      · rw [join] at member
        have still : ∀ tie ∈ ties ++ [⟨c, preceding, following⟩], tie.following = following := by
          intro tie there
          rcases List.mem_append.mp there with early | new
          · rw [same tie early last (List.mem_of_getLast? here), joins]
          · rw [List.mem_singleton.mp new]
        rcases ih (fun tie there other also => (still tie there).trans (still other also).symm) member with old | later | run
        · exact .inl old
        · exact .inr (.inl later.cons)
        · rw [List.append_assoc, List.singleton_append] at run
          exact .inr (.inr run)
      · -- The run that waited ends here, and the new tie starts another.
        rw [join] at member
        rcases ih (by simp) member with old | later | ⟨run, isRun, broken⟩
        · refine (mem_held_breakTies old).imp_right fun broken => .inr ⟨ties, ?_, broken⟩
          have there := List.getLast?_eq_some_getLast broken.ne_nil
          refine ⟨[], _, _, rfl, fun tie here => same tie here _ (List.mem_of_getLast? there), by simp, ?_⟩
          rintro _ ⟨⟩
          exact (apart _ there).symm
        · exact .inr (.inl later.cons)
        · exact .inr (.inr ⟨run, isRun.behind broken.ne_nil apart, broken⟩)

/-- A tie is decided at its place among the comments, and the ties behind it are those of the comments behind. -/
theorem split_of_tiesOf {front behind : List Tie} (parts : site.tiesOf before rest = front ++ tie :: behind) :
    ∃ earlier later, rest = earlier ++ tie.comment :: later ∧
      site.decision (site.placement (earlier.reverse ++ before) tie.comment later) tie.comment =
        .tie tie.preceding tie.following ∧
      behind = site.tiesOf (tie.comment :: (earlier.reverse ++ before)) later := by
  induction rest generalizing before front with
  | nil => cases front <;> cases parts
  | cons c rest ih =>
    have further {front : List Tie} (parts : site.tiesOf (c :: before) rest = front ++ tie :: behind) :
        ∃ earlier later, c :: rest = earlier ++ tie.comment :: later ∧
          site.decision (site.placement (earlier.reverse ++ before) tie.comment later) tie.comment =
            .tie tie.preceding tie.following ∧
          behind = site.tiesOf (tie.comment :: (earlier.reverse ++ before)) later := by
      obtain ⟨earlier, later, rfl, decided, behind⟩ := ih parts
      refine ⟨c :: earlier, later, rfl, ?_⟩
      rw [List.reverse_cons, List.append_assoc, List.singleton_append]
      exact ⟨decided, behind⟩
    cases decided : site.decision (site.placement before c rest) c with
    | bind owner anchor =>
      rw [tiesOf_of_bind decided] at parts
      exact further parts
    | tie preceding following =>
      rw [tiesOf_of_tie decided] at parts
      cases front with
      | nil =>
        rw [List.nil_append, List.cons.injEq] at parts
        obtain ⟨rfl, rfl⟩ := parts
        exact ⟨[], rest, rfl, decided, rfl⟩
      | cons first front =>
        rw [List.cons_append, List.cons.injEq] at parts
        exact further parts.2

theorem tiesOf_append (before front rest : List Comment) :
    ∃ ties, site.tiesOf before (front ++ rest) = ties ++ site.tiesOf (front.reverse ++ before) rest ∧
      ∀ tie ∈ ties, tie.comment ∈ front := by
  induction front generalizing before with
  | nil => exact ⟨[], rfl, by simp⟩
  | cons c front ih =>
    obtain ⟨ties, parts, among⟩ := ih (c :: before)
    rw [List.reverse_cons, List.append_assoc, List.singleton_append, List.cons_append]
    cases decided : site.decision (site.placement before c (front ++ rest)) c with
    | bind owner anchor =>
      rw [tiesOf_of_bind decided, parts]
      exact ⟨ties, rfl, fun tie member => List.mem_cons_of_mem c (among tie member)⟩
    | tie preceding following =>
      rw [tiesOf_of_tie decided, parts]
      refine ⟨⟨c, preceding, following⟩ :: ties, rfl, ?_⟩
      intro tie member
      rcases List.mem_cons.mp member with rfl | further
      · exact List.mem_cons_self
      · exact List.mem_cons_of_mem c (among tie further)

/-- If no tie before another node comes between ties before one node, a run is all that is tied before its node. -/
theorem IsRun.eq_filter {all run : List Tie} (isRun : IsRun all run) (some_run : run ≠ [])
    (convex : ∀ {a b c : Tie}, [a, b, c].Sublist all → a.following = c.following → b.following = c.following) :
    ∃ following, run = all.filter (·.following = following) := by
  obtain ⟨earlier, later, following, rfl, same, left, right⟩ := isRun
  obtain ⟨inner, here⟩ := List.exists_mem_of_ne_nil run some_run
  have none_earlier : ∀ tie ∈ earlier, ¬ tie.following = following := by
    intro tie member before
    rcases List.eq_nil_or_concat' earlier with rfl | ⟨front, last, rfl⟩
    · cases member
    · have apart : last.following ≠ following := left last (by simp)
      rcases List.mem_append.mp member with further | near
      · have order : [tie, last, inner].Sublist (front ++ ([last] ++ (run ++ later))) :=
          (List.singleton_sublist.mpr further).append
            ((List.Sublist.refl [last]).append (List.singleton_sublist.mpr (List.mem_append_left later here)))
        rw [← List.append_assoc, ← List.append_assoc] at order
        exact apart ((convex order (before.trans (same inner here).symm)).trans (same inner here))
      · exact apart (List.mem_singleton.mp near ▸ before)
  have none_later : ∀ tie ∈ later, ¬ tie.following = following := by
    intro tie member behind
    cases later with
    | nil => cases member
    | cons first rest =>
      have apart : first.following ≠ following := right first rfl
      rcases List.mem_cons.mp member with rfl | further
      · exact apart behind
      · have order : [inner, first, tie].Sublist ((earlier ++ run) ++ first :: rest) :=
          (List.singleton_sublist.mpr (List.mem_append_right earlier here)).append
            ((List.singleton_sublist.mpr further).cons_cons first)
        exact apart ((convex order ((same inner here).trans behind.symm)).trans behind)
  refine ⟨following, ?_⟩
  rw [List.filter_append, List.filter_append, List.filter_eq_nil_iff.mpr (by simpa using none_earlier),
    List.filter_eq_self.mpr (by simpa using same), List.filter_eq_nil_iff.mpr (by simpa using none_later), List.nil_append,
    List.append_nil]

end ApexLayout.Site
