import ApexLayout.Proofs.Trail.Handlers

/-!
Walks of the printer along a path that it changes. A node that is entered is put on the path and marked, and taken off
again when it is left, whether printing it failed or not.
-/
namespace ApexLayout

/-- The path of a printer, and the nodes it has marked. -/
structure Trail where
  path : Path
  marked : NodeId → Bool

namespace Trail

/-- No node is twice on the path, and the nodes on it are the marked ones. -/
structure Consistent (t : Trail) : Prop where
  nodup : (t.path.map Frame.id).Nodup
  marked : ∀ id, t.marked id = true ↔ id ∈ t.path.map Frame.id

def push (t : Trail) (frame : Frame) : Trail := ⟨frame :: t.path, fun id => id == frame.id || t.marked id⟩

/-- The last node is taken off the path, and its mark with it. -/
def pop (t : Trail) : Trail :=
  match t.path with
  | [] => t
  | frame :: path => ⟨path, fun id => id != frame.id && t.marked id⟩

end Trail

abbrev Courses := Path → NodeId → Option Edge → Course Draft

/-- A walk along a course: the trail before it, those it comes by, its outcome and the trail behind it. -/
inductive Walks (tree : Tree) (courses : Courses) :
    {α : Type} → Trail → Course α → List Trail → Outcome α → Trail → Prop where
  | done {α : Type} {t : Trail} {result : Outcome α} : Walks tree courses t (.done result) [] result t
  | andThen {α β : Type} {t t' t'' : Trail} {first : Course β} {next : β → Course α} {seen later : List Trail} {b : β}
    {result : Outcome α} (here : Walks tree courses t first seen (.ok b) t')
    (there : Walks tree courses t' (next b) later result t'') :
    Walks tree courses t (.andThen first next) (seen ++ later) result t''
  | failed {α β : Type} {t t' : Trail} {first : Course β} {next : β → Course α} {seen : List Trail} {e : FormatError}
    (here : Walks tree courses t first seen (.error e) t') : Walks tree courses t (.andThen first next) seen (.error e) t'
  | inside {α : Type} {t t' : Trail} {inner : Course α} {seen : List Trail} {result : Outcome α}
    (here : Walks tree courses t inner seen result t') : Walks tree courses t (.within [] inner) seen result t'
  | enter {α : Type} {t t' : Trail} {frame : Frame} {frames : List Frame} {inner : Course α} {seen : List Trail}
    {result : Outcome α} (unmarked : t.marked frame.id = false)
    (below : Walks tree courses (t.push frame) (.within frames inner) seen result t') :
    Walks tree courses t (.within (frame :: frames) inner) (t.push frame :: seen ++ [t'.pop]) result t'.pop
  | refuse {α : Type} {t : Trail} {frame : Frame} {frames : List Frame} {inner : Course α}
    (again : t.marked frame.id = true) :
    Walks tree courses t (.within (frame :: frames) inner) [] (.error (Printer.cycle tree frame.id)) t
  | around {α : Type} {t t' : Trail} {frame : Frame} {rest : Path} {inner : Course α} {seen : List Trail} {result : Outcome α}
    (here : t.path = frame :: rest) (above : Walks tree courses t.pop inner seen result t') :
    Walks tree courses t (.around inner) (t.pop :: seen ++ [t'.push frame]) result (t'.push frame)
  | outermost {α : Type} {t : Trail} {inner : Course α} (here : t.path = []) :
    Walks tree courses t (.around inner) [] (.error (.malformed "node has no parent")) t
  | visit {t t' : Trail} {id : NodeId} {edge : Option Edge} {seen : List Trail} {result : Outcome Draft}
    (here : Walks tree courses t (.within [⟨id, edge⟩] (courses (⟨id, edge⟩ :: t.path) id edge)) seen result t') :
    Walks tree courses t (.visit id edge) seen result t'

/-! ### Entering and leaving -/

namespace Trail

variable {t : Trail} {frame : Frame}

theorem Consistent.push (consistent : t.Consistent) (unmarked : t.marked frame.id = false) : (t.push frame).Consistent := by
  have unmet : frame.id ∉ t.path.map Frame.id := fun met => by simp [(consistent.marked _).mpr met] at unmarked
  refine ⟨List.nodup_cons.mpr ⟨unmet, consistent.nodup⟩, fun id => ?_⟩
  simp [Trail.push, consistent.marked]

theorem Consistent.pop (consistent : t.Consistent) : t.pop.Consistent := by
  unfold Trail.pop
  split
  · exact consistent
  · next frame path here =>
    have nodup := consistent.nodup
    rw [here, List.map_cons, List.nodup_cons] at nodup
    refine ⟨nodup.2, fun id => ?_⟩
    simp only [Bool.and_eq_true, bne_iff_ne, consistent.marked, here, List.map_cons, List.mem_cons]
    constructor
    · rintro ⟨other, met⟩
      exact met.resolve_left other
    · exact fun met => ⟨fun same => nodup.1 (same ▸ met), .inr met⟩

theorem pop_push (unmarked : t.marked frame.id = false) : (t.push frame).pop = t := by
  have same : (fun id => id != frame.id && (id == frame.id || t.marked id)) = t.marked := by
    funext id
    by_cases here : id = frame.id
    · simp [here, unmarked]
    · simp [bne, beq_false_of_ne here]
  exact congrArg (Trail.mk t.path) same

theorem push_pop {rest : Path} (consistent : t.Consistent) (here : t.path = frame :: rest) : t.pop.push frame = t := by
  have first : t.marked frame.id = true := (consistent.marked _).mpr (by simp [here])
  have same : (fun id => id == frame.id || (id != frame.id && t.marked id)) = t.marked := by
    funext id
    by_cases here : id = frame.id
    · simp [here, first]
    · simp [bne, beq_false_of_ne here]
  obtain ⟨path, marked⟩ := t
  subst here
  exact congrArg (Trail.mk (frame :: rest)) same

theorem path_pop : t.pop.path = t.path.tail := by
  unfold pop
  split
  · next here => simp [here]
  · next here => simp [here]

theorem Consistent.extend_cons (consistent : t.Consistent) (tree : Tree) (frames : List Frame) :
    Printer.extend tree t.path (frame :: frames) =
      if t.marked frame.id then .error (Printer.cycle tree frame.id) else Printer.extend tree (frame :: t.path) frames := by
  have same : t.path.any (·.id == frame.id) = t.marked frame.id := by
    rw [Bool.eq_iff_iff, consistent.marked]
    simp
  rw [Printer.extend, same]

end Trail

section
variable {α : Type} {t : Trail} {tree : Tree} {courses : Courses} {print : PrintsAt}

/-- Nodes are printed by their courses, wherever no node is twice on the path. -/
def FollowsCourses (tree : Tree) (courses : Courses) (print : PrintsAt) : Prop :=
  ∀ (path : Path) (id : NodeId) (edge : Option Edge), (path.map Frame.id).Nodup →
    print path id edge = (Course.within [⟨id, edge⟩] (courses (⟨id, edge⟩ :: path) id edge)).run tree print path

/-- A walk ends where it began, comes by consistent trails only, and has the outcome of its course. -/
theorem Walks.keeps {t' : Trail} {course : Course α} {seen : List Trail} {result : Outcome α}
    (walks : Walks tree courses t course seen result t') (consistent : t.Consistent) :
    t' = t ∧ (∀ s ∈ seen, s.Consistent) ∧ (FollowsCourses tree courses print → result = course.run tree print t.path) := by
  induction walks with
  | done => exact ⟨rfl, by simp, fun _ => rfl⟩
  | andThen _ _ first_ih next_ih =>
    obtain ⟨rfl, firsts, here⟩ := first_ih consistent
    obtain ⟨rfl, laters, there⟩ := next_ih consistent
    refine ⟨rfl, fun s member => (List.mem_append.mp member).elim (firsts s) (laters s), fun follows => ?_⟩
    rw [Course.run, ← here follows]
    exact there follows
  | failed _ ih =>
    obtain ⟨rfl, firsts, here⟩ := ih consistent
    refine ⟨rfl, firsts, fun follows => ?_⟩
    rw [Course.run, ← here follows]
    rfl
  | inside _ ih => exact ih consistent
  | enter unmarked _ ih =>
    obtain ⟨rfl, below, here⟩ := ih (consistent.push unmarked)
    rw [Trail.pop_push unmarked]
    refine ⟨rfl, ?_, fun follows => ?_⟩
    · simp only [List.cons_append, List.mem_cons, List.mem_append, List.not_mem_nil, or_false]
      rintro s (rfl | member | rfl)
      exacts [consistent.push unmarked, below s member, consistent]
    · rw [here follows, Course.run, Course.run, consistent.extend_cons, unmarked]
      rfl
  | refuse again =>
    refine ⟨rfl, by simp, fun _ => ?_⟩
    rw [Course.run, consistent.extend_cons, again]
    rfl
  | around here _ ih =>
    obtain ⟨rfl, above, same⟩ := ih consistent.pop
    rw [Trail.push_pop consistent here]
    refine ⟨rfl, ?_, fun follows => ?_⟩
    · simp only [List.cons_append, List.mem_cons, List.mem_append, List.not_mem_nil, or_false]
      rintro s (rfl | member | rfl)
      exacts [consistent.pop, above s member, consistent]
    · rw [same follows, Course.run, Trail.path_pop, here]
      rfl
  | outermost here =>
    refine ⟨rfl, by simp, fun _ => ?_⟩
    rw [Course.run, here]
    rfl
  | visit _ ih =>
    obtain ⟨rfl, inner, here⟩ := ih consistent
    exact ⟨rfl, inner, fun follows => (here follows).trans (follows _ _ _ consistent.nodup).symm⟩

/-! ### There is a walk along every course -/

def WalksBelow (tree : Tree) (courses : Courses) (print : PrintsAt) (bound : Nat) : Prop :=
  ∀ (t : Trail) (id : NodeId) (edge : Option Edge), t.Consistent →
    (id ∉ t.path.map Frame.id → Path.rank tree (⟨id, edge⟩ :: t.path) < bound) →
    ∃ seen, Walks tree courses t (.visit id edge) seen (print t.path id edge) t

theorem Walks.within_of {frames : List Frame} {inner : Course α} (consistent : t.Consistent)
    (below : ∀ deeper : Trail, deeper.Consistent → Printer.extend tree t.path frames = .ok deeper.path →
      ∃ seen, Walks tree courses deeper inner seen (inner.run tree print deeper.path) deeper) :
    ∃ seen, Walks tree courses t (.within frames inner) seen ((Course.within frames inner).run tree print t.path) t := by
  induction frames generalizing t with
  | nil =>
    obtain ⟨seen, walks⟩ := below t consistent rfl
    exact ⟨seen, .inside walks⟩
  | cons frame frames ih =>
    rw [Course.run, consistent.extend_cons]
    cases unmarked : t.marked frame.id with
    | true => exact ⟨[], .refuse unmarked⟩
    | false =>
      obtain ⟨seen, walks⟩ := ih (consistent.push unmarked) fun deeper kept entered =>
        below deeper kept (by rw [consistent.extend_cons, unmarked]; exact entered)
      have ends := Walks.enter unmarked walks
      rw [Trail.pop_push unmarked] at ends
      exact ⟨_, ends⟩

theorem WalksBelow.walks {bound : Nat} (visits : WalksBelow tree courses print bound) (course : Course α)
    (consistent : t.Consistent) (descends : course.Descends tree bound t.path) :
    ∃ seen, Walks tree courses t course seen (course.run tree print t.path) t := by
  induction course generalizing t with
  | done result => exact ⟨[], .done⟩
  | andThen first next first_ih next_ih =>
    obtain ⟨seen, walks⟩ := first_ih consistent descends.1
    rw [Course.run]
    cases here : first.run tree print t.path with
    | error e => exact ⟨seen, .failed (here ▸ walks)⟩
    | ok b =>
      obtain ⟨later, further⟩ := next_ih b consistent (descends.2 b)
      exact ⟨seen ++ later, .andThen (here ▸ walks) further⟩
  | within frames inner ih =>
    exact Walks.within_of consistent fun deeper kept entered => ih kept (descends _ entered)
  | around inner ih =>
    rw [Course.run]
    cases here : t.path with
    | nil => exact ⟨[], .outermost here⟩
    | cons frame rest =>
      have above : t.pop.path = rest := by rw [Trail.path_pop, here, List.tail_cons]
      have lower : inner.Descends tree bound t.path.tail := descends
      obtain ⟨seen, walks⟩ := ih consistent.pop (by rwa [Trail.path_pop])
      have ends := Walks.around here walks
      rw [Trail.push_pop consistent here, above] at ends
      exact ⟨_, ends⟩
  | visit id edge => exact visits t id edge consistent descends

/-- By induction on the rank: a node has only nodes of lower rank printed. -/
theorem walksBelow (follows : FollowsCourses tree courses print)
    (descend : ∀ path id edge, Path.Standing (⟨id, edge⟩ :: path) →
      (courses (⟨id, edge⟩ :: path) id edge).Descends tree (Path.rank tree (⟨id, edge⟩ :: path)) (⟨id, edge⟩ :: path))
    (bound : Nat) : WalksBelow tree courses print bound := by
  induction bound using Nat.strong_induction_on with
  | _ bound ih =>
    intro t id edge consistent lower
    rw [follows _ _ _ consistent.nodup]
    refine (Walks.within_of consistent fun deeper kept entered => ?_).imp fun seen walks => .visit walks
    have same : deeper.path = ⟨id, edge⟩ :: t.path := Printer.extend_eq entered
    have nodup : ((⟨id, edge⟩ :: t.path : Path).map Frame.id).Nodup := same ▸ kept.nodup
    refine (ih _ (lower (List.nodup_cons.mp nodup).1)).walks _ kept ?_
    rw [same]
    exact descend t.path id edge ⟨List.cons_ne_nil _ _, nodup⟩

end

/-! ### The printer's own walks -/

namespace Course

variable {α : Type} {tree : Tree} {bound : Nat} {print other : PrintsAt}

theorem run_congr (course : Course α) {path : Path} (nodup : (path.map Frame.id).Nodup)
    (descends : course.Descends tree bound path)
    (same : ∀ path id edge, (path.map Frame.id).Nodup → (id ∉ path.map Frame.id → Path.rank tree (⟨id, edge⟩ :: path) < bound) →
      print path id edge = other path id edge) :
    course.run tree print path = course.run tree other path := by
  induction course generalizing path with
  | done result => rfl
  | andThen first next first_ih next_ih =>
    rw [run, run, first_ih nodup descends.1]
    exact bind_congr fun b => next_ih b nodup (descends.2 b)
  | within frames inner ih =>
    rw [run, run]
    exact bind_congr_ok fun longer entered => ih (Printer.nodup_of_extend entered nodup) (descends longer entered)
  | around inner ih =>
    rw [run, run, ih (nodup.sublist ((List.tail_sublist path).map _)) descends]
  | visit id edge => exact same path id edge nodup descends

end Course

namespace Manuscript

variable {m : Manuscript}

/-- The courses are those on which a manuscript is printed. If indexes are told from subjects, each node has only
    nodes of lower rank printed. -/
structure Guides (m : Manuscript) (courses : Courses) : Prop where
  occurrence {path : Path} {id : NodeId} {edge : Option Edge} (standing : Path.Standing (⟨id, edge⟩ :: path))
    (print : PrintsAt) : Printer.occurrence ⟨m, ⟨id, edge⟩ :: path, print⟩ id edge =
      (courses (⟨id, edge⟩ :: path) id edge).run m.tree print (⟨id, edge⟩ :: path)
  descends (told : m.tree.TellsIndex) {path : Path} {id : NodeId} {edge : Option Edge}
    (standing : Path.Standing (⟨id, edge⟩ :: path)) :
    (courses (⟨id, edge⟩ :: path) id edge).Descends m.tree (Path.rank m.tree (⟨id, edge⟩ :: path)) (⟨id, edge⟩ :: path)

theorem exists_guides (m : Manuscript) : ∃ courses, m.Guides courses := by
  have charted (path : Path) (id : NodeId) (edge : Option Edge) : ∃ course : Course Draft, Path.Standing path →
      (m.tree.TellsIndex → course.Descends m.tree (Path.rank m.tree path) path) ∧
      ∀ print, Printer.occurrence ⟨m, path, print⟩ id edge = course.run m.tree print path := by
    by_cases standing : Path.Standing path
    · obtain ⟨course, facts⟩ := Printer.Ready.occurrence ⟨standing, Nat.le_refl _⟩ edge
      exact ⟨course, fun _ => facts⟩
    · exact ⟨.done (.ok Doc.empty), fun stands => absurd stands standing⟩
  choose courses facts using charted
  exact ⟨courses, ⟨fun stands => (facts _ _ _ stands).2, fun told _ _ _ stands => (facts _ _ _ stands).1 told⟩⟩

theorem printAt_of_mem {path : Path} {id : NodeId} (met : id ∈ path.map Frame.id) (bound : Nat) (edge : Option Edge) :
    m.printAt bound path id edge = .error (Printer.cycle m.tree id) := by
  have again : path.any (·.id == id) = true := by simpa using met
  cases bound <;> simp only [printAt, Printer.extend, again, if_true] <;> rfl

theorem rank_lt_depthBound (m : Manuscript) (frame : Frame) (path : Path) :
    Path.rank m.tree (frame :: path) < m.depthBound := by
  have below : Path.rank m.tree (frame :: path) ≤ _ := Path.rank_cons_le ..
  have free : Path.free m.tree path ≤ m.tree.size := Path.free_le_size ..
  simp only [depthBound]
  omega

theorem descends_depthBound {α : Type} (m : Manuscript) (course : Course α) (path : Path) :
    course.Descends m.tree m.depthBound path := by
  induction course generalizing path with
  | done result => trivial
  | andThen first next first_ih next_ih => exact ⟨first_ih path, fun b => next_ih b path⟩
  | within frames inner ih => exact fun longer _ => ih longer
  | around inner ih => exact ih path.tail
  | visit id edge => exact fun _ => m.rank_lt_depthBound _ _

namespace Guides

variable {courses : Courses} (guides : m.Guides courses)
include guides

theorem printAt_succ {path : Path} {id : NodeId} {edge : Option Edge} (nodup : (path.map Frame.id).Nodup) (bound : Nat) :
    m.printAt (bound + 1) path id edge =
      (Course.within [⟨id, edge⟩] (courses (⟨id, edge⟩ :: path) id edge)).run m.tree (m.printAt bound) path := by
  rw [Course.run]
  refine bind_congr_ok fun longer entered => ?_
  obtain rfl : longer = ⟨id, edge⟩ :: path := Printer.extend_eq entered
  exact guides.occurrence ⟨List.cons_ne_nil _ _, Printer.nodup_of_extend entered nodup⟩ _

theorem printAt_eq (told : m.tree.TellsIndex) {bound more : Nat} {path : Path} {id : NodeId} {edge : Option Edge}
    (nodup : (path.map Frame.id).Nodup)
    (enough : id ∉ path.map Frame.id → Path.rank m.tree (⟨id, edge⟩ :: path) < bound) (le : bound ≤ more) :
    m.printAt bound path id edge = m.printAt more path id edge := by
  induction bound generalizing more path id edge with
  | zero =>
    have met : id ∈ path.map Frame.id := by_contra fun unmet => Nat.not_lt_zero _ (enough unmet)
    rw [printAt_of_mem met, printAt_of_mem met]
  | succ bound ih =>
    obtain ⟨more, rfl⟩ := Nat.exists_eq_add_one_of_ne_zero (Nat.ne_of_gt (Nat.lt_of_lt_of_le (Nat.succ_pos _) le))
    rw [guides.printAt_succ nodup, guides.printAt_succ nodup, Course.run, Course.run]
    refine bind_congr_ok fun longer entered => ?_
    obtain rfl : longer = ⟨id, edge⟩ :: path := Printer.extend_eq entered
    have inner := Printer.nodup_of_extend entered nodup
    refine Course.run_congr _ inner (guides.descends told ⟨List.cons_ne_nil _ _, inner⟩) fun path' id' edge' nodup' lower => ?_
    have here := enough (List.nodup_cons.mp inner).1
    exact ih nodup' (fun unmet => Nat.lt_of_lt_of_le (lower unmet) (Nat.le_of_lt_succ here)) (Nat.le_of_succ_le_succ le)

theorem follows (told : m.tree.TellsIndex) : FollowsCourses m.tree courses (m.printAt m.depthBound) := by
  intro path id edge nodup
  rw [guides.printAt_eq told nodup (fun _ => m.rank_lt_depthBound _ _) (Nat.le_succ _), guides.printAt_succ nodup]

end Guides

/-- Printing keeps its path, and ends if no index is taken for a subject, however the tree is tangled. On a walk from
    a consistent trail along a course, be it that of a node or any other, all trails are consistent. The walk comes
    back to the trail it began with, be its outcome a failure or not. If indexes are told from subjects, there is
    such a walk along every course, and its outcome is that of the printer. To enter a node that is on the path is
    a failure. -/
theorem walks_keep_trail (m : Manuscript) : ∃ courses : Courses,
    (∀ path id edge print, Path.Standing (⟨id, edge⟩ :: path) → Printer.occurrence ⟨m, ⟨id, edge⟩ :: path, print⟩ id edge =
      (courses (⟨id, edge⟩ :: path) id edge).run m.tree print (⟨id, edge⟩ :: path)) ∧
    (∀ (α : Type) (course : Course α) (t : Trail), t.Consistent →
      (m.tree.TellsIndex → ∃ seen, Walks m.tree courses t course seen (course.run m.tree (m.printAt m.depthBound) t.path) t) ∧
      ∀ seen result t', Walks m.tree courses t course seen result t' → t' = t ∧ (∀ s ∈ seen, s.Consistent) ∧
        (m.tree.TellsIndex → result = course.run m.tree (m.printAt m.depthBound) t.path)) ∧
    (∀ (t : Trail) (id : NodeId) (edge : Option Edge), t.Consistent → id ∈ t.path.map Frame.id →
      Walks m.tree courses t (.visit id edge) []
        (.error (.malformed ("reference cycle through " ++ m.tree.className id))) t) ∧
    (Course.within m.unitPath (.visit m.unit (m.tree.origin m.unit))).run m.tree (m.printAt m.depthBound) [] =
      m.printAt m.depthBound m.unitPath m.unit (m.tree.origin m.unit) := by
  obtain ⟨courses, guides⟩ := m.exists_guides
  refine ⟨courses, fun path id edge print standing => guides.occurrence standing print, fun α course t consistent =>
    ⟨fun told => ?_, fun seen result t' walks => ?_⟩, fun t id edge consistent met => ?_, ?_⟩
  · have visits := walksBelow (guides.follows told) (fun _ _ _ standing => guides.descends told standing) m.depthBound
    exact visits.walks course consistent (m.descends_depthBound course t.path)
  · obtain ⟨back, kept, outcome⟩ := walks.keeps consistent
    exact ⟨back, kept, fun told => outcome (guides.follows told)⟩
  · exact .visit (.refuse ((consistent.marked id).mpr met))
  · unfold unitPath
    split <;> rfl

/-- An access that is its own subject and its own index. -/
def tangled : Manuscript where
  tree := ⟨#[.of .arrayExpr [("expr", .node 0), ("index", .node 0)]]⟩

theorem walks_keep_trail_tangled : ∃ courses seen, Walks tangled.tree courses ⟨[], fun _ => false⟩ (.visit 0 none) seen
    (.error (Printer.cycle tangled.tree 0)) ⟨[], fun _ => false⟩ := by
  have told : tangled.tree.TellsIndex := Tree.Narrow.tellsIndex (Tree.narrow_of_all (by decide))
  obtain ⟨courses, -, walks, -⟩ := walks_keep_trail tangled
  obtain ⟨seen, walk⟩ := (walks Draft (.visit 0 none) ⟨[], fun _ => false⟩ ⟨.nil, by simp⟩).1 told
  exact ⟨courses, seen, walk⟩

/-- An index that is taken for the subject of its access is printed behind itself, without end. -/
theorem printAt_of_taken {m : Manuscript} {access index : NodeId} {slot : Nat} {edge : Option Edge} {path : Path}
    (known : m.tree.isKind access .arrayExpr) (leads : (m.tree.node access).slot? "index" = some slot)
    (there : (m.tree.node access).fields[slot]? = some ("index", .node index))
    (taken : m.tree.fieldName ⟨access, slot.toUInt16, none⟩ = "expr")
    (plain : m.tree.node index = .of .variableExpr) (heeded : m.shelf.isIgnored index = false)
    (fresh : ∀ frame ∈ (⟨access, edge⟩ :: path : Path), frame.id ≠ index) (bound : Nat) :
    m.printAt bound (⟨access, edge⟩ :: path) index (some ⟨access, slot.toUInt16, none⟩) = .error .endless := by
  induction bound with
  | zero =>
    rw [printAt, Printer.extend_fresh fresh]
    rfl
  | succ bound ih =>
    let p : Printer := ⟨m, ⟨index, some ⟨access, slot.toUInt16, none⟩⟩ :: ⟨access, edge⟩ :: path, m.printAt bound⟩
    have nowhere (name : String) (names : List String) : p.destination? (name :: names) = none := by
      have absent : (m.tree.node index).slot? name = none := by rw [plain]; rfl
      rw [Printer.destination?, Printer.follow?, show (p.tree.node p.current).slot? name = none from absent]
      rfl
    have receiver : p.receiver index = .ok Doc.empty := by
      simp only [Printer.receiver, Printer.print, nowhere]
      rfl
    have names : p.dottedNames "names" = .ok (Doc.join "." []) := by
      simp only [Printer.dottedNames, Printer.printEach, nowhere]
      rfl
    have again (grouped : Bool) : p.subjectIndex grouped = .error .endless := by
      have led : p.outward.destination? ["index"] = some ⟨[], access, slot.toUInt16, .node index⟩ :=
        Option.bind_eq_some_iff.mpr ⟨slot, leads, Option.bind_eq_some_iff.mpr ⟨_, there, rfl⟩⟩
      have inner : p.outward.print ["index"] = .error .endless := by
        rw [Printer.print, led]
        exact ih
      have subject : ((p.parent?.map (p.tree.isKind · .arrayExpr)).getD false && p.nameAt 0 == "expr") = true := by
        refine Bool.and_eq_true_iff.mpr ⟨known, ?_⟩
        exact beq_iff_eq.mpr taken
      rw [Printer.subjectIndex, if_pos subject, Printer.arrayIndex, inner]
      rfl
    have own : p.ofKind index .variableExpr = .error .endless := by
      show p.variableAccess index = _
      rw [Printer.variableAccess, receiver]
      simp only [names, again, ok_bind]
      rfl
    have classed : (p.tree.node index).nodeClass = some (.known .variableExpr) := congrArg Node.nodeClass plain
    rw [printAt_succ fresh, Printer.occurrence_eq classed (by simp [p, heeded])]
    exact map_eq_error.mpr own

/-- The fields of an access whose index comes behind many others. -/
def wideFields (others : Nat) : List (String × Value) :=
  ("expr", .null) :: (List.replicate others ("", .null) ++ [("index", .node 1)])

theorem slot?_wideFields (others : Nat) : (wideFields others).findIdx? (·.1 == "index") = some (others + 1) := by
  simp [wideFields, List.findIdx?_cons, List.findIdx?_append, List.findIdx?_replicate]

theorem getElem?_wideFields (others : Nat) : (wideFields others)[others + 1]? = some ("index", .node 1) := by
  simp [wideFields]

/-- An access with as many fields as sixteen bits count, and one more. -/
def wideAccess : Manuscript where
  tree := ⟨#[.of .arrayExpr (wideFields 65535), .of .variableExpr]⟩

/-- No number of steps is enough to print the index, of which the slot is counted to that of the subject. -/
theorem printAt_wideAccess : (wideAccess.tree.node 0).slot? "index" = some 65536 ∧
    ∀ bound, wideAccess.printAt bound [⟨0, none⟩] 1 (some ⟨0, 0, none⟩) = .error .endless := by
  have leads : (wideAccess.tree.node 0).slot? "index" = some 65536 := slot?_wideFields 65535
  have there : (wideAccess.tree.node 0).fields[65536]? = some ("index", .node 1) := getElem?_wideFields 65535
  have taken : wideAccess.tree.fieldName ⟨0, Nat.toUInt16 65536, none⟩ = "expr" := rfl
  have plain : wideAccess.tree.node 1 = .of .variableExpr := rfl
  refine ⟨leads, fun bound => ?_⟩
  have endless : wideAccess.printAt bound [⟨0, none⟩] 1 (some ⟨0, Nat.toUInt16 65536, none⟩) = .error .endless :=
    printAt_of_taken rfl leads there taken plain rfl (by simp) bound
  exact endless

end Manuscript
end ApexLayout
