import ApexLayout.Proofs.Twin.Moves
import Mathlib.Data.Finset.Card
import Mathlib.Data.Finset.Range

/-!
The moves of a printer. What a printer does at a node is a course: it looks into nodes, works at the node around, and
has nodes printed that rank lower than its own one, although the path to them need not be longer.
-/
namespace ApexLayout

/-- A way to print a node that is reached by an edge from the end of a path. -/
abbrev PrintsAt := Path → NodeId → Option Edge → Outcome Draft

/-- What is done from a node on. -/
inductive Course : Type → Type 1 where
  /-- Nothing more, with a result. -/
  | done {α : Type} (result : Outcome α) : Course α
  /-- One course, and another one with what it gives. -/
  | andThen {α β : Type} (first : Course β) (next : β → Course α) : Course α
  /-- A course at the end of further nodes. -/
  | within {α : Type} (frames : List Frame) (inner : Course α) : Course α
  /-- A course at the node around. -/
  | around {α : Type} (inner : Course α) : Course α
  /-- A node is printed. -/
  | visit (id : NodeId) (edge : Option Edge) : Course Draft

/-! ### The rank of a path -/

namespace Path

def free (tree : Tree) (path : Path) : Nat := (Finset.range tree.size \ (path.map Frame.id).toFinset).card

/-- The last node is reached by the field for the subject of an access. -/
def endsInSubject (tree : Tree) (path : Path) : Bool :=
  match path.head?.bind Frame.edge with
  | some edge => edge.index.isNone && tree.fieldName edge == "expr"
  | none => false

/-- The rank of the last node of a path. It counts the nodes that could be entered in its place, and a subject
    ranks above all else that could. -/
def rank (tree : Tree) (path : Path) : Nat := 2 * free tree path.tail + (endsInSubject tree path).toNat

/-- The path ends in a node, and no node is twice on it. -/
structure Standing (path : Path) : Prop where
  nonempty : path ≠ []
  nodup : (path.map Frame.id).Nodup

variable {tree : Tree} {path : Path} {frame : Frame}

theorem free_append_le (frames : List Frame) (path : Path) : free tree (frames ++ path) ≤ free tree path := by
  refine Finset.card_le_card (Finset.sdiff_subset_sdiff (Finset.Subset.refl _) ?_)
  simp

theorem free_cons_lt (inside : frame.id < tree.size) (unmet : frame.id ∉ path.map Frame.id) :
    free tree (frame :: path) < free tree path := by
  apply Finset.card_lt_card
  rw [Finset.ssubset_iff_of_subset]
  · exact ⟨frame.id, by simpa using ⟨inside, by simpa using unmet⟩, by simp⟩
  · apply Finset.sdiff_subset_sdiff (Finset.Subset.refl _)
    simp

theorem free_le_size (path : Path) : free tree path ≤ tree.size := by
  simpa [free] using Finset.card_le_card (Finset.sdiff_subset (s := Finset.range tree.size) (t := (path.map Frame.id).toFinset))

theorem rank_cons_le (frame : Frame) (path : Path) : rank tree (frame :: path) ≤ 2 * free tree path + 1 := by
  have := Bool.toNat_le (endsInSubject tree (frame :: path))
  simp only [rank, List.tail_cons]
  omega

theorem Standing.rank_lt (standing : Standing path) {longer : Path} (suffix : path <:+ longer)
    (inside : ∀ first ∈ path.head?, first.id < tree.size) : rank tree (frame :: longer) < rank tree path := by
  obtain ⟨frames, rfl⟩ := suffix
  cases path with
  | nil => exact absurd rfl standing.nonempty
  | cons first rest =>
    have fewer := free_cons_lt (inside first rfl) (List.nodup_cons.mp standing.nodup).1
    have below : rank tree (frame :: (frames ++ first :: rest)) ≤ _ := rank_cons_le ..
    have kept : free tree (frames ++ first :: rest) ≤ free tree (first :: rest) := free_append_le ..
    simp only [rank, List.tail_cons] at below ⊢
    omega

end Path

/-! ### Courses along a path -/

namespace Course

/-- A course from the end of a path, with a way to print nodes. The path is only handed on. -/
def run (tree : Tree) (print : PrintsAt) : {α : Type} → Course α → Path → Outcome α
  | _, .done result, _ => result
  | _, .andThen first next, path => do
    let a ← first.run tree print path
    (next a).run tree print path
  | _, .within frames inner, path => do
    let longer ← Printer.extend tree path frames
    inner.run tree print longer
  | _, .around inner, path =>
    if path.isEmpty then .error (.malformed "node has no parent") else inner.run tree print path.tail
  | _, .visit id edge, path => print path id edge

/-- All nodes that a course has printed rank below a bound, but those that cannot be entered. -/
def Descends (tree : Tree) (bound : Nat) : {α : Type} → Course α → Path → Prop
  | _, .done _, _ => True
  | _, .andThen first next, path => first.Descends tree bound path ∧ ∀ a, (next a).Descends tree bound path
  | _, .within frames inner, path => ∀ longer, Printer.extend tree path frames = .ok longer → inner.Descends tree bound longer
  | _, .around inner, path => inner.Descends tree bound path.tail
  | _, .visit id edge, path => id ∉ path.map Frame.id → Path.rank tree (⟨id, edge⟩ :: path) < bound

end Course

abbrev Printer.idle (m : Manuscript) (path : Path) : Printer := ⟨m, path, fun _ _ _ => .ok Doc.empty⟩

/-- Where fields lead does not depend on how nodes are printed. -/
theorem Printer.led {m : Manuscript} {path : Path} {names : List String} {d? : Option Destination}
    (leads : (idle m path).destination? names = d?) (print : PrintsAt) : destination? ⟨m, path, print⟩ names = d? := leads

/-- No index of an access is taken for its subject. -/
def Tree.TellsIndex (t : Tree) : Prop :=
  ∀ id slot, t.isKind id .arrayExpr → (t.node id).slot? "index" = some slot → t.fieldName ⟨id, slot.toUInt16, none⟩ ≠ "expr"

theorem Tree.Narrow.tellsIndex {t : Tree} (narrow : t.Narrow) : t.TellsIndex := by
  intro id slot _ found
  obtain ⟨inside, named, -⟩ := List.findIdx?_eq_some_iff_getElem.mp found
  rw [Tree.fieldName_of_slot (narrow id) (List.getElem?_eq_getElem inside) none, beq_iff_eq.mp named]
  decide

/-- The work of a printer at the end of a path is a course on which only nodes below a bound are printed, if
    indexes are told from subjects. It is the same course however these are printed. -/
def Charted {α : Type} (m : Manuscript) (bound : Nat) (path : Path) (work : Printer → Outcome α) : Prop :=
  ∃ course : Course α, (m.tree.TellsIndex → course.Descends m.tree bound path) ∧
    ∀ print, work ⟨m, path, print⟩ = course.run m.tree print path

namespace Charted

variable {α β : Type} {m : Manuscript} {bound : Nat} {path : Path} {work : Printer → Outcome α}

theorem still (same : ∀ print, work ⟨m, path, print⟩ = work (Printer.idle m path)) :
    Charted m bound path work :=
  ⟨.done (work (Printer.idle m path)), fun _ => trivial, same⟩

theorem congr {other : Printer → Outcome α} (charted : Charted m bound path work)
    (same : ∀ print, other ⟨m, path, print⟩ = work ⟨m, path, print⟩) : Charted m bound path other := by
  obtain ⟨course, descends, runs⟩ := charted
  exact ⟨course, descends, fun print => (same print).trans (runs print)⟩

theorem bind {work : Printer → Outcome β} {next : β → Printer → Outcome α} (first : Charted m bound path work)
    (rest : ∀ b, Charted m bound path (next b)) : Charted m bound path fun p => work p >>= fun b => next b p := by
  obtain ⟨course, descends, runs⟩ := first
  choose later below later_runs using rest
  refine ⟨.andThen course later, fun told => ⟨descends told, fun b => below b told⟩, fun print => ?_⟩
  simp only [runs, later_runs, Course.run]

theorem map {work : Printer → Outcome β} (f : β → α) (charted : Charted m bound path work) :
    Charted m bound path fun p => f <$> work p := by
  have last (b : β) : Charted m bound path fun _ => .ok (f b) := still fun _ => rfl
  refine (charted.bind last).congr fun print => ?_
  cases work ⟨m, path, print⟩ <;> rfl

theorem ite {test : Printer → Bool} {other : Printer → Outcome α}
    (same : ∀ print, test ⟨m, path, print⟩ = test (Printer.idle m path)) (first : Charted m bound path work)
    (second : Charted m bound path other) : Charted m bound path fun p => if test p then work p else other p := by
  cases answer : test (Printer.idle m path) with
  | true => exact first.congr fun print => by simp [same, answer]
  | false => exact second.congr fun print => by simp [same, answer]

theorem within (frames : List Frame) (work : Path → Printer → Outcome α)
    (inner : ∀ longer, Printer.extend m.tree path frames = .ok longer →
      Charted m bound longer fun p => work p.path { p with path := path }) :
    Charted m bound path fun p => Printer.extend p.tree p.path frames >>= fun longer => work longer p := by
  cases entered : Printer.extend m.tree path frames with
  | error e =>
    refine ⟨.within frames (.done (.error e)), fun _ longer same => ?_, fun print => ?_⟩
    · exact nomatch entered.symm.trans same
    · simp only [Printer.tree, Course.run, entered]
      rfl
  | ok longer =>
    obtain ⟨course, descends, runs⟩ := inner longer entered
    refine ⟨.within frames course, fun told other same => ?_, fun print => ?_⟩
    · obtain rfl := Except.ok.inj (entered.symm.trans same)
      exact descends told
    · simp only [Printer.tree, Course.run, entered]
      exact runs print

theorem visit {id : NodeId} {edge : Option Edge}
    (lower : m.tree.TellsIndex → id ∉ path.map Frame.id → Path.rank m.tree (⟨id, edge⟩ :: path) < bound) :
    Charted m bound path fun p => p.printAt p.path id edge :=
  ⟨.visit id edge, lower, fun _ => rfl⟩

theorem outward (nonempty : path ≠ []) (charted : Charted m bound path.tail work) :
    Charted m bound path fun p => work p.outward := by
  obtain ⟨course, descends, runs⟩ := charted
  refine ⟨.around course, descends, fun print => ?_⟩
  rw [Course.run, if_neg (by simpa using nonempty)]
  exact runs print

/-! ### Moving to fields -/

theorem printValue {edge : Edge} {value : Value}
    (lower : m.tree.TellsIndex → ∀ id, Path.rank m.tree (⟨id, some edge⟩ :: path) < bound) :
    Charted m bound path fun p => p.printValue p.path edge value := by
  cases value with
  | node id => exact visit fun told _ => lower told id
  | _ => exact still fun _ => rfl

theorem printItems {owner : NodeId} {slot : UInt16} (items : List Value) (index : Nat) {before : Path}
    (lower : ∀ id index, Path.rank m.tree (⟨id, some ⟨owner, slot, some index⟩⟩ :: path) < bound) :
    Charted m bound path fun p => Printer.printItems { p with path := before } p.path owner slot index items := by
  induction items generalizing index with
  | nil => exact still fun _ => rfl
  | cons item items ih =>
    exact (printValue fun _ id => lower id index).bind fun doc => (ih (index + 1)).bind fun docs => still fun _ => rfl

theorem withItems {owner : NodeId} {slot : UInt16} (items : List Value) (index : Nat) {before : Path}
    (inner : ∀ index id deeper, Printer.extend m.tree path [⟨id, some ⟨owner, slot, some index⟩⟩] = .ok deeper →
      Charted m bound deeper work) :
    Charted m bound path fun p => Printer.withItems { p with path := before } p.path work owner slot index items := by
  induction items generalizing index with
  | nil => exact still fun _ => rfl
  | cons item items ih =>
    cases item with
    | node id =>
      have here : Charted m bound path fun p =>
          Printer.extend p.tree p.path [⟨id, some ⟨owner, slot, some index⟩⟩] >>= fun deeper => work { p with path := deeper } :=
        within _ (fun longer p => work { p with path := longer }) fun deeper entered => inner index id deeper entered
      have last (a : α) (rest : List α) : Charted m bound path fun _ => .ok (a :: rest) := still fun _ => rfl
      refine (here.bind fun a => (ih (index + 1)).bind fun rest => last a rest).congr fun print => ?_
      simp only [Printer.withItems, bind_assoc]
      rfl
    | _ => exact ih (index + 1)

theorem print_of_rank {names : List String}
    (lower : m.tree.TellsIndex → ∀ d longer id, (Printer.idle m path).destination? names = some d →
      Printer.extend m.tree path d.frames = .ok longer → Path.rank m.tree (⟨id, some ⟨d.owner, d.slot, none⟩⟩ :: longer) < bound) :
    Charted m bound path (·.print names) := by
  cases leads : (Printer.idle m path).destination? names with
  | none => exact still fun print => by simp only [Printer.print, Printer.led leads]
  | some d =>
    refine (within d.frames (fun longer p => p.printValue longer ⟨d.owner, d.slot, none⟩ d.value)
      fun longer entered => printValue fun told id => lower told d longer id leads entered).congr fun print => ?_
    simp only [Printer.print, Printer.led leads]

end Charted

namespace Printer

variable {tree : Tree} {frames : List Frame}

/-- A printer is at a node that ranks no higher than a bound. -/
structure Ready (m : Manuscript) (bound : Nat) (path : Path) : Prop where
  standing : Path.Standing path
  enough : Path.rank m.tree path ≤ bound

theorem nodup_of_extend {path longer : Path}
    (entered : extend tree path frames = .ok longer) (nodup : (path.map Frame.id).Nodup) : (longer.map Frame.id).Nodup := by
  induction frames generalizing path with
  | nil =>
    cases entered
    exact nodup
  | cons frame frames ih =>
    simp only [extend] at entered
    split at entered
    · cases entered
    · next unmet => exact ih entered (List.nodup_cons.mpr ⟨by simpa using unmet, nodup⟩)

theorem suffix_of_extend {path longer : Path}
    (entered : extend tree path frames = .ok longer) : path <:+ longer :=
  ⟨frames.reverse, (extend_eq entered).symm⟩

theorem lt_size_of_follow? {owner : NodeId} {names : List String} {d : Destination}
    (leads : follow? tree owner frames names = some d) : owner < tree.size := by
  by_contra outside
  have empty : tree.node owner = {} := by
    rw [Tree.node, Array.getElem?_eq_none (Nat.le_of_not_lt outside)]
    rfl
  cases names with
  | nil => cases leads
  | cons name names => simp [follow?, empty, Node.slot?] at leads

namespace Ready

variable {α : Type} {m : Manuscript} {bound : Nat} {path : Path} (ready : Ready m bound path)
include ready

theorem rank_lt {names : List String} {d : Destination} (leads : (idle m path).destination? names = some d) {frame : Frame}
    {longer : Path} (suffix : path <:+ longer) : Path.rank m.tree (frame :: longer) < bound := by
  refine Nat.lt_of_lt_of_le (ready.standing.rank_lt suffix fun first at_end => ?_) ready.enough
  have inside : current (idle m path) < m.tree.size := lt_size_of_follow? leads
  simpa [current, Option.mem_def.mp at_end] using inside

theorem entered {names : List String} {d : Destination} (leads : (idle m path).destination? names = some d) {frame : Frame}
    {longer deeper : Path} (suffix : path <:+ longer) (nodup : (longer.map Frame.id).Nodup)
    (here : extend m.tree longer [frame] = .ok deeper) : Ready m bound deeper := by
  have same : deeper = frame :: longer := extend_eq here
  subst same
  exact ⟨⟨List.cons_ne_nil _ _, nodup_of_extend here nodup⟩, (ready.rank_lt leads suffix).le⟩

theorem print (names : List String) : Charted m bound path (·.print names) :=
  .print_of_rank fun _ _ _ _ leads entered => ready.rank_lt leads (suffix_of_extend entered)

theorem printEach (names : List String) : Charted m bound path (·.printEach names) := by
  cases leads : (idle m path).destination? names with
  | none => exact .still fun print => by simp only [Printer.printEach, led leads]
  | some d =>
    obtain ⟨frames, owner, slot, value⟩ := d
    cases value with
    | array items =>
      refine (Charted.within frames (fun longer p => p.printItems longer owner slot 0 items) fun longer entered =>
        .printItems items 0 fun id index => ready.rank_lt leads (suffix_of_extend entered)).congr fun print => ?_
      simp only [Printer.printEach, led leads]
    | _ => exact .still fun print => by simp only [Printer.printEach, led leads]

theorem withNode (names : List String) {work : Printer → Outcome α}
    (inner : ∀ deeper, Ready m bound deeper → Charted m bound deeper work) :
    Charted m bound path (·.withNode names work) := by
  cases leads : (idle m path).destination? names with
  | none => exact .still fun print => by simp only [Printer.withNode, led leads]
  | some d =>
    obtain ⟨frames, owner, slot, value⟩ := d
    cases value with
    | node id =>
      have below : ∀ deeper, extend m.tree path (frames ++ [⟨id, some ⟨owner, slot, none⟩⟩]) = .ok deeper →
          Ready m bound deeper := by
        intro deeper entered
        have same := extend_eq entered
        rw [List.reverse_append, List.reverse_singleton, List.singleton_append, List.cons_append] at same
        refine ⟨⟨by simp [same], nodup_of_extend entered ready.standing.nodup⟩, ?_⟩
        rw [same]
        exact (ready.rank_lt leads ⟨frames.reverse, rfl⟩).le
      refine (Charted.within _ (fun longer p => some <$> work { p with path := longer }) fun deeper entered =>
        (inner deeper (below deeper entered)).map some).congr fun print => ?_
      simp only [Printer.withNode, led leads]
    | _ => exact .still fun print => by simp only [Printer.withNode, led leads]

theorem withNodes (names : List String) {work : Printer → Outcome α}
    (inner : ∀ deeper, Ready m bound deeper → Charted m bound deeper work) :
    Charted m bound path (·.withNodes names work) := by
  cases leads : (idle m path).destination? names with
  | none => exact .still fun print => by simp only [Printer.withNodes, led leads]
  | some d =>
    obtain ⟨frames, owner, slot, value⟩ := d
    cases value with
    | array items =>
      refine (Charted.within frames (fun longer p => p.withItems longer work owner slot 0 items) fun longer entered =>
        .withItems items 0 fun index id deeper here => inner deeper (ready.entered leads (suffix_of_extend entered)
          (nodup_of_extend entered ready.standing.nodup) here)).congr fun print => ?_
      simp only [Printer.withNodes, led leads]
    | _ => exact .still fun print => by simp only [Printer.withNodes, led leads]

end Ready
end Printer
end ApexLayout
