import ApexLayout.Proofs.Occurrence.Edges
import Mathlib.Data.List.Perm.Subperm

/-!
What a survey finds in any tree, with or without cycles. An extent is made from a span that covers the extents below
that lead back to no node above them, and ends where extents below end (`Unites`).
-/
namespace ApexLayout

/-- The node occurs below the root, without a comment above it. -/
def Tree.Visited (t : Tree) : NodeId → Prop :=
  Relation.ReflTransGen (fun p d => t.isComment p = false ∧ t.Child p d) t.root

namespace Extents

open ApexLayout.Span

/-- The second node is reached from the first by occurrences, through nodes between them that are no
    comments and have no extent. -/
inductive Reaches (t : Tree) (e : Extents) (p : NodeId) : NodeId → Prop where
  | child {d : NodeId} (below : t.Child p d) : Reaches t e p d
  | through {m d : NodeId} (reached : Reaches t e p m) (plain : t.isComment m = false) (bare : e.get? m = none)
      (below : t.Child m d) : Reaches t e p d

/-- The second node is reached from the first by occurrences, through nodes between them that are no
    comments and have no extent, and none of these occurrences leads back to a node above it. -/
inductive Gathers (t : Tree) (e : Extents) (p : NodeId) : NodeId → Prop where
  | child {d : NodeId} (below : t.Child p d) (onward : ¬Relation.ReflTransGen t.Child d p) : Gathers t e p d
  | through {m d : NodeId} (gathered : Gathers t e p m) (plain : t.isComment m = false) (bare : e.get? m = none)
      (below : t.Child m d) (onward : ¬Relation.ReflTransGen t.Child d m) : Gathers t e p d

/-- The span over the extents of what a node holds, if there are any. -/
structure Unites (t : Tree) (e : Extents) (p : NodeId) (held : Option Span) : Prop where
  covers {d : NodeId} {a : Span} : Gathers t e p d → t.isComment d = false → e.get? d = some a → Within (some a) held
  start {u : Span} : held = some u →
    ∃ d a, Reaches t e p d ∧ t.isComment d = false ∧ e.get? d = some a ∧ a.start = u.start
  stop {u : Span} : held = some u →
    ∃ d a, Reaches t e p d ∧ t.isComment d = false ∧ e.get? d = some a ∧ a.stop = u.stop

theorem Reaches.above {t : Tree} {e : Extents} {p m d : NodeId} (below : t.Child p m) (plain : t.isComment m = false)
    (bare : e.get? m = none) (reaches : Reaches t e m d) : Reaches t e p d := by
  induction reaches with
  | child further => exact .through (.child below) plain bare further
  | through _ middle_plain middle_bare further ih => exact .through ih middle_plain middle_bare further

section
variable {t : Tree} {e : Extents} {p d : NodeId} {held other : Option Span}

theorem Reaches.gathers (acyclic : t.Acyclic) (reaches : Reaches t e p d) : Gathers t e p d := by
  have onward {m d : NodeId} (below : t.Child m d) (back : Relation.ReflTransGen t.Child d m) : False :=
    acyclic m (.head' below back)
  induction reaches with
  | child below => exact .child below (onward below)
  | through _ plain bare below ih => exact .through ih plain bare below (onward below)

theorem Unites.within (unites : Unites t e p held) (also : Unites t e p other) (acyclic : t.Acyclic) :
    Within held other := by
  intro u here
  obtain ⟨d, a, first, plain, extent, start⟩ := unites.start here
  obtain ⟨c, b, last, plain', extent', stop⟩ := unites.stop here
  obtain ⟨v, there, over_a⟩ := also.covers (first.gathers acyclic) plain extent a rfl
  obtain ⟨w, again, over_b⟩ := also.covers (last.gathers acyclic) plain' extent' b rfl
  obtain rfl : v = w := Option.some.inj (there.symm.trans again)
  rw [contains_iff] at over_a over_b
  exact ⟨v, there, contains_iff.mpr ⟨by omega, by omega⟩⟩

/-- In a tree without cycles there is only one such span. -/
theorem Unites.unique (unites : Unites t e p held) (also : Unites t e p other) (acyclic : t.Acyclic) : held = other := by
  have first := unites.within also acyclic
  have second := also.within unites acyclic
  rcases held with _ | u
  · rcases other with _ | v
    · rfl
    · obtain ⟨_, ⟨⟩, _⟩ := second v rfl
  · obtain ⟨v, rfl, outer⟩ := first u rfl
    obtain ⟨w, same, inner⟩ := second v rfl
    obtain rfl := Option.some.inj same
    rw [contains_iff] at outer inner
    obtain ⟨start, stop⟩ := u
    obtain ⟨start', stop'⟩ := v
    simp only at outer inner
    obtain rfl : start = start' := by omega
    obtain rfl : stop = stop' := by omega
    rfl

theorem Unites.of_only {a : Span} (below : t.Child p d) (only : ∀ c, t.Child p c → c = d) (plain : t.isComment d = false)
    (extent : e.get? d = some a) : Unites t e p (some a) := by
  have alone {c : NodeId} (gathers : Gathers t e p c) : c = d := by
    induction gathers with
    | child further _ => exact only _ further
    | through _ _ bare _ _ ih =>
      subst ih
      simp [extent] at bare
  refine ⟨fun gathers _ here => ?_, ?_, ?_⟩
  · obtain rfl := alone gathers
    rw [← here, extent]
    exact .refl _
  · rintro _ ⟨⟩
    exact ⟨d, a, .child below, plain, extent, rfl⟩
  · rintro _ ⟨⟩
    exact ⟨d, a, .child below, plain, extent, rfl⟩

end

namespace Survey

def Done (s : Survey) (id : NodeId) (part : Option Span) : Prop := s.progress[id]? = some (.done part)

def span? (s : Survey) (id : NodeId) : Option Span := (s.spans[id]?).getD none

def Extends (s later : Survey) : Prop := ∀ id part, s.Done id part → later.Done id part

theorem Extends.refl (s : Survey) : s.Extends s := fun _ _ done => done

theorem Extends.trans {a b c : Survey} (first : a.Extends b) (second : b.Extends c) : a.Extends c :=
  fun id part done => second id part (first id part done)

def Met (s : Survey) (id : NodeId) : Prop := s.progress[id]? ≠ some .pending

/-- The two ends of a span are those of what some of the nodes add. -/
def Attains (s : Survey) (held : Option Span) (among : NodeId → Prop) : Prop :=
  ∀ u, held = some u →
    (∃ d a, among d ∧ s.Done d (some a) ∧ a.start = u.start) ∧ ∃ d a, among d ∧ s.Done d (some a) ∧ a.stop = u.stop

variable {g : Ground} {path : List NodeId} {s later last : Survey} {id : NodeId} {held part span : Option Span}
  {among others : NodeId → Prop}

theorem path_length_le {t : Tree} (size : s.progress.size = t.size) (distinct : path.Nodup)
    (visiting : ∀ id ∈ path, s.progress[id]? = some .visiting) : path.length ≤ t.size := by
  have inside : path ⊆ List.range t.size := by
    intro id member
    have lt := (Array.getElem?_eq_some_iff.mp (visiting id member)).1
    rw [size] at lt
    exact List.mem_range.mpr lt
  simpa using (List.subperm_of_subset distinct inside).length_le

theorem getElem?_set! {α : Type} {xs : Array α} {i : Nat} (inside : i < xs.size) (x : α) (j : Nat) :
    (xs.set! i x)[j]? = if i = j then some x else xs[j]? := by
  simp [Array.getElem?_setIfInBounds, inside]

theorem met_set {state : Progress} (inside : id < s.progress.size) (known : state ≠ .pending)
    {spans : Array (Option Span)} {d : NodeId} (before : d = id ∨ s.Met d) :
    Met ⟨s.progress.set! id state, spans⟩ d := by
  simp only [Met, getElem?_set! inside]
  split
  · simpa using known
  · next differ => exact before.resolve_left (Ne.symm differ)

theorem Attains.mono (attains : s.Attains held among) (extends_ : s.Extends later) (more : ∀ d, among d → others d) :
    later.Attains held others := by
  intro u here
  obtain ⟨⟨d, a, inside, done, start⟩, e, b, also, finished, stop⟩ := attains u here
  exact ⟨⟨d, a, more d inside, extends_ d _ done, start⟩, e, b, more e also, extends_ e _ finished, stop⟩

theorem Attains.cover? {other : Option Span} (first : s.Attains held among) (second : s.Attains other among) :
    s.Attains (Span.cover? held other) among := by
  rcases held with _ | a
  · exact second
  · rcases other with _ | b
    · exact first
    · rintro _ ⟨⟩
      obtain ⟨start_a, stop_a⟩ := first a rfl
      obtain ⟨start_b, stop_b⟩ := second b rfl
      refine ⟨?_, ?_⟩
      · rcases Nat.le_total a.start b.start with le | le
        · rw [Span.cover, Nat.min_eq_left le]
          exact start_a
        · rw [Span.cover, Nat.min_eq_right le]
          exact start_b
      · rcases Nat.le_total a.stop b.stop with le | le
        · rw [Span.cover, Nat.max_eq_right le]
          exact stop_b
        · rw [Span.cover, Nat.max_eq_left le]
          exact stop_a

/-! ### What a survey keeps in any tree -/

/-- Below the first node, through nodes that are done and have no extent, the second one has the extent. -/
inductive Supplies (t : Tree) (s : Survey) : NodeId → NodeId → Span → Prop where
  | child {p d : NodeId} {a : Span} (below : t.Child p d) (plain : t.isComment d = false) (done : s.Done d (some a))
      (extent : s.span? d = some a) : Supplies t s p d a
  | through {p m d : NodeId} {part : Option Span} {a : Span} (below : t.Child p m) (plain : t.isComment m = false)
      (done : s.Done m part) (bare : s.span? m = none) (further : Supplies t s m d a) : Supplies t s p d a

/-- The survey has gone on: it keeps what it found, and the nodes it has come to. -/
structure Onward (s later : Survey) : Prop where
  done : s.Extends later
  span {id : NodeId} {part : Option Span} : s.Done id part → later.span? id = s.span? id
  met (id : NodeId) : s.Met id → later.Met id

/-- The extent of a node and what it adds are made from a span over what it holds. -/
structure Formed (g : Ground) (s : Survey) (id : NodeId) (held part span : Option Span) : Prop where
  extent : g.extent id held = .ok span
  part_eq : part = (span <|> held)
  covers (d : NodeId) : g.tree.Child id d → d < g.tree.size →
    (∃ inner, s.Done d inner ∧ Within inner held) ∨ Relation.ReflTransGen g.tree.Child d id ∧ s.Met d
  start (u : Span) : held = some u → ∃ d a, Supplies g.tree s id d a ∧ a.start = u.start
  stop (u : Span) : held = some u → ∃ d a, Supplies g.tree s id d a ∧ a.stop = u.stop

/-- The survey is lawful while the nodes of the path are being looked at. -/
structure Lawful (g : Ground) (path : List NodeId) (s : Survey) : Prop where
  progress_size : s.progress.size = g.tree.size
  spans_size : s.spans.size = g.tree.size
  distinct : path.Nodup
  visiting (id : NodeId) : s.progress[id]? = some .visiting ↔ id ∈ path
  comment {id : NodeId} {part : Option Span} : s.Done id part → g.tree.isComment id →
    part = none ∧ s.span? id = (g.tree.node id).location
  formed {id : NodeId} {part : Option Span} : s.Done id part → g.tree.isComment id = false →
    ∃ held, s.Formed g id held part (s.span? id)
  unsettled {id : NodeId} {a : Span} : s.span? id = some a → ∃ part, s.Done id part

theorem Onward.refl (s : Survey) : s.Onward s := ⟨.refl s, fun _ => rfl, fun _ met => met⟩

theorem Onward.trans (first : s.Onward later) (second : later.Onward last) : s.Onward last :=
  ⟨first.done.trans second.done, fun done => (second.span (first.done _ _ done)).trans (first.span done),
    fun id met => second.met id (first.met id met)⟩

theorem Supplies.mono {p d : NodeId} {a : Span} (supplies : Supplies g.tree s p d a) (onward : s.Onward later) :
    Supplies g.tree later p d a := by
  induction supplies with
  | child below plain done extent => exact .child below plain (onward.done _ _ done) ((onward.span done).trans extent)
  | through below plain done bare _ ih =>
    exact .through below plain (onward.done _ _ done) ((onward.span done).trans bare) ih

theorem Formed.mono (formed : s.Formed g id held part span) (onward : s.Onward later) :
    later.Formed g id held part span := by
  refine ⟨formed.extent, formed.part_eq, fun d child inside => ?_, fun u here => ?_, fun u here => ?_⟩
  · refine (formed.covers d child inside).imp ?_ (And.imp_right (onward.met d))
    rintro ⟨inner, done, within⟩
    exact ⟨inner, onward.done d inner done, within⟩
  · obtain ⟨d, a, supplies, same⟩ := formed.start u here
    exact ⟨d, a, supplies.mono onward, same⟩
  · obtain ⟨d, a, supplies, same⟩ := formed.stop u here
    exact ⟨d, a, supplies.mono onward, same⟩

/-- What a child adds is the extent of the child, or comes from further below. -/
theorem Lawful.supplies (lawful : s.Lawful g path) {p d : NodeId} {a : Span} (child : g.tree.Child p d)
    (done : s.Done d (some a)) :
    (∃ e b, Supplies g.tree s p e b ∧ b.start = a.start) ∧ ∃ e b, Supplies g.tree s p e b ∧ b.stop = a.stop := by
  cases plain : g.tree.isComment d with
  | true => cases (lawful.comment done plain).1
  | false =>
    obtain ⟨held, formed⟩ := lawful.formed done plain
    have same := formed.part_eq
    cases span : s.span? d with
    | some b =>
      obtain rfl : a = b := by simpa [span] using same
      exact ⟨⟨d, a, .child child plain done span, rfl⟩, d, a, .child child plain done span, rfl⟩
    | none =>
      obtain rfl : held = some a := by simpa [span] using same.symm
      obtain ⟨e, b, start, first⟩ := formed.start a rfl
      obtain ⟨f, c, stop, second⟩ := formed.stop a rfl
      exact ⟨⟨e, b, .through child plain done span start, first⟩, f, c, .through child plain done span stop, second⟩

theorem done_start (pending : s.progress[id]? = some .pending) {j : NodeId} :
    Done ⟨s.progress.set! id .visiting, s.spans⟩ j part ↔ s.Done j part := by
  simp only [Done, getElem?_set! (Array.getElem?_eq_some_iff.mp pending).1]
  split
  · next here => simp [← here, pending]
  · rfl

theorem Lawful.start (lawful : s.Lawful g path) (pending : s.progress[id]? = some .pending) :
    Lawful g (id :: path) ⟨s.progress.set! id .visiting, s.spans⟩ ∧
      s.Onward ⟨s.progress.set! id .visiting, s.spans⟩ := by
  have inside : id < s.progress.size := (Array.getElem?_eq_some_iff.mp pending).1
  have absent : id ∉ path := fun member => by simp [(lawful.visiting id).mpr member] at pending
  have onward : s.Onward ⟨s.progress.set! id .visiting, s.spans⟩ :=
    ⟨fun _ _ => (done_start pending).mpr, fun _ => rfl, fun j met => met_set inside (by simp) (.inr met)⟩
  refine ⟨⟨by simp [lawful.progress_size], lawful.spans_size, List.nodup_cons.mpr ⟨absent, lawful.distinct⟩, ?_, ?_, ?_, ?_⟩,
    onward⟩
  · intro j
    simp only [getElem?_set! inside, List.mem_cons]
    split
    · next here => simp [here]
    · next other => simpa [Ne.symm other] using lawful.visiting j
  · exact fun done => lawful.comment ((done_start pending).mp done)
  · intro j part done plain
    obtain ⟨held, formed⟩ := lawful.formed ((done_start pending).mp done) plain
    exact ⟨held, formed.mono onward⟩
  · intro j a there
    obtain ⟨part, done⟩ := lawful.unsettled there
    exact ⟨part, (done_start pending).mpr done⟩

theorem Lawful.inside (lawful : s.Lawful g (id :: path)) : id < s.progress.size :=
  (Array.getElem?_eq_some_iff.mp ((lawful.visiting id).mpr List.mem_cons_self)).1

/-- A node that is done after another is the other one, or was done before. -/
theorem Lawful.done_finish (lawful : s.Lawful g (id :: path)) {spans : Array (Option Span)} {j : NodeId}
    {inner : Option Span} :
    Done ⟨s.progress.set! id (.done part), spans⟩ j inner ↔ id = j ∧ part = inner ∨ id ≠ j ∧ s.Done j inner := by
  simp only [Done, getElem?_set! lawful.inside]
  split
  · next here => simp [here]
  · next differ => simp [differ]

theorem Lawful.span?_finish (lawful : s.Lawful g (id :: path)) (progress : Array Progress) (span : Option Span)
    (j : NodeId) : span? ⟨progress, s.spans.set! id span⟩ j = if id = j then span else s.span? j := by
  have inside : id < s.spans.size := by
    rw [lawful.spans_size, ← lawful.progress_size]
    exact lawful.inside
  simp only [span?, getElem?_set! inside]
  split
  · rfl
  · rfl

theorem Lawful.finish (lawful : s.Lawful g (id :: path))
    (comment : g.tree.isComment id → part = none ∧ span = (g.tree.node id).location)
    (formed : g.tree.isComment id = false → ∃ held, s.Formed g id held part span) :
    Lawful g path ⟨s.progress.set! id (.done part), s.spans.set! id span⟩ ∧
      s.Onward ⟨s.progress.set! id (.done part), s.spans.set! id span⟩ ∧
      Done ⟨s.progress.set! id (.done part), s.spans.set! id span⟩ id part := by
  set later : Survey := ⟨s.progress.set! id (.done part), s.spans.set! id span⟩ with later_is
  obtain ⟨absent, distinct⟩ := List.nodup_cons.mp lawful.distinct
  have spans : ∀ j, later.span? j = if id = j then span else s.span? j := lawful.span?_finish _ span
  have other {j : NodeId} {inner : Option Span} (done : s.Done j inner) : id ≠ j := by
    rintro rfl
    simp [Done, (lawful.visiting id).mpr List.mem_cons_self] at done
  have onward : s.Onward later := by
    refine ⟨fun j inner done => lawful.done_finish.mpr (.inr ⟨other done, done⟩), fun done => ?_,
      fun j met => met_set lawful.inside (by simp) (.inr met)⟩
    rw [spans, if_neg (other done)]
  have here : later.Done id part := lawful.done_finish.mpr (.inl ⟨rfl, rfl⟩)
  refine ⟨⟨by simp [later_is, lawful.progress_size], by simp [later_is, lawful.spans_size], distinct, ?_, ?_, ?_, ?_⟩, onward,
    here⟩
  · intro j
    simp only [later_is, getElem?_set! lawful.inside]
    split
    · next here => simp [← here, absent]
    · next differ => simpa [Ne.symm differ] using lawful.visiting j
  · intro j inner done is_comment
    rcases lawful.done_finish.mp done with ⟨rfl, rfl⟩ | ⟨differ, done⟩
    · simpa [spans] using comment is_comment
    · simpa [spans, differ] using lawful.comment done is_comment
  · intro j inner done plain
    rcases lawful.done_finish.mp done with ⟨rfl, rfl⟩ | ⟨differ, done⟩
    · obtain ⟨held, formed⟩ := formed plain
      exact ⟨held, by simpa [spans] using formed.mono onward⟩
    · obtain ⟨held, formed⟩ := lawful.formed done plain
      exact ⟨held, by simpa [spans, differ] using formed.mono onward⟩
  · intro j a there
    by_cases same : id = j
    · exact ⟨part, same ▸ here⟩
    · rw [spans, if_neg same] at there
      obtain ⟨inner, done⟩ := lawful.unsettled there
      exact ⟨inner, onward.done j inner done⟩

end Survey

/-! ### A survey of any tree, step by step -/

section
variable {g : Ground} {path : List NodeId} {visit : NodeId → Survey → Outcome (Option Span × Survey)}

/-- A visit to a node keeps the survey lawful. The node is done then, unless it is on the path. -/
def Finds (g : Ground) (path : List NodeId) (visit : NodeId → Survey → Outcome (Option Span × Survey)) (id : NodeId) :
    Prop :=
  ∀ s later part, visit id s = .ok (part, later) → s.Lawful g path →
    later.Lawful g path ∧ s.Onward later ∧ (∀ a, part = some a → later.Done id part) ∧
      (id < g.tree.size → later.Done id part ∨ id ∈ path)

def Accounts (g : Ground) (path : List NodeId) (later : Survey) (held : Option Span) (among : NodeId → Prop) : Prop :=
  ∀ d, among d → d < g.tree.size → (∃ inner, later.Done d inner ∧ Within inner held) ∨ d ∈ path

theorem Accounts.mono {s later : Survey} {part held : Option Span} {among : NodeId → Prop}
    (accounts : Accounts g path s part among) (onward : s.Onward later) (within : Within part held) :
    Accounts g path later held among := by
  intro d inside in_tree
  refine (accounts d inside in_tree).imp_left ?_
  rintro ⟨inner, done, narrow⟩
  exact ⟨inner, onward.done d inner done, narrow.trans within⟩

mutual
theorem surveyValue_lawful (value : Value) {s later : Survey} {held : Option Span} (lawful : s.Lawful g path)
    (ok : surveyValue visit value s = .ok (held, later)) (finds : ∀ d, Holds value d → Finds g path visit d) :
    later.Lawful g path ∧ s.Onward later ∧ Accounts g path later held (Holds value) ∧ later.Attains held (Holds value) := by
  cases value with
  | node id =>
    rw [surveyValue] at ok
    obtain ⟨after, onward, added, done⟩ := finds id (.node id) s later held ok lawful
    refine ⟨after, onward, fun d holds inside => ?_, fun u here => ?_⟩
    · cases holds
      exact (done inside).imp_left fun finished => ⟨held, finished, .refl held⟩
    · have finished := here ▸ added u here
      exact ⟨⟨id, u, .node id, finished, rfl⟩, id, u, .node id, finished, rfl⟩
  | array items =>
    rw [surveyValue] at ok
    obtain ⟨after, onward, accounts, attains⟩ := surveyValues_lawful items lawful ok
      fun item member d holds => finds d (.array member holds)
    refine ⟨after, onward, fun d holds => ?_, attains.mono (.refl _) ?_⟩
    · cases holds with
      | array member inner => exact accounts d ⟨_, member, inner⟩
    · rintro d ⟨item, member, inner⟩
      exact .array member inner
  | _ =>
    cases ok
    exact ⟨lawful, .refl s, fun d holds => (by cases holds), fun u here => (by cases here)⟩
theorem surveyValues_lawful (values : List Value) {s later : Survey} {held : Option Span} (lawful : s.Lawful g path)
    (ok : surveyValues visit values s = .ok (held, later))
    (finds : ∀ value ∈ values, ∀ d, Holds value d → Finds g path visit d) :
    later.Lawful g path ∧ s.Onward later ∧ Accounts g path later held (fun d => ∃ value ∈ values, Holds value d) ∧
      later.Attains held fun d => ∃ value ∈ values, Holds value d := by
  cases values with
  | nil =>
    cases ok
    exact ⟨lawful, .refl s, by simp [Accounts], fun u here => by cases here⟩
  | cons value values =>
    simp only [surveyValues, bind_eq_ok, pure_eq_ok] at ok
    obtain ⟨⟨first, between⟩, here, ⟨rest, last⟩, others, same⟩ := ok
    obtain ⟨rfl, rfl⟩ : Span.cover? first rest = held ∧ last = later := by simpa using same
    obtain ⟨middle, onward, accounts, attains⟩ :=
      surveyValue_lawful value lawful here (finds value List.mem_cons_self)
    obtain ⟨after, further, later_accounts, later_attains⟩ := surveyValues_lawful values middle others
      fun other member => finds other (List.mem_cons_of_mem _ member)
    refine ⟨after, onward.trans further, ?_, .cover? (attains.mono further.done ?_) (later_attains.mono (.refl _) ?_)⟩
    · rintro d ⟨other, member, holds⟩
      rcases List.mem_cons.mp member with rfl | late
      · exact accounts.mono further (within_cover?_left first rest) d holds
      · exact later_accounts.mono (.refl _) (within_cover?_right first rest) d ⟨other, late, holds⟩
    · exact fun d holds => ⟨value, List.mem_cons_self, holds⟩
    · rintro d ⟨other, late, holds⟩
      exact ⟨other, List.mem_cons_of_mem _ late, holds⟩
end

/-- The extent of a node is formed from the span over what its fields hold. -/
theorem Ground.formed_of_accounts {id : NodeId} {held span : Option Span} {s : Survey}
    (lawful : s.Lawful g (id :: path)) (above : ∀ a ∈ path, Relation.TransGen g.tree.Child a id)
    (extent : g.extent id held = .ok span)
    (accounts : Accounts g (id :: path) s held fun d => ∃ value ∈ (g.tree.node id).fields.map (·.2), Holds value d)
    (attains : s.Attains held fun d => ∃ value ∈ (g.tree.node id).fields.map (·.2), Holds value d) :
    s.Formed g id held (span <|> held) span := by
  refine ⟨extent, rfl, fun d child inside => ?_, fun u here => ?_, fun u here => ?_⟩
  · refine (accounts d (child_iff.mp child) inside).imp_right fun on_path => ⟨?_, ?_⟩
    · rcases List.mem_cons.mp on_path with rfl | further
      · exact .refl
      · exact (above d further).to_reflTransGen
    · intro pending
      simp [(lawful.visiting d).mpr on_path] at pending
  · obtain ⟨⟨d, a, held_by, done, same⟩, -⟩ := attains u here
    obtain ⟨⟨e, b, supplies, first⟩, -⟩ := lawful.supplies (child_iff.mpr held_by) done
    exact ⟨e, b, supplies, first.trans same⟩
  · obtain ⟨-, d, a, held_by, done, same⟩ := attains u here
    obtain ⟨-, e, b, supplies, second⟩ := lawful.supplies (child_iff.mpr held_by) done
    exact ⟨e, b, supplies, second.trans same⟩

/-- A survey of any tree stays lawful. -/
theorem survey_finds (g : Ground) (bound : Nat) :
    ∀ (path : List NodeId) (id : NodeId), bound + path.length = g.tree.size + 1 →
      (∀ a ∈ path, Relation.TransGen g.tree.Child a id) → Finds g path (survey g bound) id := by
  induction bound with
  | zero =>
    intro path id length _ s later part _ lawful
    have := Survey.path_length_le lawful.progress_size lawful.distinct fun id => (lawful.visiting id).mpr
    omega
  | succ bound ih =>
    intro path id length above s later part ok lawful
    unfold survey at ok
    split at ok
    · next found =>
      cases ok
      have done : s.Done id part := by grind [Survey.Done]
      exact ⟨lawful, .refl s, fun _ _ => done, fun _ => .inl done⟩
    · next found =>
      cases ok
      refine ⟨lawful, .refl s, fun a added => (by cases added), fun inside => .inr ?_⟩
      rw [← lawful.progress_size] at inside
      have visiting : s.progress[id]? = some .visiting := by grind
      exact (lawful.visiting id).mp visiting
    · next found =>
      have pending : s.progress[id]? = some .pending := by grind
      obtain ⟨started, kept⟩ := lawful.start pending
      split at ok
      · next comment =>
        cases ok
        have unformed : g.tree.isComment id = false → ∃ held, Survey.Formed g ⟨s.progress.set! id .visiting, s.spans⟩ id
            held none (g.tree.node id).location := fun plain => absurd comment (by simp [plain])
        obtain ⟨after, onward, done⟩ := started.finish (fun _ => ⟨rfl, rfl⟩) unformed
        exact ⟨after, kept.trans onward, fun _ _ => done, fun _ => .inl done⟩
      · next plain =>
        simp only [bind_eq_ok, pure_eq_ok] at ok
        obtain ⟨⟨held, middle⟩, walked, span, extent, same⟩ := ok
        cases same
        have below : ∀ value ∈ (g.tree.node id).fields.map (·.2), ∀ d, Holds value d →
            Finds g (id :: path) (survey g bound) d := by
          intro value member d holds
          have child : g.tree.Child id d := child_iff.mpr ⟨value, member, holds⟩
          exact ih (id :: path) d (by simp; omega) (above_cons above child)
        obtain ⟨walked_lawful, onward, accounts, attains⟩ := surveyValues_lawful _ started walked below
        have formed := Ground.formed_of_accounts walked_lawful above extent accounts attains
        obtain ⟨after, last, done⟩ := walked_lawful.finish (fun comment => absurd comment plain) fun _ => ⟨held, formed⟩
        exact ⟨after, (kept.trans onward).trans last, fun _ _ => done, fun _ => .inl done⟩

end

/-! ### Extents of any tree -/

theorem Survey.lawful_initial (g : Ground) :
    Survey.Lawful g [] ⟨Array.replicate g.tree.size .pending, Array.replicate g.tree.size none⟩ := by
  have none_done (id : NodeId) (part : Option Span) :
      ¬ Survey.Done ⟨Array.replicate g.tree.size .pending, Array.replicate g.tree.size none⟩ id part := by
    simp [Survey.Done, Array.getElem?_replicate]
  refine ⟨by simp, by simp, by simp, fun id => ?_, fun done => absurd done (none_done _ _),
    fun done => absurd done (none_done _ _), fun there => ?_⟩
  · simp [Array.getElem?_replicate]
  · simp only [Survey.span?, Array.getElem?_replicate] at there
    split at there <;> cases there

namespace Survey

variable {g : Ground} {s : Survey} {p : NodeId}

theorem Lawful.done_of_met (lawful : s.Lawful g []) {id : NodeId} (inside : id < g.tree.size) (met : s.Met id) :
    ∃ part, s.Done id part := by
  rw [← lawful.progress_size] at inside
  cases found : s.progress[id] with
  | pending => exact absurd (Array.getElem?_eq_some_iff.mpr ⟨inside, found⟩) met
  | visiting => exact absurd ((lawful.visiting id).mp (Array.getElem?_eq_some_iff.mpr ⟨inside, found⟩)) List.not_mem_nil
  | done part => exact ⟨part, Array.getElem?_eq_some_iff.mpr ⟨inside, found⟩⟩

theorem Lawful.done_of_visited (lawful : s.Lawful g []) (root : g.tree.root < g.tree.size → ∃ part, s.Done g.tree.root part)
    {id : NodeId} (visited : g.tree.Visited id) (inside : id < g.tree.size) : ∃ part, s.Done id part := by
  induction visited with
  | refl => exact root inside
  | tail _ step ih =>
    obtain ⟨plain, child⟩ := step
    obtain ⟨part, done⟩ := ih (child_size child)
    obtain ⟨held, formed⟩ := lawful.formed done plain
    rcases formed.covers _ child inside with ⟨inner, finished, -⟩ | ⟨-, met⟩
    · exact ⟨inner, finished⟩
    · exact lawful.done_of_met inside met

theorem Supplies.reaches {d : NodeId} {a : Span} (supplies : Supplies g.tree s p d a) :
    Reaches g.tree ⟨s.spans⟩ p d ∧ g.tree.isComment d = false ∧ s.span? d = some a := by
  induction supplies with
  | child below plain _ extent => exact ⟨.child below, plain, extent⟩
  | through below plain _ bare _ ih => exact ⟨.above below plain bare ih.1, ih.2⟩

/-- What a gathered node adds lies within the span over what the node above holds. -/
theorem Lawful.within_of_gathers (lawful : s.Lawful g []) {d : NodeId} {held part span : Option Span}
    (formed : s.Formed g p held part span) (gathers : Gathers g.tree ⟨s.spans⟩ p d) (inside : d < g.tree.size) :
    ∃ inner, s.Done d inner ∧ Within inner held := by
  induction gathers with
  | child below onward => exact (formed.covers _ below inside).resolve_right fun ⟨back, _⟩ => onward back
  | through _ plain bare below onward ih =>
    obtain ⟨part, done, within⟩ := ih (child_size below)
    obtain ⟨between, middle⟩ := lawful.formed done plain
    obtain ⟨inner, finished, narrow⟩ := (middle.covers _ below inside).resolve_right fun ⟨back, _⟩ => onward back
    -- A node without extent adds what it holds.
    have same : part = between := by
      have bare : s.span? _ = none := bare
      simpa [bare] using middle.part_eq
    exact ⟨inner, finished, narrow.trans (same ▸ within)⟩

theorem Lawful.unites (lawful : s.Lawful g []) {held part span : Option Span}
    (formed : s.Formed g p held part span) : Unites g.tree ⟨s.spans⟩ p held := by
  refine ⟨fun {d a} gathers plain extent => ?_, fun {u} here => ?_, fun {u} here => ?_⟩
  · have inside : d < g.tree.size := by
      rw [← lawful.spans_size]
      by_contra outside
      have missing : s.spans[d]? = none := Array.getElem?_eq_none (Nat.le_of_not_lt outside)
      simp [get?, missing] at extent
    obtain ⟨inner, done, within⟩ := lawful.within_of_gathers formed gathers inside
    obtain ⟨_, own⟩ := lawful.formed done plain
    have span : s.span? d = some a := extent
    obtain rfl : inner = some a := by simpa [span] using own.part_eq
    exact within
  · obtain ⟨d, a, supplies, same⟩ := formed.start u here
    obtain ⟨reaches, plain, extent⟩ := supplies.reaches
    exact ⟨d, a, reaches, plain, extent, same⟩
  · obtain ⟨d, a, supplies, same⟩ := formed.stop u here
    obtain ⟨reaches, plain, extent⟩ := supplies.reaches
    exact ⟨d, a, reaches, plain, extent, same⟩

end Survey

/-- The extents of a tree are those of a lawful survey that has come to the root. -/
theorem exists_lawful {tree : Tree} {source : String} {comments : List Span} {e : Extents}
    (ok : ofTree tree source comments = .ok e) :
    ∃ s : Survey, e = ⟨s.spans⟩ ∧ s.Lawful ⟨tree, source, comments⟩ [] ∧
      (tree.root < tree.size → ∃ part, s.Done tree.root part) := by
  simp only [ofTree, bind_eq_ok, pure_eq_ok] at ok
  obtain ⟨⟨_, s⟩, surveyed, rfl⟩ := ok
  obtain ⟨lawful, -, -, root⟩ := survey_finds ⟨tree, source, comments⟩ _ [] tree.root rfl (by simp) _ _ _ surveyed
    (Survey.lawful_initial ⟨tree, source, comments⟩)
  exact ⟨s, rfl, lawful, fun inside => ⟨_, (root inside).resolve_right List.not_mem_nil⟩⟩

/-- The extent of a node that is visited is made from the span over the extents of what it holds. -/
theorem ofTree_unites {tree : Tree} {source : String} {comments : List Span} {e : Extents}
    (ok : ofTree tree source comments = .ok e) {id : NodeId} (visited : tree.Visited id) (inside : id < tree.size)
    (plain : tree.isComment id = false) :
    ∃ held, Unites tree e id held ∧ Ground.extent ⟨tree, source, comments⟩ id held = .ok (e.get? id) := by
  obtain ⟨s, rfl, lawful, root⟩ := exists_lawful ok
  obtain ⟨part, done⟩ := lawful.done_of_visited root visited inside
  obtain ⟨held, formed⟩ := lawful.formed done plain
  exact ⟨held, lawful.unites formed, formed.extent⟩

end Extents
end ApexLayout
