import ApexLayout.Proofs.Extent.Containment
import Mathlib.Dynamics.FixedPoints.Basic
import Mathlib.Data.Finset.Card

/-!
Extents by plain recursion, where a node is looked at again at each place at which it stands. In a tree without cycles
a survey, which looks at a node once, comes to the same answers (`ofTree_eq_recursion`).
-/
namespace ApexLayout.Extents

/-- What is found for a node: its extent, and what it adds to what is around it. -/
structure Finding where
  span : Option Span
  part : Option Span

mutual
/-- The span over what the nodes in a value add. -/
def heldIn (find : NodeId → Outcome Finding) : Value → Outcome (Option Span)
  | .node id => Finding.part <$> find id
  | .array items => heldInAll find items
  | _ => .ok none
def heldInAll (find : NodeId → Outcome Finding) : List Value → Outcome (Option Span)
  | [] => .ok none
  | value :: values => do
    let first ← heldIn find value
    let rest ← heldInAll find values
    return Span.cover? first rest
end

/-- What is found for a node, given what is found for the nodes in its fields. -/
def Ground.recurse (g : Ground) (find : NodeId → Outcome Finding) (id : NodeId) : Outcome Finding :=
  if g.tree.isComment id then .ok ⟨(g.tree.node id).location, none⟩
  else do
    let held ← heldInAll find ((g.tree.node id).fields.map (·.2))
    let span ← g.extent id held
    return ⟨span, span <|> held⟩

variable {g : Ground} {find other : NodeId → Outcome Finding} {id p d : NodeId} {path : List NodeId} {s later : Survey}

/-! ### The recursion has an answer -/

mutual
theorem heldIn_congr (value : Value) (same : ∀ d, Holds value d → find d = other d) :
    heldIn find value = heldIn other value := by
  cases value with
  | node id => rw [heldIn, heldIn, same id (.node id)]
  | array items =>
    rw [heldIn, heldIn]
    exact heldInAll_congr items fun item member d holds => same d (.array member holds)
  | _ => rfl
theorem heldInAll_congr (values : List Value) (same : ∀ value ∈ values, ∀ d, Holds value d → find d = other d) :
    heldInAll find values = heldInAll other values := by
  cases values with
  | nil => rfl
  | cons value values =>
    rw [heldInAll, heldInAll, heldIn_congr value (same value List.mem_cons_self),
      heldInAll_congr values fun item member => same item (List.mem_cons_of_mem _ member)]
end

theorem Ground.recurse_congr (same : ∀ d, g.tree.Child id d → find d = other d) :
    g.recurse find id = g.recurse other id := by
  rw [recurse, recurse, heldInAll_congr _ fun value member d holds => same d (child_iff.mpr ⟨value, member, holds⟩)]

section
open Classical

/-- The number of nodes that are reached from a node. -/
noncomputable def rank (t : Tree) (id : NodeId) : Nat :=
  ((Finset.range t.size).filter (Relation.ReflTransGen t.Child id)).card

theorem rank_le (t : Tree) (id : NodeId) : rank t id ≤ t.size := by
  have few := Finset.card_filter_le (Finset.range t.size) (Relation.ReflTransGen t.Child id)
  rwa [Finset.card_range] at few

theorem rank_lt {t : Tree} (acyclic : t.Acyclic) (child : t.Child p d) : rank t d < rank t p := by
  refine Finset.card_lt_card (Finset.ssubset_iff_of_subset ?_ |>.mpr ⟨p, ?_, ?_⟩)
  · exact Finset.monotone_filter_right _ fun e _ reached => .head child reached
  · exact Finset.mem_filter.mpr ⟨Finset.mem_range.mpr (child_size child), .refl⟩
  · intro back
    exact acyclic p (.head' child (Finset.mem_filter.mp back).2)

end

/-- As many steps as nodes are reached settle what is found for a node. -/
theorem Ground.iterate_settled (acyclic : g.tree.Acyclic) (n : Nat) (enough : rank g.tree id < n) :
    g.recurse^[n + 1] find id = g.recurse^[n] find id := by
  induction n generalizing id with
  | zero => omega
  | succ n ih =>
    simp only [Function.iterate_succ_apply'] at ih ⊢
    refine recurse_congr fun d child => ?_
    have less := rank_lt acyclic child
    exact ih (by omega)

theorem Ground.exists_fixed (acyclic : g.tree.Acyclic) : ∃ find, Function.IsFixedPt g.recurse find := by
  refine ⟨g.recurse^[g.tree.size + 1] fun _ => .ok ⟨none, none⟩, funext fun id => ?_⟩
  rw [← Function.iterate_succ_apply' g.recurse]
  exact iterate_settled acyclic _ (Nat.lt_succ_of_le (rank_le g.tree id))

/-! ### A survey follows the recursion -/

/-- What the survey has found is what the recursion finds. -/
def Survey.Agrees (s : Survey) (find : NodeId → Outcome Finding) : Prop :=
  ∀ id part, s.Done id part → find id = .ok ⟨s.span? id, part⟩

/-- Part of a survey ends as expected, with the same error or the same span, and what is found by then is what the
    recursion finds. -/
structure Ends (find : NodeId → Outcome Finding) (expected : Outcome (Option Span))
    (outcome : Outcome (Option Span × Survey)) : Prop where
  same : Prod.fst <$> outcome = expected
  agrees : ∀ part later, outcome = .ok (part, later) → later.Agrees find

theorem Ends.ok {part : Option Span} (agrees : later.Agrees find) : Ends find (.ok part) (.ok (part, later)) where
  same := rfl
  agrees := by
    rintro _ _ ⟨⟩
    exact agrees

theorem Ends.error (failure : FormatError) : Ends find (.error failure) (.error failure) where
  same := rfl
  agrees := by rintro _ _ ⟨⟩

theorem Ends.bind {expected : Outcome (Option Span)} {outcome : Outcome (Option Span × Survey)}
    {next : Option Span → Outcome (Option Span)} {rest : Option Span × Survey → Outcome (Option Span × Survey)}
    (first : Ends find expected outcome)
    (onward : ∀ part later, expected = .ok part → outcome = .ok (part, later) → later.Agrees find →
      Ends find (next part) (rest (part, later))) : Ends find (expected >>= next) (outcome >>= rest) := by
  obtain ⟨rfl, agrees⟩ := first
  cases outcome with
  | error failure => exact .error failure
  | ok answer => exact onward answer.1 answer.2 rfl rfl (agrees _ _ rfl)

/-- A visit to a node ends as the recursion does. -/
def Follows (g : Ground) (path : List NodeId) (find : NodeId → Outcome Finding)
    (visit : NodeId → Survey → Outcome (Option Span × Survey)) (id : NodeId) : Prop :=
  ∀ s, s.Lawful g path → s.Agrees find → Ends find (Finding.part <$> find id) (visit id s)

section
variable {visit : NodeId → Survey → Outcome (Option Span × Survey)}

mutual
theorem surveyValue_follows (value : Value) {s : Survey} (lawful : s.Lawful g path) (agrees : s.Agrees find)
    (finds : ∀ d, Holds value d → Finds g path visit d) (follows : ∀ d, Holds value d → Follows g path find visit d) :
    Ends find (heldIn find value) (surveyValue visit value s) := by
  cases value with
  | node id => exact follows id (.node id) s lawful agrees
  | array items =>
    exact surveyValues_follows items lawful agrees (fun item member d holds => finds d (.array member holds))
      fun item member d holds => follows d (.array member holds)
  | _ => exact .ok agrees
theorem surveyValues_follows (values : List Value) {s : Survey} (lawful : s.Lawful g path) (agrees : s.Agrees find)
    (finds : ∀ value ∈ values, ∀ d, Holds value d → Finds g path visit d)
    (follows : ∀ value ∈ values, ∀ d, Holds value d → Follows g path find visit d) :
    Ends find (heldInAll find values) (surveyValues visit values s) := by
  cases values with
  | nil => exact .ok agrees
  | cons value values =>
    rw [surveyValues, heldInAll]
    refine (surveyValue_follows value lawful agrees (finds value List.mem_cons_self)
      (follows value List.mem_cons_self)).bind fun first middle _ here still => ?_
    have between := (surveyValue_lawful value lawful here (finds value List.mem_cons_self)).1
    refine (surveyValues_follows values between still (fun item member => finds item (List.mem_cons_of_mem _ member))
      fun item member => follows item (List.mem_cons_of_mem _ member)).bind fun rest last _ _ agrees => ?_
    exact .ok agrees
end

end

/-- What is not in the tree has no extent and adds nothing. -/
theorem Ground.recurse_outside (outside : g.tree.size ≤ id) : g.recurse find id = .ok ⟨none, none⟩ := by
  have missing : g.tree.node id = {} := by rw [Tree.node, Array.getElem?_eq_none outside, Option.getD_none]
  have plain : g.tree.isComment id = false := by simp [Tree.isComment, Tree.isAmong, Tree.kind?, missing, Node.kind?]
  simp only [recurse, plain, extent, missing]
  rfl

theorem Survey.Agrees.start (agrees : s.Agrees find) (pending : s.progress[id]? = some .pending) :
    Survey.Agrees ⟨s.progress.set! id .visiting, s.spans⟩ find :=
  fun j part done => agrees j part ((done_start pending).mp done)

theorem Survey.Agrees.finish {span part : Option Span} (agrees : s.Agrees find) (lawful : s.Lawful g (id :: path))
    (found : find id = .ok ⟨span, part⟩) :
    Survey.Agrees ⟨s.progress.set! id (.done part), s.spans.set! id span⟩ find := by
  intro j inner done
  rw [lawful.span?_finish]
  rcases lawful.done_finish.mp done with ⟨rfl, rfl⟩ | ⟨differ, done⟩
  · rw [if_pos rfl, found]
  · rw [if_neg differ, agrees j inner done]

/-- In a tree without cycles each visit follows the recursion: it never comes to a node that is looked at further out. -/
theorem survey_follows (acyclic : g.tree.Acyclic) (fixed : Function.IsFixedPt g.recurse find) (bound : Nat) :
    ∀ (path : List NodeId) (id : NodeId), bound + path.length = g.tree.size + 1 →
      (∀ a ∈ path, Relation.TransGen g.tree.Child a id) → Follows g path find (survey g bound) id := by
  induction bound with
  | zero =>
    intro path id length _ s lawful
    have := Survey.path_length_le lawful.progress_size lawful.distinct fun id => (lawful.visiting id).mpr
    omega
  | succ bound ih =>
    intro path id length above s lawful agrees
    have recursion : find id = g.recurse find id := (congrFun fixed id).symm
    rw [survey]
    split
    · next part found =>
      have done : s.Done id part := by grind [Survey.Done]
      rw [agrees id part done]
      exact .ok agrees
    · next found =>
      have outside : g.tree.size ≤ id := by
        by_contra inside
        rw [← lawful.progress_size] at inside
        have visiting : s.progress[id]? = some .visiting := by grind
        exact acyclic id (above id ((lawful.visiting id).mp visiting))
      rw [recursion, Ground.recurse_outside outside]
      exact .ok agrees
    · next found =>
      have pending : s.progress[id]? = some .pending := by grind
      have started := (lawful.start pending).1
      have still := agrees.start pending
      rw [Ground.recurse] at recursion
      split
      · next comment =>
        rw [if_pos comment] at recursion
        rw [recursion]
        exact .ok (still.finish started recursion)
      · next plain =>
        rw [if_neg plain] at recursion
        have below {value : Value} (member : value ∈ (g.tree.node id).fields.map (·.2)) {d : NodeId} (holds : Holds value d) :
            ∀ a ∈ id :: path, Relation.TransGen g.tree.Child a d :=
          above_cons above (child_iff.mpr ⟨value, member, holds⟩)
        have finds : ∀ value ∈ (g.tree.node id).fields.map (·.2), ∀ d, Holds value d →
            Finds g (id :: path) (survey g bound) d :=
          fun _ member d holds => survey_finds g bound _ d (by simp; omega) (below member holds)
        have contents := surveyValues_follows _ started still finds fun _ member d holds =>
          ih (id :: path) d (by simp; omega) (below member holds)
        rw [recursion, map_bind]
        refine contents.bind fun held last holds walked agrees => ?_
        have middle := (surveyValues_lawful _ started walked finds).1
        rw [holds, ok_bind] at recursion
        dsimp only
        cases extent : g.extent id held with
        | error failure => exact .error failure
        | ok span =>
          rw [extent] at recursion
          exact .ok (agrees.finish middle recursion)

/-! ### Extents are those of the recursion -/

def Survey.initial (t : Tree) : Survey := ⟨Array.replicate t.size .pending, Array.replicate t.size none⟩

theorem Survey.agrees_initial (t : Tree) (find : NodeId → Outcome Finding) : (Survey.initial t).Agrees find := by
  intro id part done
  simp [Survey.initial, Survey.Done, Array.getElem?_replicate] at done

theorem ofTree_eq_map (g : Ground) : ofTree g.tree g.source g.comments =
    (fun answer => ⟨answer.2.spans⟩) <$> survey g (g.tree.size + 1) g.tree.root (Survey.initial g.tree) := by
  rw [ofTree, ← bind_pure_comp]
  rfl

/-- A survey that has come to nodes of a tree without cycles has found for them what the recursion finds. -/
theorem Survey.Agrees.eq (agrees : s.Agrees find) (lawful : s.Lawful g []) (fixed : Function.IsFixedPt g.recurse find)
    (done : id < g.tree.size → ∃ part, s.Done id part) : ∃ part, find id = .ok ⟨s.span? id, part⟩ := by
  by_cases inside : id < g.tree.size
  · obtain ⟨part, here⟩ := done inside
    exact ⟨part, agrees id part here⟩
  · have outside := Nat.le_of_not_lt inside
    have missing : s.span? id = none := by
      rw [Survey.span?, Array.getElem?_eq_none (lawful.spans_size ▸ outside), Option.getD_none]
    exact ⟨none, by rw [missing, ← congrFun fixed id, Ground.recurse_outside outside]⟩

/-- In a tree without cycles the recursion has an answer for each node. A survey of the tree fails if and only if the
    recursion fails for the root, with the same error. Otherwise it finds, for each node below the root that has no
    comment above it, the extent that the recursion gives, and so does a survey of any nodes in any order. -/
theorem ofTree_eq_recursion (g : Ground) (acyclic : g.tree.Acyclic) :
    (∃ find, Function.IsFixedPt g.recurse find) ∧
    ∀ find, Function.IsFixedPt g.recurse find →
      (∀ failure, ofTree g.tree g.source g.comments = .error failure ↔ find g.tree.root = .error failure) ∧
      ((∃ e, ofTree g.tree g.source g.comments = .ok e) ↔ ∃ found, find g.tree.root = .ok found) ∧
      (∀ e, ofTree g.tree g.source g.comments = .ok e → ∀ id, g.tree.Visited id →
        ∃ part, find id = .ok ⟨e.get? id, part⟩) ∧
      ∀ (nodes : List NodeId) held s,
        surveyValues (survey g (g.tree.size + 1)) (nodes.map .node) (Survey.initial g.tree) = .ok (held, s) →
          ∀ id ∈ nodes, ∃ part, find id = .ok ⟨s.span? id, part⟩ := by
  refine ⟨Ground.exists_fixed acyclic, fun find fixed => ?_⟩
  have lawful : (Survey.initial g.tree).Lawful g [] := Survey.lawful_initial g
  have agrees := Survey.agrees_initial g.tree find
  have finds (id : NodeId) : Finds g [] (survey g (g.tree.size + 1)) id := survey_finds g _ [] id rfl (by simp)
  have follows (id : NodeId) : Follows g [] find (survey g (g.tree.size + 1)) id :=
    survey_follows acyclic fixed _ [] id rfl (by simp)
  have ends := follows g.tree.root _ lawful agrees
  refine ⟨fun failure => ?_, ?_, ?_, ?_⟩
  · rw [ofTree_eq_map, map_eq_error, ← map_eq_error, ends.same, map_eq_error]
  · rw [ofTree_eq_map, exists_map_eq_ok, ← exists_map_eq_ok, ends.same, exists_map_eq_ok]
  · intro e ok id visited
    rw [ofTree_eq_map] at ok
    obtain ⟨⟨_, s⟩, surveyed, rfl⟩ := map_eq_ok.mp ok
    obtain ⟨last, -, -, root⟩ := finds g.tree.root _ _ _ surveyed lawful
    have done := last.done_of_visited (fun inside => ⟨_, (root inside).resolve_right List.not_mem_nil⟩) visited
    exact (ends.agrees _ _ surveyed).eq last fixed done
  · intro nodes held s ok id member
    obtain ⟨last, -, accounts, -⟩ := surveyValues_lawful _ lawful ok fun _ _ d _ => finds d
    have agrees := (surveyValues_follows _ lawful agrees (fun _ _ d _ => finds d) fun _ _ d _ => follows d).2 _ _ ok
    refine agrees.eq last fixed fun inside => ?_
    obtain ⟨part, done, -⟩ :=
      (accounts id ⟨.node id, List.mem_map_of_mem member, .node id⟩ inside).resolve_right List.not_mem_nil
    exact ⟨part, done⟩

/-- The shared node adds to the node above it and to what that is in. -/
theorem ofTree_eq_recursion_shared :
    sharedCall.Acyclic ∧ ∃ find, Function.IsFixedPt (Ground.recurse ⟨sharedCall, "f(abc)", []⟩) find ∧
      (∃ found, find 0 = .ok found) ∧ ∃ part, find 3 = .ok ⟨some ⟨5, 2⟩, part⟩ := by
  have acyclic : sharedCall.Acyclic := acyclic_of_lt (by decide +kernel)
  have first : sharedCall.Child 0 3 := ⟨⟨0, 0, some 0⟩, by decide +kernel⟩
  obtain ⟨⟨find, fixed⟩, agree⟩ := ofTree_eq_recursion ⟨sharedCall, "f(abc)", []⟩ acyclic
  obtain ⟨-, succeeds, extents, -⟩ := agree find fixed
  have found : Extents.spans <$> ofTree sharedCall "f(abc)" [] =
      .ok #[some ⟨1, 6⟩, none, some ⟨1, 4⟩, some ⟨5, 2⟩] := by decide +kernel
  obtain ⟨⟨_⟩, ok, rfl⟩ := map_eq_ok.mp found
  exact ⟨acyclic, find, fixed, succeeds.mp ⟨_, ok⟩, extents _ ok 3 (.single ⟨by decide +kernel, first⟩)⟩

end ApexLayout.Extents
