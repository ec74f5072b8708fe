import ApexLayout.Proofs.Extent.Delimiter
import ApexLayout.Proofs.Extent.Union

/-!
Nodes in parentheses. Both parentheses are searched from the start of what the node holds, and the result is widened
to that. So they are around the contents exactly where neither of the two belongs to the contents
(`ofTree_surrounded`).
-/
namespace ApexLayout.Extents

open Delimiter

/-- The extent has parentheses of its own around a span: an opening one before it, and a closing one behind it. -/
structure Surrounds (source : String) (comments : List Span) (s u : Span) : Prop where
  before : s.start < u.start
  opening : Free source comments '(' s.start
  after : u.stop < s.stop
  closing : Free source comments ')' (s.stop - 1)

/-- The extent of a node with delimiters around it: from the nearest opening one at the start of what it
    holds or before it, up to the nearest closing one at that start or behind it, or further if the
    contents go further. -/
theorem Ground.extent_between {g : Ground} {id : NodeId} {opening closing : Char} {u : Span} {span : Option Span}
    (rule : (g.tree.node id).nodeClass.bind ExtentRule.ofClass? = some (.between opening closing))
    (ascii : opening.toNat < 128 ∧ closing.toNat < 128) (ok : g.extent id (some u) = .ok span) :
    ∃ s, span = some s ∧ IsPrevious g.source g.comments opening u.start s.start ∧
      ∃ last, IsNext g.source g.comments closing u.start last ∧ s.stop = max (last + 1) u.stop := by
  have steps : g.extent id (some u) = (do
      let span ← some <$> g.between id opening closing u
      return span.map (·.cover u)) := by
    rw [extent, rule]
    rfl
  simp only [steps, between, map_eq_ok, bind_eq_ok, pure_eq_ok, before_eq_ok ascii.1, after_eq_ok ascii.2] at ok
  obtain ⟨_, ⟨_, ⟨first, before, last, after, rfl⟩, rfl⟩, rfl⟩ := ok
  refine ⟨⟨first, max (last + 1) u.stop⟩, ?_, before, last, after, rfl⟩
  simp [Span.cover, Nat.min_eq_left before.le]

/-- Parentheses searched in this way are around the span exactly if none at its start and none inside it
    is in their place. -/
theorem surrounds_iff {source : String} {comments : List Span} {s u : Span} {last : Nat}
    (previous : IsPrevious source comments '(' u.start s.start) (next : IsNext source comments ')' u.start last)
    (stop : s.stop = max (last + 1) u.stop) :
    Surrounds source comments s u ↔
      ¬Free source comments '(' u.start ∧ ∀ i, u.start ≤ i → i < u.stop → ¬Free source comments ')' i := by
  constructor
  · rintro ⟨before, -, after, -⟩
    refine ⟨fun free => ?_, fun i from_start inside free => ?_⟩
    · have := previous.last u.start (Nat.le_refl _) free
      omega
    · have := next.first i from_start free
      omega
  · rintro ⟨none_at_start, none_inside⟩
    have before : s.start ≠ u.start := fun same => none_at_start (same ▸ previous.free)
    have behind : u.stop ≤ last := by
      by_contra inside
      exact none_inside last next.le (Nat.lt_of_not_le inside) next.free
    have ends : s.stop - 1 = last := by omega
    have := previous.le
    exact ⟨by omega, previous.free, by omega, ends ▸ next.free⟩

section
variable {tree : Tree} {id : NodeId}

def InParentheses (tree : Tree) (id : NodeId) : Prop :=
  tree.isKind id .nestedExpr ∨ tree.isKind id .selectInnerQuery

theorem InParentheses.kind?_eq (kind : InParentheses tree id) :
    tree.kind? id = some .nestedExpr ∨ tree.kind? id = some .selectInnerQuery := by
  simpa [InParentheses, Tree.isKind] using kind

theorem InParentheses.rule (kind : InParentheses tree id) :
    (tree.node id).nodeClass.bind ExtentRule.ofClass? = some (.between '(' ')') := by
  obtain ⟨found, same, c, is_class, of_class⟩ : ∃ found, ExtentRule.ofKind? found = some (.between '(' ')') ∧
      ∃ c, (tree.node id).nodeClass = some c ∧ c.kind? = some found := by
    rcases kind.kind?_eq with here | here
    · exact ⟨.nestedExpr, rfl, Option.bind_eq_some_iff.mp here⟩
    · exact ⟨.selectInnerQuery, rfl, Option.bind_eq_some_iff.mp here⟩
  simp [is_class, ExtentRule.ofClass?, of_class, same]

theorem InParentheses.plain (kind : InParentheses tree id) : tree.isComment id = false := by
  rcases kind.kind?_eq with here | here <;> simp [Tree.isComment, Tree.isAmong, here]

theorem InParentheses.lt_size (kind : InParentheses tree id) : id < tree.size := by
  by_contra outside
  have no_kind : tree.kind? id = none := by
    simp [Tree.kind?, Tree.node, Node.kind?, Array.getElem?_eq_none (Nat.le_of_not_lt outside)]
  rcases kind.kind?_eq with here | here <;> simp [no_kind] at here

end

/-- What a node in parentheses holds, and its extent: that starts at the last opening parenthesis at or
    before the start of the contents, and ends behind the first closing one at or after that start or with
    the contents, whichever comes last. It has parentheses of its own around the contents if and only if
    no opening one stands at their start and no closing one inside them. -/
theorem ofTree_surrounded {tree : Tree} {source : String} {comments : List Span} {e : Extents} {id : NodeId}
    (ok : ofTree tree source comments = .ok e) (visited : tree.Visited id) (kind : InParentheses tree id) :
    ∃ held, Unites tree e id held ∧ (tree.Acyclic → ∀ other, Unites tree e id other → other = held) ∧
      ∀ u, held = some u → ∃ s, e.get? id = some s ∧ s.contains u ∧
        IsPrevious source comments '(' u.start s.start ∧
        (∃ last, IsNext source comments ')' u.start last ∧ s.stop = max (last + 1) u.stop) ∧
        (Surrounds source comments s u ↔
          ¬Free source comments '(' u.start ∧ ∀ i, u.start ≤ i → i < u.stop → ¬Free source comments ')' i) := by
  obtain ⟨held, unites, extent⟩ := ofTree_unites ok visited kind.lt_size kind.plain
  refine ⟨held, unites, fun acyclic other also => also.unique unites acyclic, ?_⟩
  rintro u rfl
  obtain ⟨s, here, previous, last, next, stop⟩ := Ground.extent_between kind.rule (by decide) extent
  have covered : s.contains u := Span.contains_iff.mpr ⟨previous.le, by omega⟩
  exact ⟨s, here, covered, previous, ⟨last, next, stop⟩, surrounds_iff previous next stop⟩

def nestedName : Tree :=
  ⟨#[.of .nestedExpr [("expr", .node 1)], { location := some ⟨6, 7⟩ }]⟩

/-- Parentheses in comments are not those of the node. -/
theorem ofTree_surrounded_commented :
    ∃ e, ofTree nestedName "(/*)*/a/*)*/)" [⟨1, 6⟩, ⟨7, 12⟩] = .ok e ∧ nestedName.Visited 0 ∧ InParentheses nestedName 0 ∧
      Unites nestedName e 0 (some ⟨6, 7⟩) ∧ e.get? 0 = some ⟨0, 13⟩ ∧
      Surrounds "(/*)*/a/*)*/)" [⟨1, 6⟩, ⟨7, 12⟩] ⟨0, 13⟩ ⟨6, 7⟩ := by
  have found : Extents.spans <$> ofTree nestedName "(/*)*/a/*)*/)" [⟨1, 6⟩, ⟨7, 12⟩] =
      .ok #[some ⟨0, 13⟩, some ⟨6, 7⟩] := by decide +kernel
  obtain ⟨⟨_⟩, ok, rfl⟩ := map_eq_ok.mp found
  have below : nestedName.Child 0 1 := ⟨⟨0, 0, none⟩, by decide +kernel⟩
  have only : ∀ c, nestedName.Child 0 c → c = 1 := by
    rintro c ⟨edge, member⟩
    have all : ∀ entry ∈ nestedName.children 0, entry.2 = 1 := by decide +kernel
    exact all _ member
  have unites := Unites.of_only below only (by decide +kernel) (e := ⟨#[some ⟨0, 13⟩, some ⟨6, 7⟩]⟩) rfl
  have acyclic : nestedName.Acyclic := acyclic_of_lt (by decide +kernel)
  have visited : nestedName.Visited 0 := .refl
  have kind : InParentheses nestedName 0 := .inl (by decide +kernel)
  obtain ⟨held, -, unique, around⟩ := ofTree_surrounded ok visited kind
  obtain ⟨s, here, -, -, -, surrounds⟩ := around _ (unique acyclic _ unites).symm
  obtain rfl : ⟨0, 13⟩ = s := Option.some.inj here
  refine ⟨_, ok, visited, kind, unites, rfl, surrounds.mpr ⟨by decide +kernel, ?_⟩⟩
  intro i from_start inside
  obtain rfl : i = 6 := by simp only at from_start inside; omega
  decide +kernel

def nestedSum : Tree :=
  ⟨#[.of .nestedExpr [("expr", .node 1)],
    .of .binaryExpr [("left", .node 2), ("right", .node 4)],
    .of .nestedExpr [("expr", .node 3)],
    { location := some ⟨2, 3⟩ }, { location := some ⟨5, 6⟩ }]⟩

/-- The parentheses that the search finds are those of the first term, so the outer ones are left out. -/
theorem nestedSum_not_surrounds :
    ∃ e s, ofTree nestedSum "((a)+b)" [] = .ok e ∧ nestedSum.Visited 0 ∧ InParentheses nestedSum 0 ∧
      Unites nestedSum e 0 (some ⟨1, 6⟩) ∧ e.get? 0 = some s ∧ ¬Surrounds "((a)+b)" [] s ⟨1, 6⟩ := by
  have found : Extents.spans <$> ofTree nestedSum "((a)+b)" [] =
      .ok #[some ⟨1, 6⟩, some ⟨1, 6⟩, some ⟨1, 4⟩, some ⟨2, 3⟩, some ⟨5, 6⟩] := by decide +kernel
  obtain ⟨⟨_⟩, ok, rfl⟩ := map_eq_ok.mp found
  have below : nestedSum.Child 0 1 := ⟨⟨0, 0, none⟩, by decide +kernel⟩
  have only : ∀ c, nestedSum.Child 0 c → c = 1 := by
    rintro c ⟨edge, member⟩
    have all : ∀ entry ∈ nestedSum.children 0, entry.2 = 1 := by decide +kernel
    exact all _ member
  refine ⟨_, ⟨1, 6⟩, ok, .refl, .inl (by decide +kernel), .of_only below only (by decide +kernel) rfl, rfl, ?_⟩
  intro surrounds
  exact absurd surrounds.before (by decide)

end ApexLayout.Extents
