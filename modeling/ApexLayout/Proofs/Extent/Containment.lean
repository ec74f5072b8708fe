import ApexLayout.Proofs.Extent.Union

/-!
Extents lie within each other as their nodes do, in a tree without cycles: an extent covers what its node holds, and that
leaves nothing out (`nested_ofTree`).
A survey comes to every node that occurs below the root. So a node that holds no others, and has no rule, has the extent
that is reported (`ofTree_reported`).
-/
namespace ApexLayout

namespace Extents
open ApexLayout.Span

/-- The extents of the nodes right below a node, and of those below a node without extent, lie within its
    extent. -/
def Nested (tree : Tree) (e : Extents) : Prop :=
  ∀ {p d : NodeId} {outer inner : Span}, tree.isComment p = false → tree.isComment d = false →
    e.get? p = some outer → e.get? d = some inner → Reaches tree e p d → outer.contains inner

theorem Ground.extent_covers (g : Ground) {id : NodeId} {held span : Option Span} (ok : g.extent id held = .ok span) :
    Within held (span <|> held) := by
  obtain ⟨base, rfl⟩ : ∃ base : Option Span, base.map (fun a => (held.map a.cover).getD a) = span := by
    simp only [Ground.extent] at ok
    split at ok
    · obtain ⟨base, _, same⟩ := bind_eq_ok.mp ok
      exact ⟨base, pure_eq_ok.mp same⟩
    · exact ⟨none, pure_eq_ok.mp ok⟩
    · exact ⟨_, pure_eq_ok.mp ok⟩
  rcases base with _ | base
  · exact .refl held
  · rcases held with _ | held
    · exact .none
    · exact within_cover?_right (some base) (some held)

theorem nested_ofTree {tree : Tree} {source : String} {comments : List Span} {e : Extents}
    (ok : ofTree tree source comments = .ok e) (acyclic : tree.Acyclic) : Nested tree e := by
  intro p d outer inner plain plain_below outer_is inner_is reaches
  obtain ⟨s, rfl, lawful, -⟩ := exists_lawful ok
  obtain ⟨part, done⟩ := lawful.unsettled outer_is
  obtain ⟨held, formed⟩ := lawful.formed done plain
  have inside := (lawful.unites formed).covers (reaches.gathers acyclic) plain_below inner_is
  have whole := Ground.extent_covers _ formed.extent
  have extent : s.span? p = some outer := outer_is
  rw [extent] at whole
  obtain ⟨_, same, contains⟩ := inside.trans whole inner rfl
  rwa [Option.some.inj same]

/-- In a tree without cycles, the extent of a node contains that of every node reached from it, by
    whichever rules the two were found and whatever spans were reported. -/
theorem ofTree_contains (tree : Tree) (source : String) (comments : List Span) {e : Extents}
    (ok : ofTree tree source comments = .ok e) (acyclic : tree.Acyclic) {p d : NodeId} {outer inner : Span}
    (plain : tree.isComment p = false) (plain_below : tree.isComment d = false) (outer_is : e.get? p = some outer)
    (inner_is : e.get? d = some inner) (reaches : Reaches tree e p d) : outer.contains inner :=
  nested_ofTree ok acyclic plain plain_below outer_is inner_is reaches

/-- A call whose second argument holds the first one again, in a node without extent. The shared node
    is reported with an inverted span. -/
def sharedCall : Tree :=
  ⟨#[.of .methodCallExpr [("names", .array [.node 3]), ("rest", .node 1)],
    .of .queryAnd [("left", .node 2), ("right", .node 3)],
    { location := some ⟨1, 4⟩ }, { location := some ⟨5, 2⟩ }]⟩

theorem ofTree_contains_shared :
    ∃ e, ofTree sharedCall "f(abc)" [] = .ok e ∧ sharedCall.Acyclic ∧ e.get? 0 = some ⟨1, 6⟩ ∧ e.get? 1 = none ∧
      e.get? 3 = some ⟨5, 2⟩ ∧ Reaches sharedCall e 0 3 ∧ Span.contains ⟨1, 6⟩ ⟨5, 2⟩ := by
  have found : Extents.spans <$> ofTree sharedCall "f(abc)" [] =
      .ok #[some ⟨1, 6⟩, none, some ⟨1, 4⟩, some ⟨5, 2⟩] := by decide +kernel
  obtain ⟨⟨_⟩, ok, rfl⟩ := map_eq_ok.mp found
  have acyclic : sharedCall.Acyclic := acyclic_of_lt (by decide +kernel)
  have first : sharedCall.Child 0 1 := ⟨⟨0, 1, none⟩, by decide +kernel⟩
  have second : sharedCall.Child 1 3 := ⟨⟨1, 1, none⟩, by decide +kernel⟩
  have reaches : Reaches sharedCall ⟨#[some ⟨1, 6⟩, none, some ⟨1, 4⟩, some ⟨5, 2⟩]⟩ 0 3 :=
    .through (.child first) (by decide +kernel) rfl second
  exact ⟨_, ok, acyclic, rfl, rfl, rfl, reaches,
    ofTree_contains sharedCall "f(abc)" [] ok acyclic (by decide +kernel) (by decide +kernel) rfl rfl reaches⟩

end Extents

/-- The span reported for the node is all there is to go by: it has no rule, and holds no nodes. -/
structure Tree.IsLeaf (t : Tree) (id : NodeId) : Prop where
  rule : (t.node id).nodeClass.bind ExtentRule.ofClass? = none
  children : t.children id = []

namespace Extents

variable {id : NodeId}

/-- Where every node occurs below the root and comments hold no nodes, a leaf has the extent that is
    reported. -/
theorem ofTree_reported {tree : Tree} {source : String} {comments : List Span} {e : Extents}
    (ok : ofTree tree source comments = .ok e) (childless : ∀ id, tree.isComment id → tree.children id = [])
    (reaches : ∀ id < tree.size, Relation.ReflTransGen tree.Child tree.root id) (leaf : tree.IsLeaf id) :
    e.get? id = (tree.node id).location := by
  obtain ⟨s, rfl, lawful, root⟩ := exists_lawful ok
  -- A comment holds nothing, so none is above a node.
  have visited {id : NodeId} (below : Relation.ReflTransGen tree.Child tree.root id) : tree.Visited id := by
    induction below with
    | refl => exact .refl
    | @tail m d _ child ih =>
      obtain ⟨edge, listed⟩ := child
      have plain : tree.isComment m = false := by
        by_contra comment
        simp [childless m (by simpa using comment)] at listed
      exact ih.tail ⟨plain, edge, listed⟩
  by_cases inside : id < tree.size
  · obtain ⟨part, done⟩ := lawful.done_of_visited root (visited (reaches id inside)) inside
    cases plain : tree.isComment id with
    | true => exact (lawful.comment done plain).2
    | false =>
      obtain ⟨held, formed⟩ := lawful.formed done plain
      have nothing : held = none := by
        cases held with
        | none => rfl
        | some u =>
          obtain ⟨d, a, supplies, -⟩ := formed.start u rfl
          have childless {d : NodeId} (child : tree.Child id d) : False := by
            obtain ⟨edge, listed⟩ := child
            simp [leaf.children] at listed
          cases supplies with
          | child below => exact (childless below).elim
          | through below => exact (childless below).elim
      have extent := formed.extent
      simp only [nothing, Ground.extent, leaf.rule, pure_bind, Option.map_none, Option.getD_none, Option.map_id',
        pure_eq_ok] at extent
      exact extent.symm
  · have no_node : tree.nodes[id]? = none := Array.getElem?_eq_none (Nat.le_of_not_lt inside)
    have same_size : s.spans.size = tree.size := lawful.spans_size
    rw [← same_size] at inside
    have no_span : s.spans[id]? = none := Array.getElem?_eq_none (Nat.le_of_not_lt inside)
    simp [get?, Tree.node, no_node, no_span]

end Extents
end ApexLayout
