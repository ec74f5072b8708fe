import ApexLayout.Proofs.Occurrence.Walk
import ApexLayout.Proofs.Printing.Moves
import ApexLayout.Proofs.Render.Steps

/-!
Chains of operations. Operations whose operators bind alike, each the left operand of the next, are printed as one
sequence of operands (`operation_eq_chainOf`). So the lines behind the operators all lie in the group around the
chain, and break together.
-/
namespace ApexLayout

def Tree.IsLink (t : Tree) (tier : Nat) (id : NodeId) : Prop :=
  t.isAmong id [.binaryExpr, .booleanExpr] ∧ Operator.tier <$> Operator.ofExpression t id = .ok tier

theorem Tree.IsLink.kind {t : Tree} {tier : Nat} {id : NodeId} (links : t.IsLink tier id) :
    t.kind? id = some .binaryExpr ∨ t.kind? id = some .booleanExpr := by
  have among := links.1
  unfold Tree.isAmong at among
  cases kind : t.kind? id with
  | none => simp [kind] at among
  | some found => simpa [kind] using among

namespace Manuscript

/-- A chain of operations of one tier, without comments at those inside: the outermost one, the first operand, and the
    operators with the operands behind them. The operands may be anything. -/
inductive Chain (m : Manuscript) (tier : Nat) : NodeId → NodeId → List (NodeId × NodeId) → Prop where
  | pair {id first op right : NodeId} (links : m.tree.IsLink tier id) (left : m.tree.child? id "left" = some first)
      (between : m.tree.child? id "op" = some op) (behind : m.tree.child? id "right" = some right) :
    Chain m tier id first [(op, right)]
  | next {id inner first op right : NodeId} {others : List (NodeId × NodeId)} (links : m.tree.IsLink tier id)
      (left : m.tree.child? id "left" = some inner) (bare : m.shelf.of inner = []) (chain : Chain m tier inner first others)
      (between : m.tree.child? id "op" = some op) (behind : m.tree.child? id "right" = some right) :
    Chain m tier id first (others ++ [(op, right)])

def Gets (m : Manuscript) (id : NodeId) (doc : Draft) : Prop := ∃ bound path edge, m.printAt bound path id edge = .ok doc

/-- The documents are those of the operands and operators; the first operand may have a group of its own. -/
structure Forms (m : Manuscript) (first : NodeId) (links : List (NodeId × NodeId)) (start : Draft)
    (docs : List (Draft × Draft)) : Prop where
  start : ∃ doc, m.Gets first doc ∧ (start = doc ∨ start = Doc.fill doc)
  links : List.Forall₂ (fun link docs => m.Gets link.1 docs.1 ∧ m.Gets link.2 docs.2) links docs

theorem Chain.isLink {m : Manuscript} {tier : Nat} {id first : NodeId} {links : List (NodeId × NodeId)}
    (chain : m.Chain tier id first links) : m.tree.IsLink tier id := by
  cases chain <;> assumption

end Manuscript

namespace Printer

variable {p : Printer} {id : NodeId} {tier : Nat} {doc : Draft}

theorem tierOf_of_isLink (links : p.tree.IsLink tier id) : p.tierOf id = .ok tier := links.2

theorem mapM_tierOf_of_isLink (links : p.tree.IsLink tier id) :
    (((some id).filter p.isOperation).mapM p.tierOf : Outcome (Option Nat)) = .ok (some tier) := by
  have is_operation : p.isOperation id := links.1
  rw [Option.filter_some, if_pos is_operation]
  simp [tierOf_of_isLink links]

/-- An operation puts its parts behind the left operand if it hangs on the left of one that binds alike, or if its left
    operand binds alike and it hangs on no operation. A left operand that binds otherwise may have a group. -/
theorem operation_eq_chainOf (links : p.tree.IsLink tier id) (ok : p.operation id = .ok doc)
    (place : (∃ above ∈ p.parent?, p.tree.IsLink tier above) ∧ p.nameAt 0 ≠ "right" ∨
      (∀ above ∈ p.parent?, p.isOperation above = false) ∧ ∃ left ∈ p.tree.child? id "left", p.tree.IsLink tier left) :
    ∃ l o r start, p.print ["left"] = .ok l ∧ p.print ["op"] = .ok o ∧ p.print ["right"] = .ok r ∧
      (start = l ∨ start = Doc.fill l ∧ ∀ left ∈ p.tree.child? id "left", ¬ p.tree.IsLink tier left) ∧
      (doc = Doc.chainOf start [(o, r)] ∨ p.flags.inParentheses ∧ doc = .indent (Doc.chainOf start [(o, r)])) := by
  simp only [operation, bind_eq_ok] at ok
  obtain ⟨own, own_ok, leftTier, left_ok, parentTier, parent_ok, l, l_ok, o, o_ok, r, r_ok, laid⟩ := ok
  obtain rfl : tier = own := Except.ok.inj ((tierOf_of_isLink links).symm.trans own_ok)
  have left_alike {left : NodeId} (held : p.tree.child? id "left" = some left) (alike : p.tree.IsLink tier left) :
      leftTier = some tier := by
    rw [held, mapM_tierOf_of_isLink alike] at left_ok
    exact (Except.ok.inj left_ok).symm
  have hangs_left {above : NodeId} (held : p.parent? = some above) (alike : p.tree.IsLink tier above) :
      parentTier = some tier := by
    rw [held, mapM_tierOf_of_isLink alike] at parent_ok
    exact (Except.ok.inj parent_ok).symm
  split at laid
  all_goals
    obtain ⟨rightTier, -, laid⟩ := bind_eq_ok.mp laid
    split_ifs at laid with chained inside beside
    · exact ⟨l, o, r, l, l_ok, o_ok, r_ok, .inl rfl, .inr ⟨inside, (Except.ok.inj laid).symm⟩⟩
    · exact ⟨l, o, r, l, l_ok, o_ok, r_ok, .inl rfl, .inl (Except.ok.inj laid).symm⟩
    · refine ⟨l, o, r, Doc.fill l, l_ok, o_ok, r_ok, .inr ⟨rfl, fun left held alike => chained ?_⟩, .inl (Except.ok.inj laid).symm⟩
      simp [beside, left_alike held alike]
    · rcases place with ⟨⟨above, held, alike⟩, side⟩ | ⟨free, left, held, alike⟩
      · exact absurd (by simp [hangs_left held alike, side]) beside
      · have none_above : p.parent?.filter p.isOperation = none := by simpa [Option.filter_eq_none_iff] using free
        exact absurd (by simp [left_alike held alike, none_above]) chained

theorem occurrence_of_isLink (links : p.tree.IsLink tier id) {edge : Option Edge}
    (laid : (p.tree.origin id == edge && p.manuscript.shelf.isIgnored id) = false) :
    p.occurrence id edge = p.dressed id <$> p.operation id := by
  rcases links.kind with kind | kind <;> exact occurrence_eq (nodeClass_of_kind? kind) laid

end Printer

namespace Manuscript

variable {m : Manuscript} {tier : Nat} {extents : Extents} {lines : Text.Lines} {fuel : Nat} {path : Path}
  {id : NodeId} {edge : Option Edge} {doc : Draft}

theorem gets_of_print {child : NodeId} {name : String}
    (held : m.tree.child? id name = some child) (ok : (m.printerAt fuel path id edge).print [name] = .ok doc) :
    m.Gets child doc := by
  obtain ⟨slot, printed, -⟩ := Printer.print_child (p := m.printerAt fuel path id edge) held
  exact ⟨fuel, _, _, printed.symm.trans ok⟩

/-- An operation inside a chain is printed as it is, and hangs on the left of one that binds alike. -/
theorem operation_of_print (narrow : m.tree.Narrow) (walked : m.occurrences = Occurrences.ofTree m.tree extents lines)
    {inner : NodeId} (alike : m.tree.IsLink tier inner)
    (held : m.tree.child? id "left" = some inner) (bare : m.shelf.of inner = [])
    (ok : (m.printerAt fuel path id edge).print ["left"] = .ok doc) :
    ∃ less below, (m.printerAt less (⟨id, edge⟩ :: path) inner (some below)).operation inner = .ok doc ∧
      (m.printerAt less (⟨id, edge⟩ :: path) inner (some below)).nameAt 0 ≠ "right" ∧
      (m.occurrences.get below).inParentheses = false := by
  obtain ⟨slot, printed, there⟩ := Printer.print_child (p := m.printerAt fuel path id edge) held
  obtain ⟨less, rfl, occurs⟩ := printAt_eq_ok (printed.symm.trans ok)
  let below : Edge := ⟨id, slot.toUInt16, none⟩
  let p := m.printerAt less (⟨id, edge⟩ :: path) inner (some below)
  have occurs : p.occurrence inner (some below) = .ok doc := occurs
  have there : (m.tree.node id).fields[slot]? = some ("left", .node inner) := there
  refine ⟨less, below, ?_, ?_, ?_⟩
  · have unblank : (m.occurrences.get below).blankAfter = false := by
      by_contra blank
      rw [walked, Bool.not_eq_false] at blank
      obtain ⟨other, occurs, separable⟩ := Occurrences.separable_of_blankAfter blank
      obtain rfl := narrow.eq_of_mem_children there occurs
      rcases alike.kind with kind | kind <;> simp [Tree.isAmong, kind, Occurrences.separable] at separable
    have laid : (m.tree.origin inner == some below && m.shelf.isIgnored inner) = false := by
      simp [Shelf.isIgnored, Shelf.leading, bare]
    rw [Printer.occurrence_of_isLink (p := p) alike laid, Printer.dressed_bare bare, map_eq_ok] at occurs
    obtain ⟨own, printed, rfl⟩ := occurs
    have closed : p.flags.blankAfter = false := unblank
    rw [Printer.withBlank, closed]
    exact printed
  · have named : p.nameAt 0 = "left" := Tree.fieldName_of_slot (narrow id) there none
    rw [named]
    decide
  · by_contra inside
    rw [walked, Bool.not_eq_false] at inside
    obtain ⟨-, i, -, indexed⟩ := Occurrences.mem_elementEdges.1 (Occurrences.mem_of_inParentheses inside)
    cases indexed

/-- The operands of a chain are laid out one after the other. The induction goes inwards; the outermost operation of
    the chain may hang on no operation, and the others hang on the left of the one before. -/
theorem forms_of_operation (narrow : m.tree.Narrow) (walked : m.occurrences = Occurrences.ofTree m.tree extents lines)
    {first : NodeId} {links : List (NodeId × NodeId)} (chain : m.Chain tier id first links)
    (ok : (m.printerAt fuel path id edge).operation id = .ok doc)
    (place : (∃ above ∈ (m.printerAt fuel path id edge).parent?, m.tree.IsLink tier above) ∧
        (m.printerAt fuel path id edge).nameAt 0 ≠ "right" ∨
      (∀ above ∈ (m.printerAt fuel path id edge).parent?, m.tree.isAmong above [.binaryExpr, .booleanExpr] = false) ∧
        2 ≤ links.length) :
    ∃ start docs, m.Forms first links start docs ∧ (doc = Doc.chainOf start docs ∨
      (m.printerAt fuel path id edge).flags.inParentheses ∧ doc = .indent (Doc.chainOf start docs)) := by
  induction chain generalizing fuel path edge doc with
  | @pair id _ _ _ links left between behind =>
    have inside := place.resolve_right (by simp)
    obtain ⟨l, o, r, start, l_ok, o_ok, r_ok, either, laid⟩ :=
      Printer.operation_eq_chainOf (p := m.printerAt fuel path id edge) links ok (.inl inside)
    refine ⟨start, [(o, r)], ⟨⟨l, gets_of_print left l_ok, either.imp_right And.left⟩, ?_⟩, laid⟩
    exact .cons ⟨gets_of_print between o_ok, gets_of_print behind r_ok⟩ .nil
  | @next id inner _ _ _ _ links left bare chain between behind ih =>
    obtain ⟨l, o, r, start, l_ok, o_ok, r_ok, either, laid⟩ :=
      Printer.operation_eq_chainOf (p := m.printerAt fuel path id edge) links ok
        (place.imp_right fun free => ⟨free.1, inner, left, chain.isLink⟩)
    obtain rfl : start = l := either.resolve_right fun grouped => grouped.2 inner left chain.isLink
    obtain ⟨less, below, printed, side, outside⟩ := operation_of_print narrow walked chain.isLink left bare l_ok
    obtain ⟨start, docs, forms, same | ⟨inside, -⟩⟩ := ih printed (.inl ⟨⟨id, rfl, links⟩, side⟩)
    · subst same
      refine ⟨start, docs ++ [(o, r)], ⟨forms.start, ?_⟩, ?_⟩
      · exact List.rel_append forms.links (.cons ⟨gets_of_print between o_ok, gets_of_print behind r_ok⟩ .nil)
      · simpa [Doc.chainOf] using laid
    · exact absurd (outside.symm.trans inside) (by simp)

/-- A chain of three or more operands, however they are made, breaks together. Its document, besides what belongs around
    the outermost operation, is the sequence of its operands, indented as a whole only if the chain is a parameter.
    Laid out in any mode and at any indentation, the lines behind its operators are all spaces or all end, and what
    follows them is all at one indentation. Slots must name the fields of the operations. -/
theorem chain_breaks_together (narrow : m.tree.Narrow)
    (walked : m.occurrences = Occurrences.ofTree m.tree extents lines) {top first : NodeId}
    {links : List (NodeId × NodeId)} (chain : m.Chain tier top first links) (several : 2 ≤ links.length) {bound : Nat}
    {path : Path} {edge : Option Edge}
    (outermost : ∀ frame ∈ path.head?, m.tree.isAmong frame.id [.binaryExpr, .booleanExpr] = false)
    (laid : (m.tree.origin top == edge && m.shelf.isIgnored top) = false) {doc : Draft}
    (printed : m.printAt bound path top edge = .ok doc) :
    ∃ (indented : Bool) (start : Draft) (docs : List (Draft × Draft)),
      let sequence := if indented then .indent (Doc.chainOf start docs) else Doc.chainOf start docs
      m.Forms first links start docs ∧ doc = (m.printerAt bound path top edge).dressed top sequence ∧
        (indented → ∃ e ∈ edge, e ∈ Occurrences.elementEdges m.tree e.parent "inputParameters") ∧
        sequence.BreaksTogether indented docs := by
  obtain ⟨fuel, rfl, occurs⟩ := printAt_eq_ok printed
  have occurs : (m.printerAt fuel path top edge).occurrence top edge = .ok doc := occurs
  rw [Printer.occurrence_of_isLink (p := m.printerAt fuel path top edge) chain.isLink laid, map_eq_ok] at occurs
  obtain ⟨own, ok, rfl⟩ := occurs
  have apart : ∀ above ∈ (m.printerAt fuel path top edge).parent?,
      m.tree.isAmong above [.binaryExpr, .booleanExpr] = false := by
    rw [Printer.parent?_of_path rfl]
    simpa using outermost
  obtain ⟨start, docs, forms, rfl | ⟨inside, rfl⟩⟩ := forms_of_operation narrow walked chain ok (.inr ⟨apart, several⟩)
  · exact ⟨false, start, docs, forms, rfl, by simp, Doc.breaksTogether_chainOf start docs⟩
  · refine ⟨true, start, docs, forms, rfl, fun _ => ?_, Doc.breaksTogether_indent (Doc.breaksTogether_chainOf start docs)⟩
    cases edge with
    | none => cases inside
    | some e =>
      have marked : (m.occurrences.get e).inParentheses = true := inside
      rw [walked] at marked
      exact ⟨e, rfl, Occurrences.mem_of_inParentheses marked⟩

def sumTree : Tree :=
  ⟨#[.of .binaryExpr [("left", .node 1), ("op", .node 2), ("right", .node 3)],
    .of .binaryExpr [("left", .node 4), ("op", .node 5), ("right", .node 6)],
    .of .binaryOp [("$", .string "SUBTRACTION")],
    .of .variableExpr [("names", .array [.string "c"])],
    .of .variableExpr [("names", .array [.string "a"])],
    .of .binaryOp [("$", .string "ADDITION")],
    .of .variableExpr [("names", .array [.string "b"])]]⟩

def sum : Manuscript where
  tree := sumTree
  occurrences := Occurrences.ofTree sumTree ⟨#[]⟩ (Text.Lines.ofText "")

theorem chain_breaks_together_sum : ∃ start docs,
    sum.printAt 3 [] 0 none = .ok (Doc.chainOf start docs) ∧ docs.length = 2 ∧
      (Doc.chainOf start docs).BreaksTogether false docs := by
  obtain ⟨doc, printed⟩ : ∃ doc, sum.printAt 3 [] 0 none = .ok doc := ⟨_, rfl⟩
  have chain : sum.Chain 7 0 4 [(5, 6), (2, 3)] :=
    .next ⟨rfl, rfl⟩ rfl rfl (.pair ⟨rfl, rfl⟩ rfl rfl rfl) rfl rfl
  have walked : sum.occurrences = Occurrences.ofTree sum.tree ⟨#[]⟩ (Text.Lines.ofText "") := by rw [sum]
  obtain ⟨indented, start, docs, forms, rfl, parameter, together⟩ :=
    chain_breaks_together (Tree.narrow_of_all (by decide)) walked chain (by decide) (by simp) rfl printed
  obtain rfl : indented = false := by simpa using parameter
  exact ⟨start, docs, printed, forms.links.length_eq.symm, together⟩

end Manuscript
end ApexLayout
