import ApexLayout.Proofs.Comment.Deferral
import ApexLayout.Proofs.Printing.Layout

/-!
What becomes of the comments of a source in its document (`toDoc_accounts`). A comment is lost where nothing leads to
its node, as to the name of an annotation, and repeated where a node is laid out more than once.
-/
namespace ApexLayout

namespace Manuscript

variable {m : Manuscript}

/-- How often a comment is shown: by the spots of the layout, or, if it belongs to nothing, beside the
    whole, where it has to be visible. -/
def timesShown (m : Manuscript) (c : BoundComment) : Nat :=
  match c.owner with
  | some _ => m.layout.countP (m.shows c)
  | none => if c.toComment.isVisible m.source then 1 else 0

/-- A comment is shown once: by a single spot of the layout, or beside the whole. -/
def ShownOnce (m : Manuscript) (c : BoundComment) : Prop :=
  match c.owner with
  | some _ => ∃ spot, m.layout.filter (m.shows c) = [spot]
  | none => c.toComment.isVisible m.source = true

/-- The comments of a source are accounted for in a document: all are on the shelf, and each is printed
    as often as it is shown, so that it is printed once if and only if it is shown once. -/
structure Accounts (m : Manuscript) (ids : List NodeId) (draft : Draft) : Prop where
  nodes : (m.shelf.all.map (·.node)).Perm ids
  times : ∀ c ∈ m.shelf.all, draft.noted c.toComment = m.timesShown c
  once : ∀ c ∈ m.shelf.all, draft.noted c.toComment = 1 ↔ m.ShownOnce c

theorem timesShown_eq_one_iff (m : Manuscript) (c : BoundComment) : m.timesShown c = 1 ↔ m.ShownOnce c := by
  unfold timesShown ShownOnce
  cases c.owner with
  | some id => rw [List.countP_eq_length_filter, List.length_eq_one_iff]
  | none => simp

theorem countP_layout_loose {c : BoundComment} (owner : c.owner = none) :
    m.layout.countP (m.shows c) = 0 := by
  rw [List.countP_eq_zero]
  intro spot _
  simp [shows, owner]

/-- The shelf of a manuscript is filed, and holds the comments of its source under distinct numbers. -/
theorem shelf_ofTree {tree : Tree} {output : ParserOutput} {source : String} {settings : FormatSettings}
    (ok : ofTree tree output source settings = .ok m) :
    m.shelf.Filed ∧ (m.shelf.held.map (·.index)).Nodup ∧ (m.shelf.held.map (·.node)).Perm output.comments := by
  obtain ⟨extents, _, ok⟩ := bind_eq_ok.mp ok
  obtain ⟨shelf, bound, made⟩ := bind_eq_ok.mp ok
  obtain ⟨comments, holds, _, _, numbered, nodes⟩ := Site.bind_holds _ bound
  obtain ⟨occurrences, deferred⟩ : ∃ occurrences, m.shelf = shelf.deferBlanks (tree.inBytes source) occurrences := by
    cases made
    exact ⟨_, by dsimp only⟩
  obtain ⟨filed, same⟩ := Shelf.filed_deferBlanks (tree.inBytes source) occurrences holds.toFiled
  rw [deferred]
  refine ⟨filed, ?_, ?_⟩
  · rw [Shelf.map_eq_of_plainly (·.index) (fun _ => rfl) same]
    have indexes := holds.exactly.map (·.index)
    rw [List.map_map, numbered] at indexes
    exact indexes.nodup_iff.mpr List.nodup_range
  · rw [Shelf.map_eq_of_plainly (·.node) (fun _ => rfl) same]
    have listed := holds.exactly.map (·.node)
    rw [List.map_map] at listed
    exact listed.trans nodes

theorem single_of_shelf (filed : m.shelf.Filed) (distinct : (m.shelf.held.map (·.index)).Nodup)
    {c : BoundComment} (member : c ∈ m.shelf.held) : m.Single c :=
  ⟨filed.count_of member distinct, filed.count_loose member distinct⟩

end Manuscript

/-- Whatever a source is laid out from, each of its comments is printed as often as the layout shows it:
    none is printed that is not shown, and those shown once are printed once. -/
theorem toDoc_accounts (text source : String) (settings : FormatSettings) {draft : Draft}
    (ok : toDoc text source settings = .ok draft) :
    ∃ tree output m, Tree.ofText text = .ok tree ∧ tree.parserOutput = .ok output ∧
      Manuscript.ofTree tree output source settings = .ok m ∧ m.Accounts output.comments draft := by
  obtain ⟨tree, read, ok⟩ := bind_eq_ok.mp ok
  obtain ⟨output, found, ok⟩ := bind_eq_ok.mp ok
  obtain ⟨m, made, printed⟩ := bind_eq_ok.mp ok
  obtain ⟨filed, distinct, nodes⟩ := Manuscript.shelf_ofTree made
  have times : ∀ c ∈ m.shelf.all, draft.noted c.toComment = m.timesShown c := by
    intro c member
    have single := Manuscript.single_of_shelf filed distinct (List.mem_mergeSort.mp member)
    rw [Manuscript.noted_doc single printed, Manuscript.timesShown]
    cases owner : c.owner with
    | some id => simp
    | none => simp [Manuscript.countP_layout_loose owner]
  refine ⟨tree, output, m, read, found, made, ⟨?_, times, ?_⟩⟩
  · exact ((List.mergeSort_perm _ _).map _).trans nodes
  · intro c member
    rw [times c member, Manuscript.timesShown_eq_one_iff]

section
-- The text of the tree below is longer than the usual depth.
set_option maxRecDepth 2500

/-- An annotation with a comment before its name, which no route leads to. -/
def unshown : Manuscript where
  tree :=
    ⟨#[.of .parserOutput [("unit", .node 1), ("hiddenTokenMap", .array [.array [.number (.int 1), .node 3]])],
      .of .annotationMark [("name", .node 2)] (some ⟨0, 1⟩) (some ⟨0, 0, none⟩),
      .of .locationIdentifier [("value", .string "IsTest")] (some ⟨6, 12⟩) (some ⟨1, 0, none⟩),
      .of .blockComment [("value", .string "/*c*/")] (some ⟨1, 6⟩) (some ⟨0, 1, some 1⟩)]⟩
  extents := ⟨#[none, some ⟨0, 12⟩, some ⟨6, 12⟩, some ⟨1, 6⟩]⟩
  occurrences := { flags := [(⟨0, 1, some 1⟩, { isLast := true })] }
  shelf :=
    { owned := [(2, [{ node := 3, kind := .block, text := "/*c*/", span := ⟨1, 6⟩, near := ⟨some 1, none, some 2⟩
                       blankAfter := some false, placement := .remaining, owner := some 2, anchor := .leading }])] }
  source := "@/*c*/IsTest"
  unit := 1

def unshownText : String :=
  "\x7b\"@class\":\"apex.jorje.semantic.compiler.parser.ParserOutput\",
\"unit\":\x7b\"@class\":\"apex.jorje.data.ast.Modifier$Annotation\",\"loc\":\x7b\"startIndex\":0,\"endIndex\":1\x7d,
\"name\":\x7b\"@class\":\"apex.jorje.data.Identifiers$LocationIdentifier\",
\"location\":\x7b\"startIndex\":6,\"endIndex\":12\x7d,\"value\":\"IsTest\"\x7d\x7d,
\"hiddenTokenMap\":[[1,\x7b\"@class\":\"apex.jorje.parser.impl.HiddenTokens$BlockComment\",
\"location\":\x7b\"startIndex\":1,\"endIndex\":6\x7d,\"value\":\"/*c*/\"\x7d]]\x7d"

theorem ofText_unshownText : Tree.ofText unshownText = .ok unshown.tree := by
  have chars : unshownText.toList = _ := String.toList_ofList
  rw [Tree.ofText, readOutput, Json.nestingDepth, Json.read?, chars]
  rfl

theorem extents_unshown : Extents.ofTree unshown.tree unshown.source [⟨1, 6⟩] = .ok unshown.extents :=
  Extents.ofTree_eq_ok (by decide +kernel)

theorem bind_unshown :
    Site.bind ⟨unshown.tree, unshown.extents, unshown.source⟩ [3] = .ok unshown.shelf := by
  let site : Site := ⟨unshown.tree, unshown.extents, unshown.source⟩
  let comment : Comment := { node := 3, kind := .block, text := "/*c*/", span := ⟨1, 6⟩ }
  have around : site.neighbours (Site.inOrder [comment]) [] =
      .ok [{ comment with near := ⟨some 1, none, some 2⟩, blankAfter := some false }] := by cbv
  exact Site.bind_of_eq (by decide +kernel) around (by decide +kernel) (by decide +kernel)

theorem ofTree_unshown : Manuscript.ofTree unshown.tree ⟨1, [3]⟩ unshown.source {} = .ok unshown :=
  Manuscript.ofTree_eq_ok rfl extents_unshown rfl bind_unshown rfl rfl

/-- The comment before the name of the annotation is on the shelf, but the document has no comment. -/
theorem toDoc_accounts_unshown : ∃ draft, toDoc unshownText unshown.source {} = .ok draft ∧
    unshown.Accounts [3] draft ∧ ∀ c, draft.noted c = 0 := by
  have output : unshown.tree.parserOutput = .ok ⟨1, [3]⟩ := by rfl
  obtain ⟨draft, printed, silent⟩ : ∃ draft, unshown.doc = .ok draft ∧ ∀ c, draft.noted c = 0 := ⟨_, rfl, fun _ => rfl⟩
  have ok : toDoc unshownText unshown.source {} = .ok draft :=
    bind_eq_ok.mpr ⟨_, ofText_unshownText, bind_eq_ok.mpr ⟨_, output, bind_eq_ok.mpr ⟨_, ofTree_unshown, printed⟩⟩⟩
  obtain ⟨tree, found, m, read, output', made, accounts⟩ := toDoc_accounts unshownText unshown.source {} ok
  obtain rfl := Except.ok.inj (ofText_unshownText.symm.trans read)
  obtain rfl := Except.ok.inj (output.symm.trans output')
  obtain rfl := Except.ok.inj (ofTree_unshown.symm.trans made)
  exact ⟨draft, ok, accounts, silent⟩

end
end ApexLayout
