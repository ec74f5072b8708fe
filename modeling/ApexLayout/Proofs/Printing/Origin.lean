import ApexLayout.Proofs.Comment.Inside
import ApexLayout.Proofs.Printing.Conservation

/-!
What is printed for a single occurrence of a node. Only where a node is defined are its comments printed beside it
(`noted_reference`), and only there is it taken from the source as it is. What is noted in the document of a source is
what its layout shows, and a node taken from the source shows none of the comments in it (`toDoc_noted_slices`).
-/
namespace ApexLayout

namespace Site

variable {site : Site} {id : NodeId}

theorem Inward.congr {c d : Comment} (near : c.near = d.near) (ignore : c.isIgnore = d.isIgnore)
    {anchor : Anchor} (inward : site.Inward d id anchor) : site.Inward c id anchor := by
  cases inward with
  | request asks next modifier => exact .request (ignore.trans asks) (near ▸ next) modifier
  | statement bare => exact .statement bare
  | body body => exact .body body
  | alone preceding following => exact .alone (near ▸ preceding) (near ▸ following)

theorem Settles.congr {c d : Comment} (near : c.near = d.near) (span : c.span = d.span) (ignore : c.isIgnore = d.isIgnore)
    {anchor : Anchor} (settles : site.Settles d id anchor) : site.Settles c id anchor := by
  rcases settles with ⟨around, inward⟩ | apart
  · exact .inl ⟨near ▸ around, inward.congr near ignore⟩
  · exact .inr (span ▸ apart)

/-- A comment with text does not lie within the extent of a node apart from it. -/
theorem Apart.not_contains {comment span : Span} (apart : site.Apart comment id)
    (plain : site.tree.isComment id = false) (extent : site.extents.get? id = some span)
    (proper : comment.start < comment.stop) : span.contains comment = false := by
  have outside := apart span plain extent
  rw [Bool.eq_false_iff, Span.contains, Ne, Bool.and_eq_true, decide_eq_true_eq, decide_eq_true_eq]
  omega

end Site

namespace Manuscript

variable {tree : Tree} {output : ParserOutput} {source : String} {settings : FormatSettings} {m : Manuscript}
  {c : BoundComment} {id : NodeId}

def site (m : Manuscript) : Site := ⟨m.tree, m.extents, m.source⟩

section
variable (made : ofTree tree output source settings = .ok m)
include made

theorem single_ofTree (member : c ∈ m.shelf.all) :
    m.Single c := by
  obtain ⟨filed, distinct, -⟩ := shelf_ofTree made
  exact single_of_shelf filed distinct (List.mem_mergeSort.mp member)

theorem orderly_ofTree (acyclic : m.tree.Acyclic)
    (leaves : ∀ id d, m.tree.isComment id → ¬ m.tree.Child id d) : m.site.Orderly := by
  obtain ⟨extents, found, made⟩ := bind_eq_ok.mp made
  obtain ⟨shelf, -, made⟩ := bind_eq_ok.mp made
  cases made
  exact ⟨Extents.nested_ofTree found acyclic, leaves _ _⟩

theorem settles_ofTree (orderly : m.site.Orderly)
    (member : c ∈ m.shelf.all) (owner : c.owner = some id) :
    m.site.Settles c.toComment id c.anchor := by
  obtain ⟨extents, -, made⟩ := bind_eq_ok.mp made
  obtain ⟨shelf, bound, made⟩ := bind_eq_ok.mp made
  cases made
  obtain ⟨_, holds, -⟩ := Site.bind_holds _ bound
  obtain ⟨-, same⟩ := Shelf.filed_deferBlanks (tree.inBytes source)
    (Occurrences.ofTree (tree.inBytes source) extents (Text.Lines.ofText source)) holds.toFiled
  have seen : Shelf.plainly c ∈ shelf.held.map Shelf.plainly := by
    rw [← same]
    exact List.mem_map_of_mem (List.mem_mergeSort.mp member)
  obtain ⟨d, there, alike⟩ := List.mem_map.mp seen
  have owner_is : d.owner = c.owner := (congrArg BoundComment.owner alike :)
  have anchor_is : d.anchor = c.anchor := (congrArg BoundComment.anchor alike :)
  have settles := Site.settles_of_bind orderly bound d there id (owner_is.trans owner)
  rw [anchor_is] at settles
  refine settles.congr (congrArg (·.near) alike).symm (congrArg (·.span) alike).symm ?_
  have kind : d.kind = c.kind := congrArg (·.kind) alike
  have text : d.text = c.text := congrArg (·.text) alike
  simp [Comment.isIgnore, Comment.content?, kind, text]

end

/-! ### References -/

def spotsBelow (m : Manuscript) (bound : Nat) (path : Path) (id : NodeId) (edge : Option Edge) : List Printer.Spot :=
  (m.spotsAt bound path id edge).tail

section
variable {bound : Nat} {path : Path} {id : NodeId} {edge : Option Edge} {c : BoundComment}

theorem shows_reference (refers : m.tree.origin id ≠ edge) :
    m.shows c ⟨id, edge, true⟩ = (c.owner == some id && m.standsWithin id c) := by
  have elsewhere : (m.tree.origin id == edge) = false := by simpa using refers
  simp [shows, isVerbatim, elsewhere]

theorem standsWithin_of_classless (unknown : (m.tree.node id).nodeClass = none) : m.standsWithin id c = false := by
  have kindless : m.tree.kind? id = none := by simp [Tree.kind?, Node.kind?, unknown]
  have beside : m.standsBeside id c = true :=
    standsBeside_of_plain (by simp [Tree.isKind, kindless]) (by simp [Tree.isAmong, kindless]) c
  simp [standsWithin, beside]

end

/-- At a reference, what a node prints itself of its comments is printed, and what the spots below show. -/
theorem count_reference {bound : Nat} {path : Path} {edge : Option Edge} {doc : Draft}
    (ok : m.printAt bound path id edge = .ok doc) (refers : m.tree.origin id ≠ edge) (single : m.Single c) :
    doc.noted c.toComment = (if c.owner == some id && m.standsWithin id c then 1 else 0) +
      (m.spotsBelow bound path id edge).countP (m.shows c) := by
  rw [(tally_printAt single bound []).nodes path id edge doc ok]
  cases bound with
  | zero => simp [printAt] at ok
  | succ bound =>
    simp only [spotsBelow, spotsAt, Printer.spotsHere]
    split
    · next unknown => simp [standsWithin_of_classless unknown]
    · rw [List.countP_cons, shows_reference refers, List.tail_cons, Nat.add_comm]

/-- At an occurrence that does not define its node, none of the comments beside the node is printed. What it
    prints itself is printed there too, as are the comments that are shown below it. So there is no comment
    if and only if the node prints none, and none is shown below it. -/
theorem noted_reference (made : ofTree tree output source settings = .ok m) {bound : Nat} {path : Path} {id : NodeId}
    {edge : Option Edge} {doc : Draft} (ok : m.printAt bound path id edge = .ok doc) (refers : m.tree.origin id ≠ edge) :
    (∀ c ∈ m.shelf.all, doc.noted c.toComment =
      (if c.owner == some id && m.standsWithin id c then 1 else 0) +
        (m.spotsBelow bound path id edge).countP (m.shows c)) ∧
    ((∀ c ∈ m.shelf.all, doc.noted c.toComment = 0) ↔ ∀ c ∈ m.shelf.all,
      ¬(c.owner = some id ∧ m.standsWithin id c) ∧ ∀ spot ∈ m.spotsBelow bound path id edge, ¬ m.shows c spot) := by
  have times : ∀ c ∈ m.shelf.all, doc.noted c.toComment =
      (if c.owner == some id && m.standsWithin id c then 1 else 0) +
        (m.spotsBelow bound path id edge).countP (m.shows c) :=
    fun c member => count_reference ok refers (single_ofTree made member)
  refine ⟨times, forall₂_congr fun c member => ?_⟩
  rw [times c member, Nat.add_eq_zero_iff, List.countP_eq_zero]
  simp

/-! ### Slices of the source -/

/-- At a spot of the layout, a node around the comment is taken from the source as it is. -/
structure Slices (m : Manuscript) (spot : Printer.Spot) (c : Comment) : Prop where
  laid : spot ∈ m.layout
  whole : spot.whole
  verbatim : m.isVerbatim spot.id spot.edge
  inside : ∃ span, m.extents.get? spot.id = some span ∧ span.contains c.span

theorem Slices.shows_eq {spot : Printer.Spot} (slices : m.Slices spot c.toComment) :
    m.shows c spot = (c.owner == some spot.id && m.standsBeside spot.id c) := by
  have defines : (m.tree.origin spot.id == spot.edge) = true := (Bool.and_eq_true_iff.mp slices.verbatim).1
  simp [shows, slices.verbatim, defines]

/-- The spots that show a comment are those of one kind and the others. -/
theorem countP_layout (spot : Printer.Spot) : m.layout.countP (m.shows c) =
    (if m.shows c spot then m.layout.count spot else 0) + (m.layout.filter (· != spot)).countP (m.shows c) := by
  rw [List.countP_eq_countP_filter_add m.layout (m.shows c) (· == spot), List.filter_beq, List.countP_replicate]
  rfl

end Manuscript

/-- Comments in what is taken from the source. Beside the source text, the document has a comment in a node that is taken
    as it is once more for each time the node is laid out, if it is bound to the node and stands beside it. It has it
    as often as the other spots of the layout show it, and once if it belongs to nothing and is visible. It is
    bound to the node around it because it asks to ignore that from before one of its modifiers, because the node is
    a statement of one word or an empty body, or because it has no neighbours in the node. Otherwise it is bound to a
    node apart from it, which is never the one that is taken from the source. -/
theorem toDoc_noted_slices (text source : String) (settings : FormatSettings) {draft : Draft}
    (ok : toDoc text source settings = .ok draft) :
    ∃ tree output m, Tree.ofText text = .ok tree ∧ tree.parserOutput = .ok output ∧
      Manuscript.ofTree tree output source settings = .ok m ∧
      ∀ spot, ∀ c ∈ m.shelf.all, m.Slices spot c.toComment →
        draft.noted c.toComment =
          (if c.owner == some spot.id && m.standsBeside spot.id c then m.layout.count spot else 0) +
            (m.layout.filter (· != spot)).countP (m.shows c) +
            (if c.owner == none && c.toComment.isVisible m.source then 1 else 0) ∧
        (m.tree.Acyclic → (∀ id d, m.tree.isComment id → ¬ m.tree.Child id d) → m.tree.isComment spot.id = false →
          c.span.start < c.span.stop → ∀ owner, c.owner = some owner →
            c.near.enclosing = some owner ∧ m.site.Inward c.toComment owner c.anchor ∨
              owner ≠ spot.id ∧ m.site.Apart c.span owner) := by
  obtain ⟨tree, read, ok⟩ := bind_eq_ok.mp ok
  obtain ⟨output, found, ok⟩ := bind_eq_ok.mp ok
  obtain ⟨m, made, printed⟩ := bind_eq_ok.mp ok
  refine ⟨tree, output, m, read, found, made, fun spot c member slices => ⟨?_, ?_⟩⟩
  · rw [Manuscript.noted_doc (Manuscript.single_ofTree made member) printed, Manuscript.countP_layout spot, slices.shows_eq]
  · intro acyclic leaves plain proper owner bound
    refine (Manuscript.settles_ofTree made (Manuscript.orderly_ofTree made acyclic leaves) member bound).imp_right fun apart =>
      ⟨fun same => ?_, apart⟩
    obtain ⟨span, extent, inside⟩ := slices.inside
    have outside := Site.Apart.not_contains (same ▸ apart) plain extent proper
    exact absurd (outside.symm.trans inside) (by decide)

/-! ### A class that is to be ignored -/

/-- A class with a request to ignore it before its second annotation and a comment behind that. It is
    referred to once more. -/
def requested : Manuscript where
  tree :=
    ⟨#[.of .parserOutput
         [("hiddenTokenMap", .array [.array [.node 1], .array [.node 2]]), ("unit", .node 3), ("again", .node 3)],
      .of .blockComment [("value", .string "/*prettier-ignore*/")] (some ⟨2, 21⟩) (some ⟨0, 0, some 0⟩),
      .of .blockComment [("value", .string "/*c*/")] (some ⟨23, 28⟩) (some ⟨0, 0, some 0⟩),
      .of .classDecl [("modifiers", .array [.node 4, .node 5]), ("name", .string "C"), ("members", .array [])]
        (some ⟨0, 38⟩) (some ⟨0, 1, none⟩),
      .of .annotationMark [] (some ⟨0, 2⟩) (some ⟨3, 0, some 0⟩),
      .of .annotationMark [] (some ⟨21, 23⟩) (some ⟨3, 0, some 1⟩)]⟩
  extents := ⟨#[none, some ⟨2, 21⟩, some ⟨23, 28⟩, some ⟨0, 38⟩, some ⟨0, 2⟩, some ⟨21, 23⟩]⟩
  occurrences := { flags := [(⟨0, 0, some 0⟩, { isLast := true }), (⟨3, 0, some 1⟩, { isLast := true })] }
  shelf :=
    { owned := [(3, [{ node := 1, kind := .block, text := "/*prettier-ignore*/", span := ⟨2, 21⟩
                       near := ⟨some 3, some 4, some 5⟩, placement := .remaining, owner := some 3, anchor := .leading }]),
        (5, [{ index := 1, node := 2, kind := .block, text := "/*c*/", span := ⟨23, 28⟩, near := ⟨some 3, some 5, none⟩
               blankAfter := some false, placement := .remaining, owner := some 5, anchor := .trailing }])] }
  source := "@A/*prettier-ignore*/@B/*c*/class C \x7b\x7d"
  unit := 3

theorem extents_requested : Extents.ofTree requested.tree requested.source [⟨2, 21⟩, ⟨23, 28⟩] = .ok requested.extents :=
  Extents.ofTree_eq_ok (by decide +kernel)

theorem bind_requested : Site.bind ⟨requested.tree, requested.extents, requested.source⟩ [1, 2] = .ok requested.shelf := by
  let site : Site := ⟨requested.tree, requested.extents, requested.source⟩
  let request : Comment := { node := 1, kind := .block, text := "/*prettier-ignore*/", span := ⟨2, 21⟩ }
  let note : Comment := { node := 2, kind := .block, text := "/*c*/", span := ⟨23, 28⟩ }
  let placed : List Comment :=
    [{ request with near := ⟨some 3, some 4, some 5⟩ },
      { note with index := 1, near := ⟨some 3, some 5, none⟩, blankAfter := some false }]
  have around : site.neighbours (Site.inOrder [request, note]) [] = .ok placed := by cbv
  exact Site.bind_of_eq (by decide +kernel) around (by decide +kernel) (by decide +kernel)

theorem ofTree_requested : Manuscript.ofTree requested.tree ⟨3, [1, 2]⟩ requested.source {} = .ok requested :=
  Manuscript.ofTree_eq_ok rfl extents_requested rfl bind_requested rfl rfl

namespace Manuscript

/-- Where the class is referred to, the request is left out, and the comment behind the annotation is printed
    again. -/
theorem noted_reference_requested : ∃ doc, requested.printAt 4 [⟨0, none⟩] 3 (some ⟨0, 2, none⟩) = .ok doc ∧
    (∀ c ∈ requested.shelf.all, doc.noted c.toComment =
      (if c.owner == some 3 && requested.standsWithin 3 c then 1 else 0) +
        (requested.spotsBelow 4 [⟨0, none⟩] 3 (some ⟨0, 2, none⟩)).countP (requested.shows c)) ∧
    requested.shelf.held.map (fun c => doc.noted c.toComment) = [0, 1] := by
  obtain ⟨doc, ok, noted⟩ : ∃ doc, requested.printAt 4 [⟨0, none⟩] 3 (some ⟨0, 2, none⟩) = .ok doc ∧
      requested.shelf.held.map (fun c => doc.noted c.toComment) = [0, 1] := ⟨_, rfl, by rfl⟩
  exact ⟨doc, ok, (noted_reference ofTree_requested ok (by decide)).1, noted⟩

end Manuscript

section
-- The text of the tree below is longer than the usual depth.
set_option maxRecDepth 2500

/-- A class with a request to ignore it before its annotation. -/
def ignored : Manuscript where
  tree :=
    ⟨#[.of .parserOutput [("unit", .node 1), ("hiddenTokenMap", .array [.array [.number (.int 1), .node 3]])],
      .of .classDecl [("modifiers", .array [.node 2])] (some ⟨0, 32⟩) (some ⟨0, 0, none⟩),
      .of .annotationMark [] (some ⟨19, 21⟩) (some ⟨1, 0, some 0⟩),
      .of .blockComment [("value", .string "/*prettier-ignore*/")] (some ⟨0, 19⟩) (some ⟨0, 1, some 1⟩)]⟩
  extents := ⟨#[none, some ⟨0, 32⟩, some ⟨19, 21⟩, some ⟨0, 19⟩]⟩
  occurrences := { flags := [(⟨1, 0, some 0⟩, { isLast := true }), (⟨0, 1, some 1⟩, { isLast := true })] }
  shelf :=
    { owned := [(1, [{ node := 3, kind := .block, text := "/*prettier-ignore*/", span := ⟨0, 19⟩
                       near := ⟨some 1, none, some 2⟩, blankAfter := some false, placement := .remaining, owner := some 1
                       anchor := .leading }])] }
  source := "/*prettier-ignore*/@A class C \x7b\x7d"
  unit := 1

def ignoredText : String :=
  "\x7b\"@class\":\"apex.jorje.semantic.compiler.parser.ParserOutput\",
\"unit\":\x7b\"@class\":\"apex.jorje.data.ast.ClassDecl\",\"loc\":\x7b\"startIndex\":0,\"endIndex\":32\x7d,
\"modifiers\":[\x7b\"@class\":\"apex.jorje.data.ast.Modifier$Annotation\",\"loc\":\x7b\"startIndex\":19,\"endIndex\":21\x7d\x7d]\x7d,
\"hiddenTokenMap\":[[1,\x7b\"@class\":\"apex.jorje.parser.impl.HiddenTokens$BlockComment\",
\"location\":\x7b\"startIndex\":0,\"endIndex\":19\x7d,\"value\":\"/*prettier-ignore*/\"\x7d]]\x7d"

theorem ofText_ignoredText : Tree.ofText ignoredText = .ok ignored.tree := by
  have chars : ignoredText.toList = _ := String.toList_ofList
  rw [Tree.ofText, readOutput, Json.nestingDepth, Json.read?, chars]
  rfl

theorem ofTree_ignored : Manuscript.ofTree ignored.tree ⟨1, [3]⟩ ignored.source {} = .ok ignored := by
  let site : Site := ⟨ignored.tree, ignored.extents, ignored.source⟩
  let request : Comment := { node := 3, kind := .block, text := "/*prettier-ignore*/", span := ⟨0, 19⟩ }
  have around : site.neighbours (Site.inOrder [request]) [] =
      .ok [{ request with near := ⟨some 1, none, some 2⟩, blankAfter := some false }] := by cbv
  have bound : Site.bind site [3] = .ok ignored.shelf :=
    Site.bind_of_eq (by decide +kernel) around (by decide +kernel) (by decide +kernel)
  exact Manuscript.ofTree_eq_ok rfl (Extents.ofTree_eq_ok (by decide +kernel)) rfl bound rfl rfl

/-- The request is printed once more before the class, which is taken from the source together with it. -/
theorem toDoc_noted_slices_ignored : ∃ draft c, toDoc ignoredText ignored.source {} = .ok draft ∧ c ∈ ignored.shelf.all ∧
    ignored.Slices ⟨1, some ⟨0, 0, none⟩, true⟩ c.toComment ∧ draft.noted c.toComment = 1 ∧
    ignored.site.Inward c.toComment 1 .leading := by
  let c : BoundComment :=
    { node := 3, kind := .block, text := "/*prettier-ignore*/", span := ⟨0, 19⟩, near := ⟨some 1, none, some 2⟩
      blankAfter := some false, placement := .remaining, owner := some 1, anchor := .leading }
  have output : ignored.tree.parserOutput = .ok ⟨1, [3]⟩ := by rfl
  obtain ⟨draft, printed⟩ : ∃ draft, ignored.doc = .ok draft := ⟨_, rfl⟩
  have ok : toDoc ignoredText ignored.source {} = .ok draft :=
    bind_eq_ok.mpr ⟨_, ofText_ignoredText, bind_eq_ok.mpr ⟨_, output, bind_eq_ok.mpr ⟨_, ofTree_ignored, printed⟩⟩⟩
  have member : c ∈ ignored.shelf.all := List.mem_mergeSort.mpr (by simp [ignored, c])
  have laid : ignored.layout = [⟨1, some ⟨0, 0, none⟩, true⟩] := by rfl
  have slices : ignored.Slices ⟨1, some ⟨0, 0, none⟩, true⟩ c.toComment :=
    ⟨by simp [laid], rfl, by decide +kernel, ⟨0, 32⟩, rfl, by decide⟩
  have leaves (id d : NodeId) (comment : ignored.tree.isComment id) : ¬ ignored.tree.Child id d := by
    rintro ⟨edge, inner⟩
    match id with
    | 0 | 1 | 2 => exact absurd comment (by decide)
    | 3 => exact absurd inner List.not_mem_nil
    | id + 4 => exact absurd comment (by simp [Tree.isComment, Tree.isAmong, Tree.kind?, Tree.node, Node.kind?, ignored])
  obtain ⟨tree, found, m, read, output', made, counts⟩ := toDoc_noted_slices ignoredText ignored.source {} ok
  obtain rfl := Except.ok.inj (ofText_ignoredText.symm.trans read)
  obtain rfl := Except.ok.inj (output.symm.trans output')
  obtain rfl := Except.ok.inj (ofTree_ignored.symm.trans made)
  obtain ⟨times, reason⟩ := counts _ c member slices
  have acyclic : ignored.tree.Acyclic := Extents.acyclic_of_lt (by decide +kernel)
  refine ⟨draft, c, ok, member, slices, ?_, ?_⟩
  · rw [times, laid]
    rfl
  · rcases reason acyclic leaves (by decide) (by decide) 1 rfl with inward | other
    · exact inward.2
    · exact absurd rfl other.1

end
end ApexLayout
