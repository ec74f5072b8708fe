import ApexLayout.Proofs.Printing.Cleared
import ApexLayout.Proofs.Render.Strokes

/-!
The blank line kept after a node. It is printed once, behind the text of the node or behind the last of the comments
that follow it, unless that comment stands inside the node: only comments bound behind it can owe the blank line.
-/
namespace ApexLayout

namespace Doc

mutual
/-- The number of line ends that a document has in every layout. -/
def lineEnds : Doc → Nat
  | .lineEnd => 1
  | .concat parts => lineEndsAll parts
  | .group contents _ => contents.lineEnds
  | .indent contents => contents.lineEnds
  | .dedent contents => contents.lineEnds
  | .align _ contents => contents.lineEnds
  | .lineSuffix contents => contents.lineEnds
  | _ => 0
def lineEndsAll : List Doc → Nat
  | [] => 0
  | doc :: docs => doc.lineEnds + lineEndsAll docs
end

theorem lineEndsAll_append (first rest : List Doc) : lineEndsAll
    (first ++ rest) = lineEndsAll first + lineEndsAll rest := by
  induction first with
  | nil => simp [lineEndsAll]
  | cons doc first ih =>
    simp only [List.cons_append, lineEndsAll, ih]
    omega

theorem lineEnds_concat (before after : List Doc) (doc : Doc) :
    (concat (before ++ doc :: after)).lineEnds = lineEndsAll before + doc.lineEnds + lineEndsAll after := by
  rw [lineEnds, lineEndsAll_append, lineEndsAll, Nat.add_assoc]

theorem lineEnds_ended (doc : Doc) : (concat [doc, hardLine]).lineEnds = doc.lineEnds + 1 := by
  simp [lineEnds, lineEndsAll, hardLine]

/-- The second document is the first one with a line end right behind a part of it. -/
inductive LineEndBehind (part : Doc) : Doc → Doc → Prop where
  | here : LineEndBehind part part (.concat [part, hardLine])
  | concat (before : List Doc) {doc longer : Doc} (after : List Doc) : LineEndBehind part doc longer →
      LineEndBehind part (.concat (before ++ doc :: after)) (.concat (before ++ longer :: after))
  | lineSuffix {doc longer : Doc} : LineEndBehind part doc longer → LineEndBehind part (.lineSuffix doc) (.lineSuffix longer)

theorem LineEndBehind.lineEnds {part doc longer : Doc} (behind : LineEndBehind part doc longer) :
    longer.lineEnds = doc.lineEnds + 1 := by
  induction behind with
  | here => exact lineEnds_ended part
  | concat before after _ ih =>
    rw [lineEnds_concat, lineEnds_concat, ih]
    omega
  | lineSuffix _ ih => exact ih

end Doc

/-! ### Comments behind a node -/

namespace Comment

def trailAfter (source : String) (before : Option Trail) : List Comment → Option Trail
  | [] => before
  | c :: rest => trailAfter source (some (c.trailingDoc source before).2) rest

theorem trailingDocs_concat (source : String) (before : Option Trail) (front : List Comment) (c : Comment) :
    trailingDocs source before (front ++ [c]) =
      trailingDocs source before front ++ [(c.trailingDoc source (trailAfter source before front)).1] := by
  induction front generalizing before with
  | nil => rfl
  | cons first front ih => simp only [List.cons_append, trailingDocs, trailAfter, ih]

/-- Behind a node, the text of a comment stands in a frame that does not depend on the blank line it owes. -/
theorem trailingDoc_frame (c : Comment) (source : String) (before : Option Trail) :
    ∃ (frame : Draft → Draft) (trail : Trail),
      (∀ owed, trailingDoc { c with blankAfter := owed } source before = (frame (doc { c with blankAfter := owed }), trail)) ∧
      ∀ part x y, Doc.LineEndBehind part x.plain y.plain → Doc.LineEndBehind part (frame x).plain (frame y).plain := by
  let blank : Draft := if Text.followsEmptyLine source c.span.start then Doc.hardLine else Doc.empty
  let mark : Draft := if c.isBlock then Doc.empty else .breakParent
  by_cases starts : (before.map fun trail => trail.isSuffix && !trail.isBlock).getD false || Text.startsLine source c.span.start
  · refine ⟨fun text => .lineSuffix (.concat [Doc.hardLine, blank, text]), ⟨c.isBlock, true⟩, fun owed => if_pos starts, ?_⟩
    exact fun part x y behind => .lineSuffix (.concat [Doc.hardLine, blank.plain] [] behind)
  · by_cases held : !c.isBlock || (before.map Trail.isSuffix).getD false
    · refine ⟨fun text => .concat [.lineSuffix (.concat [" ", text]), mark], ⟨c.isBlock, true⟩,
        fun owed => (if_neg starts).trans (if_pos held), ?_⟩
      exact fun part x y behind => .concat [] [mark.plain] (.lineSuffix (.concat [" "] [] behind))
    · refine ⟨fun text => .concat [" ", text], ⟨c.isBlock, false⟩, fun owed => (if_neg starts).trans (if_neg held), ?_⟩
      exact fun part x y behind => .concat [" "] [] behind

theorem lineEndBehind_doc (c : Comment) :
    Doc.LineEndBehind (doc { c with blankAfter := none }).plain (doc { c with blankAfter := none }).plain
      (doc { c with blankAfter := some true }).plain := by
  have ended : (doc { c with blankAfter := some true }).plain =
      .concat [(doc { c with blankAfter := none }).plain, Doc.hardLine] := by
    simp only [doc, Doc.plain]
    rfl
  rw [ended]
  exact .here

end Comment

namespace Shelf

theorem trailAfter_eq {list other : List BoundComment} (same : list.map plainly = other.map plainly) (source : String)
    (before : Option Comment.Trail) :
    Comment.trailAfter source before (list.map (·.toComment)) = Comment.trailAfter source before (other.map (·.toComment)) := by
  have plain (list : List BoundComment) (before : Option Comment.Trail) :
      Comment.trailAfter source before ((list.map plainly).map (·.toComment)) =
        Comment.trailAfter source before (list.map (·.toComment)) := by
    induction list generalizing before with
    | nil => rfl
    | cons c list ih =>
      obtain ⟨frame, trail, shown, -⟩ := c.toComment.trailingDoc_frame source before
      have trails : ((plainly c).toComment.trailingDoc source before).2 = (c.toComment.trailingDoc source before).2 :=
        (congrArg Prod.snd (shown none)).trans (congrArg Prod.snd (shown c.blankAfter)).symm
      simp only [List.map_cons, Comment.trailAfter, trails, ih]
  rw [← plain list, same, plain other]

/-- A comment bound behind the node that is printed last there has the blank line it owes at its end. -/
theorem trailingDocs_owe_trailing (source : String) (front : List BoundComment) {c : BoundComment}
    (trails : c.anchor = .trailing) (free : c.blankAfter = none) :
    ∃ docs last longer, Comment.trailingDocs source none ((front ++ [c]).map (·.toComment)) = docs ++ [last] ∧
      Comment.trailingDocs source none ((owe (front ++ [c])).map (·.toComment)) = docs ++ [longer] ∧
      Doc.LineEndBehind (plainly c).doc.plain last.plain longer.plain := by
  have owed : owing c = { c with blankAfter := some true } := by simp [owing, free]
  have plain : plainly c = c := by rw [plainly, ← free]
  set docs := Comment.trailingDocs source none (front.map (·.toComment))
  obtain ⟨frame, trail, shown, within⟩ :=
    c.toComment.trailingDoc_frame source (Comment.trailAfter source none (front.map (·.toComment)))
  refine ⟨docs, frame (plainly c).doc, frame (owing c).doc, ?_, ?_, within _ _ _ ?_⟩
  · rw [plain, List.map_append, List.map_singleton, Comment.trailingDocs_concat]
    exact congrArg (docs ++ [·.1]) (shown c.blankAfter)
  · rw [owe_concat, if_pos trails, owed, List.map_append, List.map_singleton, Comment.trailingDocs_concat]
    exact congrArg (docs ++ [·.1]) (shown (some true))
  · rw [owed]
    exact Comment.lineEndBehind_doc c.toComment

/-- A comment inside the node that is printed last behind it stays as it is. -/
theorem trailingDocs_owe_other (source : String) (front : List BoundComment) {c : BoundComment}
    (other : c.anchor ≠ .trailing) :
    ∃ docs more last, Comment.trailingDocs source none ((front ++ [c]).map (·.toComment)) = docs ++ [last] ∧
      Comment.trailingDocs source none ((owe (front ++ [c])).map (·.toComment)) = more ++ [last] := by
  have trail := trailAfter_eq (map_plainly_owe front) source none
  simp only [owe_concat, if_neg other, List.map_append, List.map_singleton, Comment.trailingDocs_concat, trail]
  exact ⟨_, _, _, rfl, rfl⟩

end Shelf

/-! ### The occurrence of a node -/

/-- The second document is the first one with a line end at its end: behind the node's own text, or behind the text of the
    last comment that is printed behind the node. -/
inductive Doc.EndsBlank (own : Doc) : List BoundComment → Doc → Doc → Prop where
  | alone : EndsBlank own [] own (.concat [own, hardLine])
  | led (front : List Doc) : EndsBlank own [] (.concat (front ++ [own])) (.concat (front ++ [.concat [own, hardLine]]))
  | followed (comments : List BoundComment) (c : BoundComment) {front : List Doc} {last longer : Doc} : own ∈ front →
      LineEndBehind (Shelf.plainly c).doc.plain last longer →
      EndsBlank own (comments ++ [c]) (.concat (front ++ [last])) (.concat (front ++ [longer]))

theorem Doc.EndsBlank.lineEnds {own doc longer : Doc} {behind : List BoundComment}
    (ends : EndsBlank own behind doc longer) :
    longer.lineEnds = doc.lineEnds + 1 := by
  cases ends with
  | alone => exact lineEnds_ended own
  | led front =>
    rw [lineEnds_concat, lineEnds_concat, lineEnds_ended]
    omega
  | followed comments c member ended =>
    rw [lineEnds_concat, lineEnds_concat, ended.lineEnds]
    omega

/-- Documents with the same last part differ elsewhere, if they do. -/
theorem Doc.not_endsBlank {own last : Doc} {behind : List BoundComment} (some_behind : behind ≠ [])
    (front more : List Doc) :
    ¬ EndsBlank own behind (.concat (front ++ [last])) (.concat (more ++ [last])) := by
  generalize shorter_eq : Doc.concat (front ++ [last]) = shorter
  generalize longer_eq : Doc.concat (more ++ [last]) = longer
  intro ends
  cases ends with
  | alone => exact some_behind rfl
  | led => exact some_behind rfl
  | followed comments c member ended =>
    obtain ⟨-, rfl⟩ := List.append_singleton_inj.1 (Doc.concat.inj shorter_eq)
    obtain ⟨-, rfl⟩ := List.append_singleton_inj.1 (Doc.concat.inj longer_eq)
    have more_ends := ended.lineEnds
    omega

namespace Printer

/-- A printer stands at the occurrence that defines a node, where the comments of the node are printed around it. -/
structure Defines (p : Printer) (id : NodeId) (edge : Edge) : Prop where
  here : p.path.head? = some ⟨id, some edge⟩
  origin : p.tree.origin id = some edge
  unmarked : p.tree.isKind id .annotationMark = false

namespace Defines

variable {p : Printer} {id : NodeId} {edge : Edge} (defines : p.Defines id edge)
include defines

theorem of_lacks {q : Printer} (lacks : q.Lacks edge id p) : q.Defines id edge where
  here := lacks.path ▸ defines.here
  origin := lacks.tree ▸ defines.origin
  unmarked := lacks.tree ▸ defines.unmarked

theorem commentDocs?_eq : p.commentDocs? id =
    if p.manuscript.shelf.hasAny id then
      some ((p.manuscript.shelf.leading id).map (·.toComment.leadingDoc p.manuscript.source),
        Comment.trailingDocs p.manuscript.source none ((p.manuscript.trailingComments id).map (·.toComment)))
    else none := by
  obtain ⟨rest, path⟩ := List.head?_eq_some_iff.1 defines.here
  simp [commentDocs?, path, defines.origin, defines.unmarked]

theorem dressed_of_behind (behind : p.manuscript.trailingComments id ≠ []) (own : Draft) :
    p.dressed id own = .concat
      ((p.manuscript.shelf.leading id).map (·.toComment.leadingDoc p.manuscript.source) ++ own ::
        Comment.trailingDocs p.manuscript.source none ((p.manuscript.trailingComments id).map (·.toComment))) := by
  have any : p.manuscript.shelf.hasAny id = true := by
    have some_there : p.manuscript.shelf.of id ≠ [] := fun empty => behind (by simp [Manuscript.trailingComments, empty])
    simpa [Shelf.hasAny] using some_there
  have follows : p.manuscript.hasTrailingComment id = true := by simpa [Manuscript.hasTrailingComment] using behind
  simp [dressed, defines.commentDocs?_eq, any, follows, Doc.parts]

theorem dressed_of_none_behind (none_behind : p.manuscript.trailingComments id = []) (own : Draft) :
    p.dressed id own = if p.manuscript.shelf.hasAny id then
      .concat ((p.manuscript.shelf.leading id).map (·.toComment.leadingDoc p.manuscript.source) ++ [p.withBlank own])
    else p.withBlank own := by
  have follows : p.manuscript.hasTrailingComment id = false := by simp [Manuscript.hasTrailingComment, none_behind]
  simp only [dressed, defines.commentDocs?_eq, follows, none_behind]
  cases p.manuscript.shelf.hasAny id with
  | false => rfl
  | true => simp [Doc.parts, Comment.trailingDocs]

end Defines

namespace Lacks

variable {edge : Edge} {node : NodeId} {p q : Printer} (lacks : q.Lacks edge node p) (defines : p.Defines node edge)
  {front : List BoundComment} {c : BoundComment}
include lacks defines

theorem endsBlank_of_none_behind (blank : p.flags.blankAfter) (none_behind : p.manuscript.trailingComments node = [])
    (own : Draft) : Doc.EndsBlank own.plain [] (q.dressed node own).plain (p.dressed node own).plain := by
  have q_none : q.manuscript.trailingComments node = [] := by
    simpa [none_behind] using lacks.manuscript.plainly_trailingComments node
  have q_close : q.flags.blankAfter = false := by
    simp [flags, (defines.of_lacks lacks).here, lacks.manuscript.get]
  have wide : p.withBlank own = .concat [own, Doc.hardLine] := by simp [withBlank, blank]
  have close : q.withBlank own = own := by simp [withBlank, q_close]
  rw [defines.dressed_of_none_behind none_behind, wide,
    (defines.of_lacks lacks).dressed_of_none_behind q_none, close,
    lacks.manuscript.hasAny, lacks.manuscript.leading, lacks.manuscript.source]
  cases p.manuscript.shelf.hasAny node with
  | false => exact .alone
  | true =>
    simp only [↓reduceIte, Doc.plain, Doc.plains_eq_map, List.map_append, List.map_cons, List.map_nil]
    exact .led _

section
variable (behind : q.manuscript.trailingComments node = front ++ [c])
include behind

theorem plain_dressed_of_behind (own : Draft) :
    let leading := (p.manuscript.shelf.leading node).map (·.toComment.leadingDoc p.manuscript.source)
    (q.dressed node own).plain = .concat ((leading ++ own :: Comment.trailingDocs p.manuscript.source none
        ((front ++ [c]).map (·.toComment))).map Doc.plain) ∧
      (p.dressed node own).plain = .concat ((leading ++ own :: Comment.trailingDocs p.manuscript.source none
        ((Shelf.owe (front ++ [c])).map (·.toComment))).map Doc.plain) := by
  have owed : p.manuscript.trailingComments node = Shelf.owe (front ++ [c]) := behind ▸ lacks.manuscript.trailingComments
  have some_behind : p.manuscript.trailingComments node ≠ [] := by
    rw [owed, Shelf.owe_concat]
    split <;> simp
  rw [defines.dressed_of_behind some_behind, owed,
    (defines.of_lacks lacks).dressed_of_behind (by simp [behind]), behind,
    lacks.manuscript.leading, lacks.manuscript.source]
  simp only [Doc.plain, Doc.plains_eq_map, and_self]

/-- A comment bound behind the node, printed last there, has the line end behind it. -/
theorem endsBlank_of_trailing (trails : c.anchor = .trailing) (free : c.blankAfter = none)
    (own : Draft) :
    Doc.EndsBlank own.plain (p.manuscript.trailingComments node) (q.dressed node own).plain (p.dressed node own).plain := by
  obtain ⟨shorter, longer⟩ := lacks.plain_dressed_of_behind defines behind own
  obtain ⟨docs, last, ended, without, owed, at_end⟩ := Shelf.trailingDocs_owe_trailing p.manuscript.source front trails free
  have behind_p : p.manuscript.trailingComments node = front ++ [Shelf.owing c] := by
    rw [lacks.manuscript.trailingComments, behind, Shelf.owe_concat, if_pos trails]
  rw [shorter, longer, without, owed, behind_p]
  simp only [← List.cons_append, ← List.append_assoc, List.map_append, List.map_cons, List.map_nil]
  refine .followed front (Shelf.owing c) (by simp) ?_
  rwa [Shelf.plainly_owing]

/-- A comment inside the node, printed last behind it, has no line end behind it. -/
theorem not_endsBlank (inside : c.anchor ≠ .trailing) (own : Draft) :
    ¬ Doc.EndsBlank own.plain (p.manuscript.trailingComments node) (q.dressed node own).plain (p.dressed node own).plain := by
  obtain ⟨shorter, longer⟩ := lacks.plain_dressed_of_behind defines behind own
  obtain ⟨docs, more, last, without, owed⟩ := Shelf.trailingDocs_owe_other p.manuscript.source front inside
  have some_behind : p.manuscript.trailingComments node ≠ [] := by
    rw [lacks.manuscript.trailingComments, behind, Shelf.owe_concat, if_neg inside]
    simp
  rw [shorter, longer, without, owed]
  simp only [← List.cons_append, ← List.append_assoc, List.map_append, List.map_cons, List.map_nil]
  exact Doc.not_endsBlank some_behind _ _

end

/-- If all comments behind the node stand inside it, the blank line is lost. -/
theorem dressed_eq (some_behind : p.manuscript.trailingComments node ≠ [])
    (inside : ∀ c ∈ p.manuscript.trailingComments node, c.anchor ≠ .trailing) (own : Draft) :
    q.dressed node own = p.dressed node own := by
  have anchors : (q.manuscript.trailingComments node).map (·.anchor) = (p.manuscript.trailingComments node).map (·.anchor) :=
    Shelf.map_eq_of_plainly (·.anchor) (fun _ => rfl) (lacks.manuscript.plainly_trailingComments node)
  have q_inside : ∀ c ∈ q.manuscript.trailingComments node, c.anchor ≠ .trailing := by
    intro c member
    obtain ⟨d, listed, same⟩ := List.mem_map.1 (anchors ▸ List.mem_map_of_mem (f := BoundComment.anchor) member)
    exact same ▸ inside d listed
  have q_behind : q.manuscript.trailingComments node = p.manuscript.trailingComments node := by
    rw [lacks.manuscript.trailingComments, Shelf.owe_eq_self q_inside]
  rw [defines.dressed_of_behind some_behind,
    (defines.of_lacks lacks).dressed_of_behind (q_behind ▸ some_behind), q_behind,
    lacks.manuscript.leading, lacks.manuscript.source]

end Lacks
end Printer

namespace Manuscript

def ownDoc (m : Manuscript) (bound : Nat) (path : Path) (id : NodeId) (edge : Option Edge) : Outcome Draft :=
  match (m.tree.node id).nodeClass with
  | some nodeClass => Printer.ofClass ⟨m, ⟨id, edge⟩ :: path, m.printAt bound⟩ id nodeClass
  | none => .ok Doc.empty

variable {tree : Tree} {output : ParserOutput} {source : String} {settings : FormatSettings} {m : Manuscript}
  {edge : Edge} {node : NodeId} {bound : Nat} {path : Path} {doc : Draft}

/-- The occurrence that defines a node, and what it is without the blank line after it. -/
theorem printAt_dressed {m' : Manuscript} (lacks : m'.Lacks edge node m) (above : edge.parent ∈ path.map Frame.id)
    (may : m.tree.isAmong node Occurrences.separable) (heeded : m.shelf.isIgnored node = false)
    (printed : m.printAt (bound + 1) path node (some edge) = .ok doc) : (∀ frame ∈ path, frame.id ≠ node) ∧
    ∃ own, m.ownDoc bound path node (some edge) = .ok own ∧
      doc = Printer.dressed ⟨m, ⟨node, some edge⟩ :: path, m.printAt bound⟩ node own ∧
      m'.printAt (bound + 1) path node (some edge) =
        .ok (Printer.dressed ⟨m', ⟨node, some edge⟩ :: path, m'.printAt bound⟩ node own) := by
  simp only [printAt, bind_eq_ok] at printed
  obtain ⟨longer, extended, shown⟩ := printed
  have fresh : ∀ frame ∈ path, frame.id ≠ node := by
    simpa using Printer.fresh_of_extend extended ⟨node, some edge⟩ (by simp)
  obtain rfl := Printer.extend_eq extended
  let p : Printer := ⟨m, ⟨node, some edge⟩ :: path, m.printAt bound⟩
  let q : Printer := ⟨m', ⟨node, some edge⟩ :: path, m'.printAt bound⟩
  have below : q.Lacks edge node p := lacks.printers bound fresh above (some edge)
  refine ⟨fresh, ?_⟩
  cases known : (p.tree.node node).nodeClass with
  | none => simp [Tree.isAmong, Tree.kind?, Node.kind?, show (m.tree.node node).nodeClass = none from known] at may
  | some nodeClass =>
    have known' : (q.tree.node node).nodeClass = some nodeClass := below.tree ▸ known
    have ignored : p.manuscript.shelf.isIgnored node = false := heeded
    have ignored' : q.manuscript.shelf.isIgnored node = false := (lacks.isIgnored node).trans heeded
    obtain ⟨own, printed, rfl⟩ := map_eq_ok.1 ((Printer.occurrence_eq known (by simp [ignored])).symm.trans shown)
    have printed' : q.ofClass node nodeClass = .ok own := (below.ofClass rfl nodeClass known (.inr may)).trans printed
    refine ⟨own, ?_, rfl, ?_⟩
    · rw [ownDoc, show (m.tree.node node).nodeClass = some nodeClass from known]
      exact printed
    · rw [printAt_succ fresh]
      exact (Printer.occurrence_eq known' (by simp [ignored'])).trans (map_eq_ok.2 ⟨own, printed', rfl⟩)

theorem isKind_annotationMark_of_separable (may : m.tree.isAmong node Occurrences.separable) :
    m.tree.isKind node .annotationMark = false := by
  unfold Tree.isAmong at may
  unfold Tree.isKind
  cases found : m.tree.kind? node with
  | none => rfl
  | some kind =>
    rw [found] at may
    cases kind <;> first | rfl | cases may

/-- The blank line after the occurrence that defines a node, for a node that may keep one and is not taken from the source
    as it is, printed on a path with its parent. Unless the comment printed last behind the node is the last one of the
    source, the document of the occurrence has exactly one line end more than without the blank line, behind the node's
    own text or behind the last comment there, if and only if no comment is printed behind the node or the last one there is
    bound behind it. If all comments printed there stand inside the node, the blank line is lost. -/
theorem printAt_endsBlank_iff (made : ofTree tree output source settings = .ok m) (origin : m.tree.origin node = some edge)
    (target : m.tree.target? edge = some node) (above : edge.parent ∈ path.map Frame.id)
    (may : m.tree.isAmong node Occurrences.separable) (blank : (m.occurrences.get edge).blankAfter)
    (heeded : m.shelf.isIgnored node = false)
    (followed : ∀ c ∈ (m.trailingComments node).getLast?, c.index + 1 ≠ output.comments.length)
    (printed : m.printAt (bound + 1) path node (some edge) = .ok doc) :
    ∃ m' own shorter, adjusted (·.clearBlank edge) tree output source settings = .ok m' ∧
      m'.printAt (bound + 1) path node (some edge) = .ok shorter ∧ m.ownDoc bound path node (some edge) = .ok own ∧
      (doc.plain.lineEnds = shorter.plain.lineEnds + 1 ∧
          Doc.EndsBlank own.plain (m.trailingComments node) shorter.plain doc.plain ↔
        ∀ c ∈ (m.trailingComments node).getLast?, c.anchor = .trailing) ∧
      (m.trailingComments node ≠ [] → (∀ c ∈ m.trailingComments node, c.anchor ≠ .trailing) → shorter = doc) := by
  obtain ⟨m', cleared, lacks, free⟩ := lacks_of_ofTree made origin target blank heeded
  obtain ⟨fresh, own, alone, rfl, shorter⟩ := printAt_dressed lacks above may heeded printed
  have below := lacks.printers bound fresh above (some edge)
  have defines : Printer.Defines ⟨m, ⟨node, some edge⟩ :: path, m.printAt bound⟩ node edge :=
    ⟨rfl, origin, isKind_annotationMark_of_separable may⟩
  refine ⟨m', own, _, cleared, shorter, alone, ?_, fun some_behind inside => ?_⟩
  · rw [and_iff_right_of_imp Doc.EndsBlank.lineEnds]
    have owed := lacks.trailingComments
    obtain behind | ⟨front, c, behind⟩ := (m'.trailingComments node).eq_nil_or_concat'
    · have none_behind : m.trailingComments node = [] := by rw [owed, behind, Shelf.owe]
      rw [none_behind]
      exact iff_of_true (below.endsBlank_of_none_behind defines blank none_behind own) (by simp)
    · rw [behind, Shelf.owe_concat] at owed
      by_cases trails : c.anchor = .trailing
      · rw [if_pos trails] at owed
        have index : (Shelf.owing c).index = c.index := congrArg (·.index) (Shelf.plainly_owing c)
        have inner : c.index + 1 ≠ output.comments.length := index ▸ followed (Shelf.owing c) (by simp [owed])
        have listed : c ∈ m'.shelf.of node := List.mem_of_mem_filter (behind ▸ List.mem_append_right front List.mem_cons_self)
        have unowed : c.blankAfter = none := (free c listed).trans (if_neg inner)
        exact iff_of_true (below.endsBlank_of_trailing defines behind trails unowed own) (by simp [owed, trails])
      · rw [if_neg trails] at owed
        exact iff_of_false (below.not_endsBlank defines behind trails own) (by simp [owed, trails])
  · exact below.dressed_eq defines some_behind inside own

end Manuscript

/-! ### An anonymous block of three statements -/

/-- Two blank lines in a block: one after a statement with a comment inside it, and one after a statement with a comment
    behind it. -/
def paused : Manuscript where
  tree :=
    ⟨#[.of .anonymousBlockUnit
         [("hiddenTokenMap", .array [.array [.node 1], .array [.node 2], .array [.node 3]]),
           ("members", .array [.node 4, .node 5, .node 6])],
      .of .inlineComment [("value", .string "//c")] (some ⟨2, 5⟩) (some ⟨0, 0, some 0⟩),
      .of .inlineComment [("value", .string "//d")] (some ⟨11, 14⟩) (some ⟨0, 0, some 0⟩),
      .of .inlineComment [("value", .string "//e")] (some ⟨18, 21⟩) (some ⟨0, 0, some 0⟩),
      .of .variableDeclStmnt [("variableDecls", .string "x;")] (some ⟨0, 7⟩) (some ⟨0, 1, some 0⟩),
      .of .variableDeclStmnt [("variableDecls", .string "y;")] (some ⟨9, 11⟩) (some ⟨0, 1, some 1⟩),
      .of .variableDeclStmnt [("variableDecls", .string "z;")] (some ⟨16, 18⟩) (some ⟨0, 1, some 2⟩)]⟩
  extents := ⟨#[some ⟨0, 21⟩, some ⟨2, 5⟩, some ⟨11, 14⟩, some ⟨18, 21⟩, some ⟨0, 7⟩, some ⟨9, 11⟩, some ⟨16, 18⟩]⟩
  occurrences :=
    { flags := [(⟨0, 0, some 0⟩, { isLast := true }), (⟨0, 1, some 0⟩, { blankAfter := true }),
        (⟨0, 1, some 1⟩, { blankAfter := true }), (⟨0, 1, some 2⟩, { isLast := true })] }
  shelf :=
    { owned := [(4, [{ node := 1, kind := .inline, text := "//c", span := ⟨2, 5⟩, near := ⟨some 4, none, none⟩
                       placement := .ownLine, owner := some 4, anchor := .dangling }]),
        (5, [{ index := 1, node := 2, kind := .inline, text := "//d", span := ⟨11, 14⟩, near := ⟨none, some 5, some 6⟩
               blankAfter := some true, placement := .endOfLine, owner := some 5, anchor := .trailing }]),
        (6, [{ index := 2, node := 3, kind := .inline, text := "//e", span := ⟨18, 21⟩, near := ⟨none, some 6, none⟩
               blankAfter := some false, placement := .remaining, owner := some 6, anchor := .trailing }])] }
  source := "x\n//c\n;\n\ny;//d\n\nz;//e"

theorem extents_paused :
    Extents.ofTree paused.tree paused.source [⟨2, 5⟩, ⟨11, 14⟩, ⟨18, 21⟩] = .ok paused.extents := by rfl

theorem bind_paused : ∃ shelf, Site.bind ⟨paused.tree, paused.extents, paused.source⟩ [1, 2, 3] = .ok shelf ∧
    shelf.deferBlanks paused.tree paused.occurrences = paused.shelf := by
  let site : Site := ⟨paused.tree, paused.extents, paused.source⟩
  let comment (node : NodeId) (text : String) (span : Span) : Comment := { node, kind := .inline, text, span }
  let read : List Comment := [comment 1 "//c" ⟨2, 5⟩, comment 2 "//d" ⟨11, 14⟩, comment 3 "//e" ⟨18, 21⟩]
  let placed : List Comment :=
    [{ comment 1 "//c" ⟨2, 5⟩ with near := ⟨some 4, none, none⟩ },
      { comment 2 "//d" ⟨11, 14⟩ with index := 1, near := ⟨none, some 5, some 6⟩ },
      { comment 3 "//e" ⟨18, 21⟩ with index := 2, near := ⟨none, some 6, none⟩, blankAfter := some false }]
  have found : [1, 2, 3].mapM site.comment = .ok read := by decide +kernel
  have around : site.neighbours (Site.inOrder read) [] = .ok placed := by cbv
  refine ⟨_, Site.bind_of_eq found around rfl rfl, ?_⟩
  have owned : ((site.bindAll [] [] {} placed).deferBlanks paused.tree paused.occurrences).owned = paused.shelf.owned := by
    decide +kernel
  have loose : ((site.bindAll [] [] {} placed).deferBlanks paused.tree paused.occurrences).loose = paused.shelf.loose := by
    decide +kernel
  exact congrArg₂ Shelf.mk owned loose

theorem ofTree_paused : Manuscript.ofTree paused.tree ⟨0, [1, 2, 3]⟩ paused.source {} = .ok paused := by
  obtain ⟨shelf, bound, deferred⟩ := bind_paused
  exact Manuscript.ofTree_eq_ok rfl extents_paused rfl bound deferred rfl

/-- The blank line behind the comment inside the first statement is lost, the one behind the comment after the second
    statement is printed once. -/
theorem Manuscript.printAt_endsBlank_iff_paused :
    (∃ m' doc, adjusted (·.clearBlank ⟨0, 1, some 0⟩) paused.tree ⟨0, [1, 2, 3]⟩ paused.source {} = .ok m' ∧
      paused.printAt 4 [⟨0, none⟩] 4 (some ⟨0, 1, some 0⟩) = .ok doc ∧
      m'.printAt 4 [⟨0, none⟩] 4 (some ⟨0, 1, some 0⟩) = .ok doc) ∧
    ∃ m' doc shorter, adjusted (·.clearBlank ⟨0, 1, some 1⟩) paused.tree ⟨0, [1, 2, 3]⟩ paused.source {} = .ok m' ∧
      paused.printAt 4 [⟨0, none⟩] 5 (some ⟨0, 1, some 1⟩) = .ok doc ∧
      m'.printAt 4 [⟨0, none⟩] 5 (some ⟨0, 1, some 1⟩) = .ok shorter ∧
      doc.plain.lineEnds = shorter.plain.lineEnds + 1 := by
  constructor
  · obtain ⟨doc, printed⟩ : ∃ doc, paused.printAt 4 [⟨0, none⟩] 4 (some ⟨0, 1, some 0⟩) = .ok doc := ⟨_, rfl⟩
    obtain ⟨m', own, shorter, cleared, without, -, -, lost⟩ := 
      printAt_endsBlank_iff ofTree_paused rfl rfl (by decide) (by decide) rfl
      (by decide) (by decide) printed
    exact ⟨m', doc, cleared, printed, lost (by decide) (by decide) ▸ without⟩
  · obtain ⟨doc, printed⟩ : ∃ doc, paused.printAt 4 [⟨0, none⟩] 5 (some ⟨0, 1, some 1⟩) = .ok doc := ⟨_, rfl⟩
    obtain ⟨m', own, shorter, cleared, without, -, once, -⟩ := 
      printAt_endsBlank_iff ofTree_paused rfl rfl (by decide) (by decide) rfl
      (by decide) (by decide) printed
    exact ⟨m', doc, shorter, cleared, printed, without, (once.2 (by decide)).1⟩

end ApexLayout
