import ApexLayout.Proofs.Comment.Binding
import ApexLayout.Proofs.Guard.Kinds

/-!
What is written behind an inline comment. Code written there would be lost, and behind a text that is printed as a
comment there is none (`format_isSpacing_behind_inline`). Of comments only exposed ones stand there
(`format_exposed_behind_inline`). The comments in the source of an ignored node are no such texts: they are printed with
that source, and what follows the node is written behind them.
-/
namespace ApexLayout

open Doc

/-- A text with its label is written behind a text of the comment, before the line ends. -/
def WrittenBehind (strokes : List (Stroke Comment)) (c : Comment) (label : Option Comment) (value : String) : Prop :=
  ∃ before text after, strokes = before ++ .text text (some c) :: after ∧
    .text value label ∈ after.takeWhile (!·.isFeed)

/-- Behind an inline comment there is nothing but what the guard of the manuscript admits. -/
theorem Manuscript.admits_behind_inline {m : Manuscript} {doc : Draft} (ok : m.doc = .ok doc)
    (settings : FormatSettings) {c : Comment} (inline : c.isBlock = false) {label : Option Comment} {value : String}
    (behind : WrittenBehind (doc.strokes settings) c label value) : m.guard.admits label value := by
  obtain ⟨before, text, after, whole, member⟩ := behind
  have safe := safe_strokes settings doc (m.heeds_doc doc ok)
  rw [whole] at safe
  have sounds : m.guard.sounds (some c) := by
    simp [Manuscript.guard, Comment.guard, Guard.sounds, inline]
  exact safe.admits sounds member

/-- What a source is laid out to is spelled by the strokes of its document. -/
theorem spell_of_format {text source : String} {settings : FormatSettings} {out : String}
    (ok : format text source settings = .ok out) :
    ∃ tree output m doc, Tree.ofText text = .ok tree ∧ tree.parserOutput = .ok output ∧
      Manuscript.ofTree tree output source settings = .ok m ∧ m.doc = .ok doc ∧
        out = Stroke.spell settings (doc.strokes settings) := by
  obtain ⟨doc, laid, rfl⟩ := map_eq_ok.mp ok
  obtain ⟨tree, read, ok⟩ := bind_eq_ok.mp laid
  obtain ⟨output, found, ok⟩ := bind_eq_ok.mp ok
  obtain ⟨m, made, printed⟩ := bind_eq_ok.mp ok
  exact ⟨tree, output, m, doc, read, found, made, printed, render_eq_spell settings doc⟩

section
-- The text of the tree below is longer than the usual depth.
set_option maxRecDepth 4000

def innerNote : BoundComment :=
  { node := 3, kind := .inline, text := "// one", span := ⟨2, 8⟩, near := ⟨some 1, some 2, none⟩
    placement := .endOfLine, owner := some 2, anchor := .trailing }

def outerNote : BoundComment :=
  { index := 1, node := 4, kind := .inline, text := "// two", span := ⟨11, 17⟩, near := ⟨none, some 1, none⟩
    blankAfter := some false, placement := .remaining, owner := some 1, anchor := .trailing }

def twoNotes : Manuscript where
  tree :=
    ⟨#[.of .parserOutput
         [("unit", .node 1),
           ("hiddenTokenMap", .array [.array [.number (.int 2), .node 3], .array [.number (.int 11), .node 4]])],
      .of .expressionStmnt [("expr", .node 2)] (some ⟨0, 10⟩) (some ⟨0, 0, none⟩),
      .of .locationIdentifier [("value", .string "a")] (some ⟨0, 1⟩) (some ⟨1, 0, none⟩),
      .of .inlineComment [("value", .string "// one")] (some ⟨2, 8⟩) (some ⟨0, 1, some 1⟩),
      .of .inlineComment [("value", .string "// two")] (some ⟨11, 17⟩) (some ⟨0, 1, some 1⟩)]⟩
  extents := ⟨#[none, some ⟨0, 10⟩, some ⟨0, 1⟩, some ⟨2, 8⟩, some ⟨11, 17⟩]⟩
  occurrences := { flags := [(⟨0, 1, some 1⟩, { isLast := true })] }
  shelf := { owned := [(2, [innerNote]), (1, [outerNote])] }
  source := "a // one\n; // two"
  unit := 1

def twoNotesText : String :=
  "\x7b\"@class\":\"apex.jorje.semantic.compiler.parser.ParserOutput\",
\"unit\":\x7b\"@class\":\"apex.jorje.data.ast.Stmnt$ExpressionStmnt\",\"loc\":\x7b\"startIndex\":0,\"endIndex\":10\x7d,
\"expr\":\x7b\"@class\":\"apex.jorje.data.Identifiers$LocationIdentifier\",
\"loc\":\x7b\"startIndex\":0,\"endIndex\":1\x7d,\"value\":\"a\"\x7d\x7d,
\"hiddenTokenMap\":[[2,\x7b\"@class\":\"apex.jorje.parser.impl.HiddenTokens$InlineComment\",
\"location\":\x7b\"startIndex\":2,\"endIndex\":8\x7d,\"value\":\"// one\"\x7d],
[11,\x7b\"@class\":\"apex.jorje.parser.impl.HiddenTokens$InlineComment\",
\"location\":\x7b\"startIndex\":11,\"endIndex\":17\x7d,\"value\":\"// two\"\x7d]]\x7d"

theorem ofText_twoNotesText : Tree.ofText twoNotesText = .ok twoNotes.tree := by
  have chars : twoNotesText.toList = _ := String.toList_ofList
  rw [Tree.ofText, readOutput, Json.nestingDepth, Json.read?, chars]
  rfl

theorem extents_twoNotes :
    Extents.ofTree twoNotes.tree twoNotes.source [⟨2, 8⟩, ⟨11, 17⟩] = .ok twoNotes.extents :=
  Extents.ofTree_eq_ok (by decide +kernel)

theorem bind_twoNotes :
    Site.bind ⟨twoNotes.tree, twoNotes.extents, twoNotes.source⟩ [3, 4] = .ok twoNotes.shelf := by
  let site : Site := ⟨twoNotes.tree, twoNotes.extents, twoNotes.source⟩
  let read : List Comment :=
    [{ node := 3, kind := .inline, text := "// one", span := ⟨2, 8⟩ },
      { node := 4, kind := .inline, text := "// two", span := ⟨11, 17⟩ }]
  have around : site.neighbours (Site.inOrder read) [] = .ok [innerNote.toComment, outerNote.toComment] := by cbv
  exact Site.bind_of_eq (by decide +kernel) around (by decide +kernel) (by decide +kernel)

theorem ofTree_twoNotes : Manuscript.ofTree twoNotes.tree ⟨1, [3, 4]⟩ twoNotes.source {} = .ok twoNotes :=
  Manuscript.ofTree_eq_ok rfl extents_twoNotes rfl bind_twoNotes rfl rfl

theorem output_twoNotes : twoNotes.tree.parserOutput = .ok ⟨1, [3, 4]⟩ := rfl

def heldNote (c : BoundComment) (text : String) : Draft :=
  .concat [.lineSuffix (.concat [" ", .note c.toComment (.text text)]), .breakParent]

def twoNotesDoc : Draft :=
  .concat [.concat [.concat [.concat ["a", heldNote innerNote "// one"], ";"], heldNote outerNote "// two"], hardLine]

unseal Text.skip in
theorem doc_twoNotes : twoNotes.doc = .ok twoNotesDoc := rfl

theorem strokes_twoNotes : twoNotesDoc.strokes {} =
    [.text "a" none, .text ";" none, .text " " none, .text "// one" (some innerNote.toComment), .text " " none,
      .text "// two" (some outerNote.toComment), .feed []] := by
  have unbroken : twoNotesDoc.marked = twoNotesDoc := rfl
  rw [strokes, layout, unbroken]
  simp [trace, twoNotesDoc, heldNote, hardLine, Job.move, Job.endLine, Plot.settle]

theorem toDoc_twoNotes : toDoc twoNotesText twoNotes.source {} = .ok twoNotesDoc :=
  bind_eq_ok.mpr ⟨_, ofText_twoNotesText, bind_eq_ok.mpr ⟨_, output_twoNotes,
    bind_eq_ok.mpr ⟨_, ofTree_twoNotes, doc_twoNotes⟩⟩⟩

theorem format_twoNotes : format twoNotesText twoNotes.source {} = .ok "a; // one // two\n" := by
  refine map_eq_ok.mpr ⟨_, toDoc_twoNotes, ?_⟩
  rw [render_eq_spell, strokes_twoNotes]
  decide +kernel

theorem writtenBehind_twoNotes :
    WrittenBehind (twoNotesDoc.strokes {}) innerNote.toComment none " " ∧
      WrittenBehind (twoNotesDoc.strokes {}) innerNote.toComment (some outerNote.toComment) "// two" := by
  rw [strokes_twoNotes]
  constructor
  · exact ⟨[.text "a" none, .text ";" none, .text " " none], "// one", _, rfl, by simp [Stroke.isFeed]⟩
  · exact ⟨[.text "a" none, .text ";" none, .text " " none], "// one", _, rfl, by simp [Stroke.isFeed]⟩

end

/-- Between a text that is noted as an inline comment and the end of its line only white space is written that
    is not noted, whatever is laid out, and however wide. -/
theorem format_isSpacing_behind_inline (text source : String) (settings : FormatSettings) {out : String}
    (ok : format text source settings = .ok out) :
    ∃ doc, toDoc text source settings = .ok doc ∧ out = Stroke.spell settings (doc.strokes settings) ∧
      ∀ c value, c.isBlock = false → WrittenBehind (doc.strokes settings) c none value →
        value.toList.all isSpacing := by
  obtain ⟨tree, output, m, doc, read, found, made, printed, spelled⟩ := spell_of_format ok
  have laid : toDoc text source settings = .ok doc :=
    bind_eq_ok.mpr ⟨_, read, bind_eq_ok.mpr ⟨_, found, bind_eq_ok.mpr ⟨_, made, printed⟩⟩⟩
  refine ⟨doc, laid, spelled, ?_⟩
  intro c value inline behind
  exact (Manuscript.admits_behind_inline printed settings inline behind).1 rfl

theorem format_isSpacing_behind_inline_twoNotes :
    format twoNotesText twoNotes.source {} = .ok "a; // one // two\n" ∧
      WrittenBehind (twoNotesDoc.strokes {}) innerNote.toComment none " " ∧ " ".toList.all isSpacing := by
  obtain ⟨doc, laid, -, spacing⟩ := format_isSpacing_behind_inline _ _ _ format_twoNotes
  obtain rfl := Except.ok.inj (toDoc_twoNotes.symm.trans laid)
  have behind := writtenBehind_twoNotes.1
  exact ⟨format_twoNotes, behind, spacing _ _ rfl behind⟩

/-- Of other comments, only exposed ones are written between a text of an inline comment and the end of
    its line. -/
theorem format_exposed_behind_inline (text source : String) (settings : FormatSettings) {out : String}
    (ok : format text source settings = .ok out) :
    ∃ tree output m doc, Tree.ofText text = .ok tree ∧ tree.parserOutput = .ok output ∧
      Manuscript.ofTree tree output source settings = .ok m ∧ m.doc = .ok doc ∧
        out = Stroke.spell settings (doc.strokes settings) ∧
          ∀ c other value, c.isBlock = false → WrittenBehind (doc.strokes settings) c (some other) value →
            m.Exposed other := by
  obtain ⟨tree, output, m, doc, read, found, made, printed, spelled⟩ := spell_of_format ok
  refine ⟨tree, output, m, doc, read, found, made, printed, spelled, ?_⟩
  intro c other value inline behind
  exact (Manuscript.admits_behind_inline printed settings inline behind).2 other rfl

/-- The comment behind the statement is written behind the one in it, and both are read as one then. -/
theorem format_exposed_behind_inline_twoNotes :
    format twoNotesText twoNotes.source {} = .ok "a; // one // two\n" ∧
      WrittenBehind (twoNotesDoc.strokes {}) innerNote.toComment (some outerNote.toComment) "// two" ∧
        twoNotes.Exposed outerNote.toComment := by
  obtain ⟨tree, output, m, doc, read, found, made, printed, -, exposed⟩ :=
    format_exposed_behind_inline _ _ _ format_twoNotes
  obtain rfl := Except.ok.inj (ofText_twoNotesText.symm.trans read)
  obtain rfl := Except.ok.inj (output_twoNotes.symm.trans found)
  obtain rfl := Except.ok.inj (ofTree_twoNotes.symm.trans made)
  obtain rfl := Except.ok.inj (doc_twoNotes.symm.trans printed)
  have behind := writtenBehind_twoNotes.2
  exact ⟨format_twoNotes, behind, exposed _ _ _ rfl behind⟩

end ApexLayout
