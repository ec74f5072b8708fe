import ApexLayout.Proofs.Comment.Trailing

/-!
Documentation comments that are indented anew. The lines of one are written without the blanks around
them, so that it is again a documentation comment with the same lines, at whatever indentation it has
been written.
-/
namespace ApexLayout

/-- Lines, one under the other, with the indentation before every line but the first. -/
def stacked (indentation : List Char) : List String → List Char
  | [] => []
  | first :: rest => first.toList ++ rest.flatMap fun line => '\n' :: (indentation ++ line.toList)

theorem lines_stacked {indentation : List Char} (level : '\n' ∉ indentation) (first : String) (rest : List String)
    (one_line : ∀ line ∈ first :: rest, '\n' ∉ line.toList) :
    Text.lines (String.ofList (stacked indentation (first :: rest))) =
      first :: rest.map (String.ofList indentation ++ ·) := by
  rw [Text.lines, String.toList_ofList]
  -- The first line is taken apart from its indentation, so that the others follow by induction.
  have all : ∀ (start : List Char), '\n' ∉ start → ∀ (rest : List String), (∀ line ∈ rest, '\n' ∉ line.toList) →
      Text.pieces '\n' (start ++ rest.flatMap fun line => '\n' :: (indentation ++ line.toList)) =
        start :: rest.map (indentation ++ ·.toList) := by
    intro start own rest
    induction rest generalizing start with
    | nil => simpa using Text.pieces_of_not_mem own
    | cons line rest ih =>
      intro each
      obtain ⟨here, others⟩ := List.forall_mem_cons.mp each
      rw [List.flatMap_cons, List.cons_append, Text.pieces_append, Text.pieces_of_not_mem own,
        ih _ (by simp [level, here]) others]
      rfl
  obtain ⟨own, others⟩ := List.forall_mem_cons.mp one_line
  rw [stacked, all _ own rest others]
  simp [String.ofList_append]

theorem docLines.go_ne_nil {rest : List String} (several : rest ≠ []) : docLines.go rest ≠ [] := by
  obtain ⟨line, rest, rfl⟩ := List.exists_cons_of_ne_nil several
  cases rest <;> exact List.cons_ne_nil _ _

section
variable {gap : List Char} (blank : ∀ c ∈ gap, Text.isBlank c)
include blank

theorem go_indented (rest : List String) : docLines.go ((docLines.go rest).map (String.ofList gap ++ ·)) = docLines.go rest := by
  induction rest with
  | nil => rfl
  | cons line rest ih =>
    cases rest with
    | nil =>
      simp only [docLines.go, List.map_cons, List.map_nil, Text.trimStart_append blank, Text.trimStart_space,
        Text.trimStart_trimStart]
    | cons next rest =>
      obtain ⟨first, later, split⟩ := List.exists_cons_of_ne_nil (docLines.go_ne_nil (List.cons_ne_nil next rest))
      rw [split] at ih
      simp only [docLines.go, split, List.map_cons, Text.trim_append blank, Text.trim_space, Text.trim_trim] at ih ⊢
      rw [ih]

theorem docLines_indented (first : String) (rest : List String) :
    docLines (Text.trim first :: (docLines.go rest).map (String.ofList gap ++ ·)) = docLines (first :: rest) := by
  rw [docLines, docLines, Text.trim_trim, go_indented blank]

end

theorem dropLast_go (rest : List String) :
    (docLines.go rest).dropLast = rest.dropLast.map fun line => " " ++ Text.trim line := by
  induction rest with
  | nil => rfl
  | cons line rest ih =>
    cases rest with
    | nil => rfl
    | cons next rest =>
      obtain ⟨first, later, split⟩ := List.exists_cons_of_ne_nil (docLines.go_ne_nil (List.cons_ne_nil next rest))
      rw [split] at ih
      simp [docLines.go, split, ih]

theorem one_line_docLines {lines : List String} (one_line : ∀ line ∈ lines, '\n' ∉ line.toList) :
    ∀ line ∈ docLines lines, '\n' ∉ line.toList := by
  have others (rest : List String) (one_line : ∀ line ∈ rest, '\n' ∉ line.toList) :
      ∀ line ∈ docLines.go rest, '\n' ∉ line.toList := by
    induction rest with
    | nil => simp [docLines.go]
    | cons line rest ih =>
      obtain ⟨here, later⟩ := List.forall_mem_cons.mp one_line
      cases rest with
      | nil => simpa [docLines.go] using fun member => here (Text.mem_of_mem_trimStart member)
      | cons next rest =>
        refine List.forall_mem_cons.mpr ⟨?_, ih later⟩
        simpa using fun member => here (Text.mem_of_mem_trim member)
  cases lines with
  | nil => simp [docLines]
  | cons first rest =>
    obtain ⟨here, later⟩ := List.forall_mem_cons.mp one_line
    exact List.forall_mem_cons.mpr ⟨fun member => here (Text.mem_of_mem_trim member), others rest later⟩

namespace Comment

variable {c : Comment} {indentation : List Char}

theorem isDoc_iff {first : String} {rest : List String} (lines : Text.lines c.text = first :: rest) :
    c.isDoc ↔ rest ≠ [] ∧ ∀ line ∈ rest.dropLast, (Text.trimStart line).toList.head? = some '*' := by
  rw [isDoc, lines]
  cases rest with
  | nil => simp
  | cons second rest => simp

def reindented (c : Comment) (indentation : List Char) : Comment :=
  { c with text := String.ofList (stacked indentation (docLines (Text.lines c.text))) }

theorem lines_reindented (gaps : ∀ gap ∈ indentation, Text.isGap gap)
    {first : String} {rest : List String} (lines : Text.lines c.text = first :: rest) :
    Text.lines (c.reindented indentation).text =
      Text.trim first :: (docLines.go rest).map (String.ofList indentation ++ ·) := by
  have one_line : ∀ line ∈ Text.lines c.text, '\n' ∉ line.toList := by
    intro line member
    obtain ⟨piece, there, rfl⟩ := List.mem_map.mp member
    rw [String.toList_ofList]
    exact Text.not_mem_of_mem_pieces there
  have level : '\n' ∉ indentation := fun member => absurd (gaps _ member) (by decide)
  have each := one_line_docLines one_line
  rw [lines] at each
  rw [reindented, lines]
  exact lines_stacked level _ _ each

theorem docLines_reindented (c : Comment) (gaps : ∀ gap ∈ indentation, Text.isGap gap) :
    docLines (Text.lines (c.reindented indentation).text) = docLines (Text.lines c.text) := by
  obtain ⟨first, rest, lines⟩ := List.exists_cons_of_ne_nil (Text.lines_ne_nil c.text)
  rw [lines_reindented gaps lines, docLines_indented (fun c member => Text.isBlank_of_isGap (gaps c member)), lines]

theorem isDoc_reindented (documents : c.isDoc)
    (gaps : ∀ gap ∈ indentation, Text.isGap gap) : (c.reindented indentation).isDoc := by
  obtain ⟨first, rest, lines⟩ := List.exists_cons_of_ne_nil (Text.lines_ne_nil c.text)
  obtain ⟨several, starred⟩ := (isDoc_iff lines).mp documents
  refine (isDoc_iff (lines_reindented gaps lines)).mpr ⟨?_, ?_⟩
  · simpa using docLines.go_ne_nil several
  · rw [← List.map_dropLast, dropLast_go, List.map_map]
    intro line member
    obtain ⟨own, there, rfl⟩ := List.mem_map.mp member
    simp only [Function.comp_apply, Text.trimStart_append (fun c member => Text.isBlank_of_isGap (gaps c member)),
      Text.trimStart_space, Text.trimStart_trim]
    exact Text.head?_trim (by decide) (starred own there)

section
open Doc

/-- Lines that do not end in a gap are written one under the other. -/
theorem run_lines (settings : FormatSettings) (indentation : Indentation) (mode : Mode) (rest : List Task) (first : String)
    (others : List String) (canvas : Canvas)
    (closed : ∀ line ∈ (first :: others).dropLast, ∃ c, line.toList.getLast? = some c ∧ Text.isGap c = false) :
    ∃ next : Canvas,
      run settings canvas ((joinParts hardLine ((first :: others).map Doc.text)).map (⟨indentation, mode, ·⟩) ++ rest) [] =
          run settings next rest [] ∧
        next.written.reverse =
          canvas.written.reverse ++ stacked (Margin.ofIndentation settings indentation).text (first :: others) := by
  induction others generalizing first canvas with
  | nil => exact ⟨canvas.write first, run_step _ rfl, by simp [Canvas.write, stacked]⟩
  | cons second others ih =>
    rw [List.dropLast_cons_cons, List.forall_mem_cons] at closed
    obtain ⟨⟨c, last, ink⟩, later⟩ := closed
    obtain ⟨before, ends⟩ := List.getLast?_eq_some_iff.mp last
    -- In a flat layout the line end also asks for the next group to be measured anew.
    set between : Canvas :=
      if mode = .flat then { canvas.write first with remeasure := true } else canvas.write first with is_between
    have same : between.written.reverse = canvas.written.reverse ++ first.toList := by
      rw [is_between]
      split <;> simp [Canvas.write]
    have kept : trimmed between.written.reverse = between.written.reverse := by
      rw [same, ends, trimmed]
      simp [ink]
    obtain ⟨next, ran, written⟩ := ih second (between.endLine settings indentation) later
    refine ⟨next, ?_, ?_⟩
    · rw [← ran]
      exact (run_step _ rfl).trans ((run_step _ rfl).trans ((run_step _ rfl).trans (run_step _ rfl)))
    · rw [written, reverse_written_endLine, kept, same]
      simp [stacked]

def docBlock (c : Comment) : Doc := join hardLine ((docLines (Text.lines c.text)).map Doc.text)

theorem plain_doc_of_isDoc (documents : c.isDoc) :
    c.doc.plain = if c.blankAfter = some true then .concat [c.docBlock, hardLine] else c.docBlock := by
  have block (lines : List String) : plains (joinParts hardLine (lines.map Doc.text) : List Draft) =
      joinParts hardLine (lines.map Doc.text) := by
    induction lines with
    | nil => rfl
    | cons line lines ih =>
      cases lines with
      | nil => rfl
      | cons next lines => exact congrArg (fun later => .text line :: hardLine :: later) ih
  rw [doc, if_pos documents]
  split
  · exact congrArg (fun lines : List Doc => Doc.concat [.concat lines, hardLine]) (block _)
  · exact congrArg Doc.concat (block _)

theorem isStraight_docBlock (c : Comment) : c.docBlock.isStraight := by
  have block (lines : List String) : areStraight (joinParts hardLine (lines.map Doc.text)) := by
    induction lines with
    | nil => rfl
    | cons line lines ih =>
      cases lines with
      | nil => rfl
      | cons next lines => exact ih
  exact block _

end

/-- A documentation comment that has been written, at whatever indentation, is again one, and it is printed as before:
    also at another indentation nothing changes. What the layout writes for it is the comment at the margin. -/
theorem doc_of_reindented (c : Comment) (documents : c.isDoc) :
    (∀ indentation : List Char, (∀ gap ∈ indentation, Text.isGap gap) →
      (c.reindented indentation).isDoc ∧ (c.reindented indentation).doc.plain = c.doc.plain ∧
        ∀ other, (c.reindented indentation).reindented other = c.reindented other) ∧
    ∀ (settings : FormatSettings) (indentation : Doc.Indentation),
      (∀ gap ∈ (Doc.Margin.ofIndentation settings indentation).text, Text.isGap gap) ∧
      (c.blankAfter ≠ some true → (docLines (Text.lines c.text)).head? ≠ some "" →
        ∀ (canvas : Doc.Canvas) (mode : Doc.Mode) (rest : List Doc.Task), ∃ next : Doc.Canvas,
          Doc.run settings canvas (⟨indentation, mode, c.doc.plain.spreadBreaks.1⟩ :: rest) [] =
              Doc.run settings next rest [] ∧
            next.written.reverse = canvas.written.reverse ++
              (c.reindented (Doc.Margin.ofIndentation settings indentation).text).text.toList) := by
  refine ⟨fun indentation gaps => ?_, fun settings indentation => ⟨Doc.Margin.ofIndentation_gaps settings indentation, ?_⟩⟩
  · have same := c.docLines_reindented gaps
    have again := isDoc_reindented documents gaps
    refine ⟨again, ?_, fun other => ?_⟩
    · rw [plain_doc_of_isDoc again, plain_doc_of_isDoc documents, docBlock, docBlock, same]
      rfl
    · rw [reindented, same]
      rfl
  · intro no_blank filled canvas mode rest
    obtain ⟨first, lines, all⟩ := List.exists_cons_of_ne_nil (Text.lines_ne_nil c.text)
    obtain ⟨several, starred⟩ := (isDoc_iff all).mp documents
    have closed : ∀ line ∈ (docLines (first :: lines)).dropLast, ∃ d, line.toList.getLast? = some d ∧ Text.isGap d = false := by
      obtain ⟨second, later, split⟩ := List.exists_cons_of_ne_nil (docLines.go_ne_nil several)
      rw [docLines, split, List.dropLast_cons_cons, ← split, dropLast_go, List.forall_mem_cons, List.forall_mem_map]
      refine ⟨Text.exists_getLast?_trim (by simpa [all, docLines] using filled), fun line member => ?_⟩
      have star := Text.head?_trim (by decide) (starred line member)
      have trimmed : Text.trim line ≠ "" := by
        intro none_there
        simp [none_there] at star
      obtain ⟨d, last, ink⟩ := Text.exists_getLast?_trim trimmed
      exact ⟨d, by rw [String.toList_append, List.getLast?_append, last]; rfl, ink⟩
    rw [plain_doc_of_isDoc documents, if_neg no_blank, Doc.spreadBreaks_straight _ c.isStraight_docBlock, docBlock, all]
    obtain ⟨next, ran, written⟩ := run_lines settings indentation mode rest (Text.trim first) (docLines.go lines) canvas closed
    refine ⟨next, (Doc.run_step _ rfl).trans ran, ?_⟩
    rw [written, reindented, all, String.toList_ofList]
    rfl

def slanted : Comment where
  text := "/**\r\n\t* a\n*/"
  span := ⟨0, 12⟩
  kind := .block

theorem doc_of_reindented_slanted :
    (slanted.reindented [' ', ' ']).text = "/**\n   * a\n   */" ∧
      (slanted.reindented [' ', ' ']).reindented ['\t'] = slanted.reindented ['\t'] ∧
      ∃ next : Doc.Canvas, Doc.run {} {} [⟨[.level], .broken, slanted.doc.plain.spreadBreaks.1⟩] [] = Doc.run {} next [] [] ∧
        next.written.reverse = (slanted.reindented [' ', ' ']).text.toList := by
  have reindents := doc_of_reindented slanted (by decide)
  refine ⟨by decide, (reindents.1 [' ', ' '] (by simp [Text.isGap])).2.2 ['\t'], ?_⟩
  exact (reindents.2 {} [.level]).2 (by decide) (by decide) {} .broken []

end Comment
end ApexLayout
