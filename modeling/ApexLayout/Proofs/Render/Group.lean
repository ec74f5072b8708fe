import ApexLayout.Proofs.Render.Width

/-!
A group breaks as a whole, and only if it does not fit. Measuring it adds up the characters of its text on one line
(`fits_flat`), laying it out flat writes that text (`run_flat`), and laying it out broken ends the line at every line
that is in no further group (`run_broken`).
-/
namespace ApexLayout.Doc

mutual
/-- Texts of one line, lines and groups, with any indentation, and nothing that forces a break. -/
def isUnforced : Doc → Bool
  | .text value => !value.toList.contains '\n'
  | .concat parts => areUnforced parts
  | .group contents broken => !broken && contents.isUnforced
  | .indent contents => contents.isUnforced
  | .dedent contents => contents.isUnforced
  | .align _ contents => contents.isUnforced
  | .line | .softLine => true
  | .lineEnd | .lineSuffix _ | .breakParent | .trim => false
def areUnforced : List Doc → Bool
  | [] => true
  | doc :: docs => doc.isUnforced && areUnforced docs
end

mutual
/-- The text of a document on one line: a line is a space, and a soft line is nothing. -/
def flatText : Doc → List Char
  | .text value => value.toList
  | .concat parts => flatTexts parts
  | .group contents _ => contents.flatText
  | .indent contents => contents.flatText
  | .dedent contents => contents.flatText
  | .align _ contents => contents.flatText
  | .line => [' ']
  | .softLine | .lineEnd | .lineSuffix _ | .breakParent | .trim => []
def flatTexts : List Doc → List Char
  | [] => []
  | doc :: docs => doc.flatText ++ flatTexts docs
end

/-- The second text is the first one with a broken document behind it. Its lines that are in no further
    group are line feeds with the indentation behind them, and take the spaces and tabs away that stand
    before them. A further group is written on one line or is broken as well. -/
inductive Unfolds (settings : FormatSettings) : Indentation → Doc → List Char → List Char → Prop where
  | text (indentation : Indentation) (value : String) (before : List Char) :
    Unfolds settings indentation (.text value) before (before ++ value.toList)
  | nil (indentation : Indentation) (before : List Char) : Unfolds settings indentation (.concat []) before before
  | cons {indentation : Indentation} {doc : Doc} {docs : List Doc} {before between after : List Char}
      (first : Unfolds settings indentation doc before between)
      (rest : Unfolds settings indentation (.concat docs) between after) :
    Unfolds settings indentation (.concat (doc :: docs)) before after
  | indent {indentation : Indentation} {doc : Doc} {before after : List Char}
      (inside : Unfolds settings (.level :: indentation) doc before after) :
    Unfolds settings indentation (.indent doc) before after
  | dedent {indentation : Indentation} {doc : Doc} {before after : List Char}
      (inside : Unfolds settings indentation.tail doc before after) : Unfolds settings indentation (.dedent doc) before after
  | align {indentation : Indentation} {columns : Nat} {doc : Doc} {before after : List Char}
      (inside : Unfolds settings (if columns = 0 then indentation else .columns columns :: indentation) doc before after) :
    Unfolds settings indentation (.align columns doc) before after
  | line (indentation : Indentation) (before : List Char) :
    Unfolds settings indentation .line before
      (trimmed before ++ '\n' :: (Margin.ofIndentation settings indentation).text)
  | softLine (indentation : Indentation) (before : List Char) :
    Unfolds settings indentation .softLine before
      (trimmed before ++ '\n' :: (Margin.ofIndentation settings indentation).text)
  | flat (indentation : Indentation) (doc : Doc) (before : List Char) :
    Unfolds settings indentation (fill doc) before (before ++ doc.flatText)
  | broken {indentation : Indentation} {doc : Doc} {before after : List Char}
      (inside : Unfolds settings indentation doc before after) : Unfolds settings indentation (fill doc) before after

/-! ### Documents without forced breaks -/

mutual
theorem plain_eq_self (doc : Doc) : doc.plain = doc := by
  cases doc with
  | concat parts => rw [plain, plains_eq_self parts]
  | group contents broken | indent contents | dedent contents | align columns contents | lineSuffix contents =>
    rw [plain, plain_eq_self contents]
  | note label contents => exact label.elim
  | _ => rfl
theorem plains_eq_self (docs : List Doc) : plains docs = docs := by
  cases docs with
  | nil => rfl
  | cons doc docs => rw [plains, plain_eq_self doc, plains_eq_self docs]
end

mutual
theorem spreadBreaks_unforced (doc : Doc) (unforced : doc.isUnforced) : doc.spreadBreaks = (doc, false) := by
  cases doc with
  | concat parts => rw [spreadBreaks, spreadBreaksAll_unforced parts unforced]
  | group contents broken =>
    simp only [isUnforced, Bool.and_eq_true, Bool.not_eq_true'] at unforced
    rw [spreadBreaks, spreadBreaks_unforced contents unforced.2, unforced.1]
    rfl
  | indent contents | dedent contents | align columns contents =>
    rw [spreadBreaks, spreadBreaks_unforced contents unforced]
  | lineSuffix contents | breakParent => cases unforced
  | note label contents => exact label.elim
  | _ => rfl
theorem spreadBreaksAll_unforced (docs : List Doc) (unforced : areUnforced docs) :
    spreadBreaksAll docs = (docs, false) := by
  cases docs with
  | nil => rfl
  | cons doc docs =>
    simp only [areUnforced, Bool.and_eq_true] at unforced
    rw [spreadBreaksAll, spreadBreaks_unforced doc unforced.1, spreadBreaksAll_unforced docs unforced.2]
    rfl
end

/-! ### Measuring -/

theorem fits_of_neg {columns : Int} (negative : columns < 0) (gaps : Nat) (docs : List (Mode × Doc)) :
    fits columns gaps docs = false := by
  rw [fits.eq_def, if_pos negative]

/-- Where no columns are left nothing fits, so that this need not be asked again. -/
theorem ite_fits {columns left : Int} (fewer : left ≤ columns) (gaps : Nat) (docs : List (Mode × Doc)) :
    (if columns < 0 then false else fits left gaps docs) = fits left gaps docs := by
  split
  · next negative => rw [fits_of_neg (by omega)]
  · rfl

mutual
/-- A flat document takes as many columns as its text has characters. -/
theorem fits_flat (doc : Doc) (unforced : doc.isUnforced) (gaps : Nat) (rest : List (Mode × Doc)) :
    ∃ later, ∀ columns, fits columns gaps ((.flat, doc) :: rest) = fits (columns - doc.flatText.length) later rest := by
  cases doc with
  | text value =>
    refine ⟨trailingGaps gaps value, fun columns => ?_⟩
    rw [fits, ite_fits (by omega), flatText, String.length_toList]
  | concat parts =>
    obtain ⟨later, same⟩ := fits_inMode_flat parts unforced gaps rest
    refine ⟨later, fun columns => ?_⟩
    rw [fits, ite_fits (Int.le_refl _), same, flatText]
  | group contents broken =>
    simp only [isUnforced, Bool.and_eq_true, Bool.not_eq_true'] at unforced
    obtain ⟨later, same⟩ := fits_flat contents unforced.2 gaps rest
    refine ⟨later, fun columns => ?_⟩
    rw [fits, ite_fits (Int.le_refl _), unforced.1, if_neg Bool.false_ne_true, same, flatText]
  | indent contents | dedent contents | align n contents =>
    obtain ⟨later, same⟩ := fits_flat contents unforced gaps rest
    refine ⟨later, fun columns => ?_⟩
    rw [fits, ite_fits (Int.le_refl _), same, flatText]
  | line =>
    refine ⟨gaps + 1, fun columns => ?_⟩
    rw [fits, if_neg (show Mode.flat ≠ .broken by decide), ite_fits (by omega)]
    rfl
  | softLine =>
    refine ⟨gaps, fun columns => ?_⟩
    rw [fits, if_neg (show Mode.flat ≠ .broken by decide), ite_fits (Int.le_refl _)]
    simp [flatText]
  | lineEnd | lineSuffix contents | breakParent | trim => cases unforced
  | note label contents => exact label.elim
theorem fits_inMode_flat (docs : List Doc) (unforced : areUnforced docs) (gaps : Nat) (rest : List (Mode × Doc)) :
    ∃ later, ∀ columns,
      fits columns gaps (inMode .flat docs ++ rest) = fits (columns - (flatTexts docs).length) later rest := by
  cases docs with
  | nil => exact ⟨gaps, fun columns => by simp [inMode, flatTexts]⟩
  | cons doc docs =>
    simp only [areUnforced, Bool.and_eq_true] at unforced
    obtain ⟨between, first⟩ := fits_flat doc unforced.1 gaps (inMode .flat docs ++ rest)
    obtain ⟨later, others⟩ := fits_inMode_flat docs unforced.2 between rest
    refine ⟨later, fun columns => ?_⟩
    have whole : columns - (flatTexts (doc :: docs)).length =
        columns - doc.flatText.length - (flatTexts docs).length := by
      simp only [flatTexts, List.length_append]
      omega
    rw [whole, ← others, ← first]
    rfl
end

/-- A group fits if its text and the one behind it do, character by character. -/
theorem fitsFlat_iff {settings : FormatSettings} (width : settings.printWidth.toNat < columnLimit) {column : Nat}
    (short : column < columnLimit) {doc : Doc} (unforced : doc.isUnforced) (indentation : Indentation) (value : String) :
    fitsFlat settings column doc [⟨indentation, .broken, .text value⟩] ↔
      column + doc.flatText.length + value.toList.length ≤ settings.printWidth.toNat := by
  obtain ⟨later, same⟩ := fits_flat doc unforced 0 [(.broken, .text value)]
  rw [fitsFlat, columnsLeft_of_lt width short]
  simp only [List.map_cons, List.map_nil]
  rw [same, fits, ite_fits (by omega), fits]
  simp only [Bool.if_false_left, Bool.and_true, Bool.not_eq_true', decide_eq_false_iff_not, String.length_toList]
  omega

/-! ### Laying out -/

section
variable {settings : FormatSettings} {canvas : Canvas} {rest : List Task}

theorem run_step (task : Task) {next : Canvas} {tasks : List Task}
    (step : advance settings canvas task rest [] = Work.settle ⟨next, tasks, []⟩) :
    run settings canvas (task :: rest) [] = run settings next tasks [] := by
  rw [run, step, Work.settle_of_none_waits rfl]

/-- A group in a broken document is flat if it fits behind what is written, with all that comes after it. -/
theorem run_fill (measured : canvas.remeasure = false) (indentation : Indentation) (contents : Doc) :
    run settings canvas (⟨indentation, .broken, fill contents⟩ :: rest) [] =
      run settings canvas
        (⟨indentation, if fitsFlat settings canvas.column contents rest then .flat else .broken, contents⟩ :: rest) [] := by
  have same : { canvas with remeasure := false } = canvas := by rw [← measured]
  refine run_step _ ?_
  simp [advance, fill, groupMode, same]

theorem reverse_written_endLine (indentation : Indentation) :
    (canvas.endLine settings indentation).written.reverse =
      trimmed canvas.written.reverse ++ '\n' :: (Margin.ofIndentation settings indentation).text := by
  simp [Canvas.endLine, trimmed]

end

mutual
theorem run_flat (doc : Doc) (unforced : doc.isUnforced) (settings : FormatSettings) (indentation : Indentation)
    (canvas : Canvas) (measured : canvas.remeasure = false) (rest : List Task) :
    ∃ next : Canvas, next.remeasure = false ∧
      run settings canvas (⟨indentation, .flat, doc⟩ :: rest) [] = run settings next rest [] ∧
      next.written.reverse = canvas.written.reverse ++ doc.flatText := by
  cases doc with
  | text value => exact ⟨canvas.write value, measured, run_step _ rfl, by simp [Canvas.write, flatText]⟩
  | concat parts =>
    obtain ⟨next, still, same, written⟩ := runAll_flat parts unforced settings indentation canvas measured rest
    exact ⟨next, still, (run_step _ rfl).trans same, written⟩
  | group contents broken =>
    simp only [isUnforced, Bool.and_eq_true, Bool.not_eq_true'] at unforced
    obtain ⟨next, still, same, written⟩ :=
      run_flat contents unforced.2 settings indentation { canvas with remeasure := false } rfl rest
    refine ⟨next, still, (run_step _ ?_).trans same, written⟩
    simp [advance, groupMode, unforced.1, measured]
  | indent contents | dedent contents | align columns contents =>
    obtain ⟨next, still, same, written⟩ := run_flat contents unforced settings _ canvas measured rest
    exact ⟨next, still, (run_step _ rfl).trans same, written⟩
  | line =>
    refine ⟨canvas.write " ", measured, ?_, by simp [Canvas.write, flatText]⟩
    rw [run]
    rfl
  | softLine =>
    refine ⟨canvas, measured, ?_, by simp [flatText]⟩
    rw [run]
    rfl
  | lineEnd | lineSuffix contents | breakParent | trim => cases unforced
  | note label contents => exact label.elim
theorem runAll_flat (docs : List Doc) (unforced : areUnforced docs) (settings : FormatSettings)
    (indentation : Indentation) (canvas : Canvas) (measured : canvas.remeasure = false) (rest : List Task) :
    ∃ next : Canvas, next.remeasure = false ∧
      run settings canvas (docs.map (⟨indentation, .flat, ·⟩) ++ rest) [] = run settings next rest [] ∧
      next.written.reverse = canvas.written.reverse ++ flatTexts docs := by
  cases docs with
  | nil => exact ⟨canvas, measured, rfl, by simp [flatTexts]⟩
  | cons doc docs =>
    simp only [areUnforced, Bool.and_eq_true] at unforced
    obtain ⟨between, still, first, written⟩ :=
      run_flat doc unforced.1 settings indentation canvas measured (docs.map (⟨indentation, .flat, ·⟩) ++ rest)
    obtain ⟨next, again, others, later⟩ := runAll_flat docs unforced.2 settings indentation between still rest
    exact ⟨next, again, first.trans others, by rw [later, written, flatTexts, List.append_assoc]⟩
end

mutual
/-- A broken document ends the line at each of its own lines. -/
theorem run_broken (doc : Doc) (unforced : doc.isUnforced) (settings : FormatSettings) (indentation : Indentation)
    (canvas : Canvas) (measured : canvas.remeasure = false) (rest : List Task) :
    ∃ next : Canvas, next.remeasure = false ∧
      run settings canvas (⟨indentation, .broken, doc⟩ :: rest) [] = run settings next rest [] ∧
      Unfolds settings indentation doc canvas.written.reverse next.written.reverse := by
  cases doc with
  | text value =>
    refine ⟨canvas.write value, measured, run_step _ rfl, ?_⟩
    simpa [Canvas.write] using Unfolds.text indentation value canvas.written.reverse
  | concat parts =>
    obtain ⟨next, still, same, unfolds⟩ := runAll_broken parts unforced settings indentation canvas measured rest
    exact ⟨next, still, (run_step _ rfl).trans same, unfolds⟩
  | group contents broken =>
    simp only [isUnforced, Bool.and_eq_true, Bool.not_eq_true'] at unforced
    obtain ⟨rfl, unforced⟩ := unforced
    rw [show (.group contents false : Doc) = fill contents from rfl, run_fill measured]
    split
    · obtain ⟨next, still, same, written⟩ := run_flat contents unforced settings indentation canvas measured rest
      exact ⟨next, still, same, written ▸ .flat indentation contents _⟩
    · obtain ⟨next, still, same, unfolds⟩ := run_broken contents unforced settings indentation canvas measured rest
      exact ⟨next, still, same, .broken unfolds⟩
  | indent contents =>
    obtain ⟨next, still, same, unfolds⟩ := run_broken contents unforced settings _ canvas measured rest
    exact ⟨next, still, (run_step _ rfl).trans same, .indent unfolds⟩
  | dedent contents =>
    obtain ⟨next, still, same, unfolds⟩ := run_broken contents unforced settings _ canvas measured rest
    exact ⟨next, still, (run_step _ rfl).trans same, .dedent unfolds⟩
  | align columns contents =>
    obtain ⟨next, still, same, unfolds⟩ := run_broken contents unforced settings _ canvas measured rest
    exact ⟨next, still, (run_step _ rfl).trans same, .align unfolds⟩
  | line =>
    refine ⟨canvas.endLine settings indentation, measured, run_step _ rfl, ?_⟩
    rw [reverse_written_endLine]
    exact .line indentation _
  | softLine =>
    refine ⟨canvas.endLine settings indentation, measured, run_step _ rfl, ?_⟩
    rw [reverse_written_endLine]
    exact .softLine indentation _
  | lineEnd | lineSuffix contents | breakParent | trim => cases unforced
  | note label contents => exact label.elim
theorem runAll_broken (docs : List Doc) (unforced : areUnforced docs) (settings : FormatSettings)
    (indentation : Indentation) (canvas : Canvas) (measured : canvas.remeasure = false) (rest : List Task) :
    ∃ next : Canvas, next.remeasure = false ∧
      run settings canvas (docs.map (⟨indentation, .broken, ·⟩) ++ rest) [] = run settings next rest [] ∧
      Unfolds settings indentation (.concat docs) canvas.written.reverse next.written.reverse := by
  cases docs with
  | nil => exact ⟨canvas, measured, rfl, .nil indentation _⟩
  | cons doc docs =>
    simp only [areUnforced, Bool.and_eq_true] at unforced
    obtain ⟨between, still, first, here⟩ :=
      run_broken doc unforced.1 settings indentation canvas measured (docs.map (⟨indentation, .broken, ·⟩) ++ rest)
    obtain ⟨next, again, others, later⟩ := runAll_broken docs unforced.2 settings indentation between still rest
    exact ⟨next, again, first.trans others, .cons here later⟩
end

/-! ### A group between two texts -/

section
variable {settings : FormatSettings} {doc : Doc} {front : String}

theorem render_between (unforced : doc.isUnforced) (settings : FormatSettings) (front back : String) :
    (render settings (.concat [.text front, fill doc, .text back] : Doc)).toList =
      (run settings (Canvas.write {} front)
        [⟨[], .broken, fill doc⟩, ⟨[], .broken, .text back⟩] []).written.reverse := by
  have unbroken : (.concat [.text front, fill doc, .text back] : Doc).spreadBreaks.1 =
      .concat [.text front, fill doc, .text back] := by
    simp [spreadBreaks, spreadBreaksAll, fill, spreadBreaks_unforced doc unforced]
  rw [render, String.toList_ofList, plain_eq_self, unbroken, run_step _ rfl]
  rw [List.map_cons, List.cons_append, run_step _ rfl]
  rfl

theorem run_text (canvas : Canvas) (mode : Mode) (value : String) :
    (run settings canvas [⟨[], mode, .text value⟩] []).written.reverse = canvas.written.reverse ++ value.toList := by
  rw [run_step _ rfl, run]
  simp [Canvas.write]

theorem column_write_of_one_line (one_line : '\n' ∉ front.toList) : (Canvas.write {} front).column = front.length := by
  simp [Canvas.write, one_line]

/-- A group between two texts is on one line with them if they fit, and otherwise every line of it that
    is in no further group ends the line. -/
theorem render_group_between (width : settings.printWidth.toNat < columnLimit) (unforced : doc.isUnforced)
    (one_line : '\n' ∉ front.toList) (short : front.length < columnLimit) (back : String) :
    let flat := front.toList ++ doc.flatText ++ back.toList
    let printed := (render settings (.concat [.text front, fill doc, .text back] : Doc)).toList
    (flat.length ≤ settings.printWidth.toNat → printed = flat) ∧
      (settings.printWidth.toNat < flat.length →
        ∃ broken, Unfolds settings [] doc front.toList broken ∧ printed = broken ++ back.toList) := by
  intro flat printed
  have column := column_write_of_one_line one_line
  have length : flat.length = front.length + doc.flatText.length + back.toList.length := by
    simp only [flat, List.length_append, String.length_toList]
  have fit := fitsFlat_iff width (column ▸ short) unforced [] back
  rw [column, ← length] at fit
  have start : (Canvas.write {} front).written.reverse = front.toList := by simp [Canvas.write]
  refine ⟨fun narrow => ?_, fun wide => ?_⟩
  · obtain ⟨next, _, same, written⟩ := run_flat doc unforced settings [] (Canvas.write {} front) rfl _
    simp only [printed]
    rw [render_between unforced, run_fill rfl, column, if_pos (fit.mpr narrow), same, run_text, written, start]
  · obtain ⟨next, _, same, unfolds⟩ := run_broken doc unforced settings [] (Canvas.write {} front) rfl _
    refine ⟨next.written.reverse, start ▸ unfolds, ?_⟩
    simp only [printed]
    rw [render_between unforced, run_fill rfl, column, if_neg (mt fit.mp (by omega)), same, run_text]

/-- Eight columns hold the group, which has one more group in it, and seven do not. -/
theorem render_group_between_nested :
    let doc : Doc := .indent (.concat [.line, fill (.concat ["c", .line, "d"]), .softLine, "e"])
    let document : Doc := .concat [.text "ab", fill doc, .text ";"]
    doc.isUnforced ∧ '\n' ∉ "ab".toList ∧ "ab".length < columnLimit ∧
      (render { printWidth := 8 } document).toList = "ab".toList ++ doc.flatText ++ ";".toList ∧
      ∃ broken, Unfolds { printWidth := 7 } [] doc "ab".toList broken ∧
        (render { printWidth := 7 } document).toList = broken ++ ";".toList := by
  intro doc document
  have unforced : doc.isUnforced := by decide
  have one_line : '\n' ∉ "ab".toList := by decide
  have short : "ab".length < columnLimit := by decide
  have eight : ({ printWidth := 8 } : FormatSettings).printWidth.toNat < columnLimit := by decide
  have seven : ({ printWidth := 7 } : FormatSettings).printWidth.toNat < columnLimit := by decide
  exact ⟨unforced, one_line, short, (render_group_between eight unforced one_line short ";").1 (by decide),
    (render_group_between seven unforced one_line short ";").2 (by decide)⟩

end

/-- A line that is in no further group stands for a line feed and the indentation, but an indentation with
    nothing behind it is not written. -/
theorem render_broken_group_empty_row :
    let settings : FormatSettings := { printWidth := 1 }
    let doc : Doc := .indent (.concat [.line, .line, "c"])
    let printed := render settings (.concat [.text "ab", fill doc, .text ""] : Doc)
    let row := '\n' :: (Margin.ofIndentation settings [.level]).text
    doc.isUnforced ∧ settings.printWidth.toNat < ("ab".toList ++ doc.flatText ++ "".toList).length ∧
      printed = "ab\n\n  c" ∧ printed.toList ≠ "ab".toList ++ row ++ row ++ "c".toList := by
  intro settings doc printed row
  have unforced : doc.isUnforced := by decide
  have wide : settings.printWidth.toNat < ("ab".toList ++ doc.flatText ++ "".toList).length := by decide
  have margin : (Margin.ofIndentation settings [.level]).text = [' ', ' '] := by decide
  have width : settings.printWidth.toNat < columnLimit := by decide
  have short : 2 < columnLimit := by decide
  have column : (Canvas.write {} "ab").column = 2 := by decide
  have fit := mt (fitsFlat_iff width short unforced [] "").mp (Nat.not_le.mpr wide)
  have shown : printed = "ab\n\n  c" := by
    rw [← String.toList_inj, render_between unforced, run_fill rfl, column, if_neg fit]
    simp [doc, run, advance, breakLine, Work.settle_of_none_waits, Canvas.write, Canvas.endLine, margin, Text.isGap]
  refine ⟨unforced, wide, shown, ?_⟩
  rw [shown]
  decide

end ApexLayout.Doc
