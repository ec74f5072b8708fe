import ApexLayout.Proofs.Render.Breaks

/-!
Layouts with room for everything. A print width with room for all texts and flat lines behind the widest margin lays
every group out flat unless it is broken, so that a wider one changes nothing (`render_widened`). Where `columnLimit` or
more columns are left, their number reads as negative, and nothing fits.
-/
namespace ApexLayout.Doc

mutual
/-- The columns of the texts of a document and of its lines when they are flat. -/
def columns : Doc → Nat
  | .text value => value.length
  | .line => 1
  | .concat parts => columnsOf parts
  | .group contents _ => contents.columns
  | .indent contents => contents.columns
  | .dedent contents => contents.columns
  | .align _ contents => contents.columns
  | .lineSuffix contents => contents.columns
  | _ => 0
def columnsOf : List Doc → Nat
  | [] => 0
  | doc :: docs => doc.columns + columnsOf docs
end

mutual
/-- The width of the widest margin behind a line of the document. -/
def widestMargin (settings : FormatSettings) (indentation : Indentation) : Doc → Nat
  | .line | .softLine | .lineEnd => (Margin.ofIndentation settings indentation).width
  | .concat parts => widestMarginOf settings indentation parts
  | .group contents _ => contents.widestMargin settings indentation
  | .indent contents => contents.widestMargin settings (.level :: indentation)
  | .dedent contents => contents.widestMargin settings indentation.tail
  | .align columns contents =>
    contents.widestMargin settings (if columns = 0 then indentation else .columns columns :: indentation)
  | .lineSuffix contents => contents.widestMargin settings indentation
  | _ => 0
def widestMarginOf (settings : FormatSettings) (indentation : Indentation) : List Doc → Nat
  | [] => 0
  | doc :: docs => max (doc.widestMargin settings indentation) (widestMarginOf settings indentation docs)
end

def extent (settings : FormatSettings) (doc : Doc) : Nat := doc.columns + doc.widestMargin settings []

mutual
theorem columns_spreadBreaks (doc : Doc) : doc.spreadBreaks.1.columns = doc.columns := by
  cases doc with
  | concat parts => simp only [spreadBreaks, columns, columnsOf_spreadBreaksAll parts]
  | group contents broken | indent contents | dedent contents | align n contents | lineSuffix contents =>
    simp only [spreadBreaks, columns, columns_spreadBreaks contents]
  | _ => rfl
theorem columnsOf_spreadBreaksAll (docs : List Doc) : columnsOf (spreadBreaksAll docs).1 = columnsOf docs := by
  cases docs with
  | nil => rfl
  | cons doc docs => simp only [spreadBreaksAll, columnsOf, columns_spreadBreaks doc, columnsOf_spreadBreaksAll docs]
end

variable {settings : FormatSettings} {indentation : Indentation}

mutual
theorem widestMargin_spreadBreaks (doc : Doc) (indentation : Indentation) :
    doc.spreadBreaks.1.widestMargin settings indentation = doc.widestMargin settings indentation := by
  cases doc with
  | concat parts => simp only [spreadBreaks, widestMargin, widestMarginOf_spreadBreaksAll parts]
  | group contents broken | indent contents | dedent contents | align n contents | lineSuffix contents =>
    simp only [spreadBreaks, widestMargin, widestMargin_spreadBreaks contents]
  | _ => rfl
theorem widestMarginOf_spreadBreaksAll (docs : List Doc) (indentation : Indentation) :
    widestMarginOf settings indentation (spreadBreaksAll docs).1 = widestMarginOf settings indentation docs := by
  cases docs with
  | nil => rfl
  | cons doc docs =>
    simp only [spreadBreaksAll, widestMarginOf, widestMargin_spreadBreaks doc, widestMarginOf_spreadBreaksAll docs]
end

theorem widestMargin_le_of_mem {part : Doc} {parts : List Doc} (member : part ∈ parts) :
    part.widestMargin settings indentation ≤ widestMarginOf settings indentation parts := by
  induction member with
  | head => exact Nat.le_max_left ..
  | tail _ _ ih => exact Nat.le_trans ih (Nat.le_max_right ..)

theorem columnsOf_append (xs ys : List Doc) : columnsOf (xs ++ ys) = columnsOf xs + columnsOf ys := by
  induction xs with
  | nil => simp [columnsOf]
  | cons x xs ih => simp [columnsOf, ih, Nat.add_assoc]

theorem fits_of_columns_le {left : Int} {gaps : Nat} {docs : List (Mode × Doc)}
    (room : columnsOf (docs.map Prod.snd) ≤ left) :
    fits left gaps docs := by
  fun_induction fits left gaps docs with
  | case1 => omega
  | case2 | case10 | case12 | case14 => rfl
  | case4 left gaps nonneg mode rest parts ih =>
    refine ih ?_
    rw [List.map_append, inMode, List.map_map, columnsOf_append]
    simpa [columnsOf, columns, Function.comp_def] using room
  | _ =>
    rename_i ih
    refine ih ?_
    simp only [List.map_cons, columnsOf, columns] at room ⊢
    omega

/-! ### Steps and runs -/

def Work.columns (work : Work) : Nat := columnsOf (work.tasks.map Task.doc) + columnsOf (work.suffixes.map Task.doc)

def Task.widestMargin (settings : FormatSettings) (task : Task) : Nat := task.doc.widestMargin settings task.indentation

/-- What is still to be written has room behind what is written, and behind every margin that may come. -/
structure Roomy (settings : FormatSettings) (total widest : Nat) (work : Work) : Prop where
  left : work.columns ≤ total
  line : work.canvas.column + work.columns ≤ total + widest
  tasks : ∀ task ∈ work.tasks, task.widestMargin settings ≤ widest
  suffixes : ∀ task ∈ work.suffixes, task.widestMargin settings ≤ widest

namespace Roomy

variable {total widest : Nat} {canvas next : Canvas} {task : Task} {rest suffixes : List Task}

theorem settle {work : Work} (roomy : Roomy settings total widest work) : Roomy settings total widest work.settle := by
  obtain ⟨canvas, tasks, suffixes⟩ := work
  cases tasks with
  | cons task tasks => exact roomy
  | nil =>
    obtain ⟨left, line, -, waiting⟩ := roomy
    have same : Work.columns (Work.settle ⟨canvas, [], suffixes⟩) = Work.columns ⟨canvas, [], suffixes⟩ := by
      simp [Work.columns, Work.settle, columnsOf]
    exact ⟨same ▸ left, same ▸ line, waiting, by simp [Work.settle]⟩

theorem replace (roomy : Roomy settings total widest ⟨canvas, task :: rest, suffixes⟩) (own waiting : List Task)
    (written : next.column + columnsOf (own.map Task.doc) + columnsOf (waiting.map Task.doc) ≤
      canvas.column + task.doc.columns)
    (fewer : columnsOf (own.map Task.doc) + columnsOf (waiting.map Task.doc) ≤ task.doc.columns)
    (margins : ∀ inner ∈ own ++ waiting, inner.widestMargin settings ≤ task.widestMargin settings) :
    Roomy settings total widest ⟨next, own ++ rest, suffixes ++ waiting⟩ := by
  obtain ⟨left, line, tasks, waits⟩ := roomy
  have bound := tasks task List.mem_cons_self
  simp only [Work.columns, List.map_cons, columnsOf] at left line
  refine ⟨?_, ?_, fun inner member => ?_, fun inner member => ?_⟩
  · simp only [Work.columns, List.map_append, columnsOf_append]
    omega
  · simp only [Work.columns, List.map_append, columnsOf_append]
    omega
  · rcases List.mem_append.mp member with new | old
    · exact Nat.le_trans (margins inner (List.mem_append_left _ new)) bound
    · exact tasks inner (List.mem_cons_of_mem _ old)
  · rcases List.mem_append.mp member with old | new
    · exact waits inner old
    · exact Nat.le_trans (margins inner (List.mem_append_right _ new)) bound

theorem write (roomy : Roomy settings total widest ⟨canvas, task :: rest, suffixes⟩)
    (written : next.column ≤ canvas.column + task.doc.columns) : Roomy settings total widest ⟨next, rest, suffixes⟩ := by
  simpa using roomy.replace [] [] (by simpa [columnsOf] using written) (by simp [columnsOf]) (by simp)

theorem enter (roomy : Roomy settings total widest ⟨canvas, task :: rest, suffixes⟩) (inner : Task)
    (same : next.column = canvas.column) (columns : inner.doc.columns = task.doc.columns)
    (margin : inner.widestMargin settings = task.widestMargin settings) :
    Roomy settings total widest ⟨next, inner :: rest, suffixes⟩ := by
  simpa using roomy.replace [inner] [] (by simp [columnsOf, same, columns]) (by simp [columnsOf, columns])
    (by simp [margin])

theorem breakLine (roomy : Roomy settings total widest ⟨canvas, task :: rest, suffixes⟩) (wide : UInt64)
    (same : next.column = canvas.column)
    (margin : task.widestMargin settings = (Margin.ofIndentation settings task.indentation).width) :
    Roomy settings total widest (breakLine { settings with printWidth := wide } next task rest suffixes) := by
  obtain ⟨left, line, tasks, waits⟩ := roomy
  unfold Doc.breakLine
  split
  · next none_wait =>
    have bound := tasks task List.mem_cons_self
    have column : (next.endLine { settings with printWidth := wide } task.indentation).column =
      (Margin.ofIndentation settings task.indentation).width := rfl
    simp only [Work.columns, List.map_cons, columnsOf] at left
    refine settle ⟨?_, ?_, fun inner member => tasks inner (List.mem_cons_of_mem _ member), by simp⟩
    · simp only [Work.columns, List.map_nil, columnsOf]
      omega
    · simp only [Work.columns, List.map_nil, columnsOf, column]
      omega
  · have kept : Work.columns ⟨next, suffixes ++ task :: rest, []⟩ = Work.columns ⟨canvas, task :: rest, suffixes⟩ := by
      simp only [Work.columns, List.map_append, columnsOf_append, List.map_nil, columnsOf]
      omega
    refine ⟨kept ▸ left, by simpa only [kept, same] using line, fun inner member => ?_, by simp⟩
    rcases List.mem_append.mp member with waiting | later
    · exact waits inner waiting
    · exact tasks inner later

theorem column_write_le (canvas : Canvas) (value : String) :
    (canvas.write value).column ≤ canvas.column + value.length := by
  simp only [Canvas.write]
  split
  · have shorter : (value.toList.reverse.takeWhile (· != '\n')).length ≤ value.toList.reverse.length :=
      (List.takeWhile_prefix _).length_le
    rw [List.length_reverse, String.length_toList] at shorter
    omega
  · exact Nat.le_refl _

theorem advance (roomy : Roomy settings total widest ⟨canvas, task :: rest, suffixes⟩) (wide : UInt64) :
    Roomy settings total widest (advance { settings with printWidth := wide } canvas task rest suffixes) := by
  obtain ⟨indentation, mode, doc⟩ := task
  cases doc with
  | text value => exact (roomy.write (column_write_le canvas value)).settle
  | concat parts =>
    have own : (parts.map (Task.mk indentation mode)).map Task.doc = parts := by simp [Function.comp_def]
    have replaced : Roomy settings total widest ⟨canvas, parts.map (Task.mk indentation mode) ++ rest, suffixes ++ []⟩ := by
      refine roomy.replace _ [] (by rw [own]; exact Nat.le_refl _) (by rw [own]; exact Nat.le_refl _) ?_
      simpa [Task.widestMargin, widestMargin] using fun part member => widestMargin_le_of_mem member
    rw [List.append_nil] at replaced
    exact replaced.settle
  | indent contents | dedent contents | align n contents | group contents broken =>
    refine settle (roomy.enter _ ?_ ?_ ?_) <;> rfl
  | trim => exact (roomy.write (Nat.le_trans (Nat.sub_le ..) (Nat.le_add_right ..))).settle
  | lineSuffix contents =>
    exact settle (roomy.replace [] [⟨indentation, mode, contents⟩] (by simp [columnsOf, columns]) (by simp [columnsOf, columns])
      (by simp [Task.widestMargin, widestMargin]))
  | breakParent => exact (roomy.write (Nat.le_add_right ..)).settle
  | line =>
    simp only [Doc.advance]
    split
    · exact roomy.write (column_write_le canvas " ")
    · exact roomy.breakLine wide rfl rfl
  | softLine =>
    simp only [Doc.advance]
    split
    · exact roomy.write (Nat.le_add_right ..)
    · exact roomy.breakLine wide rfl rfl
  | lineEnd => exact roomy.breakLine wide (by split <;> rfl) rfl
  | note label _ => exact label.elim

/-- With room for everything every group that is measured fits. -/
theorem groupMode_eq {mode : Mode} {contents : Doc} {broken : Bool}
    (roomy : Roomy settings total widest ⟨canvas, ⟨indentation, mode, .group contents broken⟩ :: rest, suffixes⟩)
    {wide : UInt64} (room : total + widest ≤ wide.toNat) (counted : wide.toNat < columnLimit) :
    groupMode { settings with printWidth := wide } canvas mode contents broken rest = if broken then .broken else .flat := by
  have line := roomy.line
  simp only [Work.columns, List.map_cons, columnsOf, columns] at line
  have left : FormatSettings.columnsLeft { settings with printWidth := wide } canvas.column = wide.toNat - canvas.column :=
    columnsLeft_of_lt counted (by omega)
  have behind : (rest.map fun task => (task.mode, task.doc)).map Prod.snd = rest.map Task.doc := by simp
  have fit : fitsFlat { settings with printWidth := wide } canvas.column contents rest := by
    refine fits_of_columns_le ?_
    simp only [List.map_cons, columnsOf, behind, left]
    omega
  cases broken <;> simp [groupMode, fit]

/-- With room for everything the print width does not matter. -/
theorem advance_widened (roomy : Roomy settings total widest ⟨canvas, task :: rest, suffixes⟩) {wide : UInt64}
    (room : total + widest ≤ settings.printWidth.toNat) (wider : settings.printWidth ≤ wide)
    (counted : wide.toNat < columnLimit) :
    Doc.advance { settings with printWidth := wide } canvas task rest suffixes =
      Doc.advance settings canvas task rest suffixes := by
  have wider : settings.printWidth.toNat ≤ wide.toNat := wider
  obtain ⟨indentation, mode, doc⟩ := task
  cases doc with
  | group contents broken =>
    have narrow : groupMode settings canvas mode contents broken rest = if broken then .broken else .flat :=
      roomy.groupMode_eq room (Nat.lt_of_le_of_lt wider counted)
    simp only [Doc.advance, roomy.groupMode_eq (Nat.le_trans room wider) counted, narrow]
  | note label _ => exact label.elim
  | _ => rfl

theorem run_widened {tasks : List Task} (roomy : Roomy settings total widest ⟨canvas, tasks, suffixes⟩) {wide : UInt64}
    (room : total + widest ≤ settings.printWidth.toNat) (wider : settings.printWidth ≤ wide)
    (counted : wide.toNat < columnLimit) :
    run { settings with printWidth := wide } canvas tasks suffixes = run settings canvas tasks suffixes := by
  fun_induction run settings canvas tasks suffixes with
  | case1 canvas suffixes => rw [run]
  | case2 canvas suffixes task rest following ih =>
    rw [run, roomy.advance_widened room wider counted]
    exact ih (roomy.advance settings.printWidth)

theorem start (settings : FormatSettings) (doc : Doc) :
    Roomy settings doc.columns (doc.widestMargin settings []) { tasks := [⟨[], .broken, doc.spreadBreaks.1⟩] } := by
  refine ⟨?_, ?_, ?_, by simp⟩
  · simp [Work.columns, columnsOf, columns_spreadBreaks]
  · simp [Work.columns, columnsOf, columns_spreadBreaks]
  · simp [Task.widestMargin, widestMargin_spreadBreaks]

theorem of_reached {doc : Doc} {wide : UInt64} {work : Work}
    (reached : Reached { settings with printWidth := wide } doc work) :
    Roomy settings doc.columns (doc.widestMargin settings []) work := by
  induction reached with
  | start => exact start settings doc
  | step _ ih => exact ih.advance wide

end Roomy

/-- Behind a column within the print width `columnLimit` or more columns read as negative. -/
theorem columnsLeft_of_le (settings : FormatSettings) {column : Nat} (within : column ≤ settings.printWidth.toNat) :
    settings.columnsLeft column =
      if settings.printWidth.toNat - column < columnLimit then (settings.printWidth.toNat : Int) - column
      else settings.printWidth.toNat - column - 2 * columnLimit := by
  have same : (UInt64.ofNat column).toNat = column :=
    UInt64.toNat_ofNat_of_lt (Nat.lt_of_le_of_lt within settings.printWidth.toNat_lt)
  have apart : (settings.printWidth - UInt64.ofNat column).toNat = settings.printWidth.toNat - column := by
    rw [UInt64.toNat_sub_of_le _ _ (UInt64.le_iff_toNat_le.mpr (by rwa [same])), same]
  rw [FormatSettings.columnsLeft, ← UInt64.toInt64_sub, toInt_toInt64, apart, Int.ofNat_sub within]

theorem not_fitsFlat {column : Nat} (negative : settings.columnsLeft column < 0) (contents : Doc) (rest : List Task) :
    ¬ fitsFlat settings column contents rest := by
  unfold fitsFlat fits
  simp [negative]

/-- Where a print width has room for a document, a wider one below `columnLimit` lays it out in the same way. In every
    state of a layout the columns left are counted rightly while they are fewer than `columnLimit`. Where there are more
    their number is negative, so that no group fits. -/
theorem render_widened (settings : FormatSettings) (wide : UInt64) (doc : Doc)
    (room : doc.extent settings ≤ settings.printWidth.toNat) (wider : settings.printWidth ≤ wide) :
    (wide.toNat < columnLimit → render { settings with printWidth := wide } doc = render settings doc) ∧
    ∀ work, Reached { settings with printWidth := wide } doc work →
      work.canvas.column ≤ wide.toNat ∧
      (wide.toNat - work.canvas.column < columnLimit →
        FormatSettings.columnsLeft { settings with printWidth := wide } work.canvas.column =
          wide.toNat - work.canvas.column) ∧
      (columnLimit ≤ wide.toNat - work.canvas.column →
        FormatSettings.columnsLeft { settings with printWidth := wide } work.canvas.column < 0 ∧
        ∀ contents rest, ¬ fitsFlat { settings with printWidth := wide } work.canvas.column contents rest) := by
  have wider_nat : settings.printWidth.toNat ≤ wide.toNat := wider
  refine ⟨fun counted => ?_, fun work reached => ?_⟩
  · rw [render, render, plain_eq_self, (Roomy.start settings doc).run_widened room wider counted]
  · have column : work.canvas.column ≤ wide.toNat :=
      calc work.canvas.column
        _ ≤ work.canvas.column + work.columns := Nat.le_add_right ..
        _ ≤ doc.extent settings := (Roomy.of_reached reached).line
        _ ≤ settings.printWidth.toNat := room
        _ ≤ wide.toNat := wider_nat
    have left := columnsLeft_of_le { settings with printWidth := wide } column
    dsimp only at left
    refine ⟨column, fun few => by rw [left, if_pos few], fun many => ?_⟩
    have negative : FormatSettings.columnsLeft { settings with printWidth := wide } work.canvas.column < 0 := by
      have limit : columnLimit = 9223372036854775808 := by decide
      have below := wide.toNat_lt
      rw [left, if_neg (Nat.not_lt.mpr many)]
      omega
    exact ⟨negative, not_fitsFlat negative⟩

/-- Every width below the limit will do; the widest of all reads as negative. -/
theorem render_widened_indented :
    let doc : Doc := .indent (.concat [hardLine, fill (.concat ["ab", .line, "c"])])
    doc.extent { printWidth := 6 } = 6 ∧ render { printWidth := 6 } doc = "\n  ab c" ∧
      render { printWidth := 9223372036854775807 } doc = "\n  ab c" ∧
      render { printWidth := 18446744073709551615 } doc = "\n  ab\n  c" := by
  intro doc
  have extent : doc.extent { printWidth := 6 } = 6 := by decide
  have narrow : render { printWidth := 6 } doc = "\n  ab c" := by decide +kernel
  have same := (render_widened { printWidth := 6 } 9223372036854775807 doc (Nat.le_of_eq extent) (by decide)).1 (by decide)
  exact ⟨extent, narrow, same.trans narrow, by decide +kernel⟩

end ApexLayout.Doc
