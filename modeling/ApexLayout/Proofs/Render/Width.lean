import ApexLayout.Proofs.Render.Rows

/-!
The print width is kept wherever there is a choice. While a row holds a flat line, or is about to, what is still to
come fits into the columns left (`Ruled`), and the row ends within the print width (`render_within_width`). Columns
are counted in 63 bits.
-/
namespace ApexLayout.Doc

variable {ν : Type}

/-! ### Regular documents -/

mutual
/-- Nothing is held back or trimmed, no text has a line feed, and a line end is always followed by what
    breaks the groups around it. -/
def isRegular : Doc ν → Bool
  | .text value => !value.toList.contains '\n'
  | .concat parts => isRegularAll parts
  | .group contents _ => contents.isRegular
  | .indent contents => contents.isRegular
  | .dedent contents => contents.isRegular
  | .align _ contents => contents.isRegular
  | .note _ contents => contents.isRegular
  | .line | .softLine | .breakParent => true
  | .lineEnd | .lineSuffix _ | .trim => false
def isRegularAll : List (Doc ν) → Bool
  | [] => true
  | .lineEnd :: .breakParent :: docs => isRegularAll docs
  | doc :: docs => doc.isRegular && isRegularAll docs
end

mutual
/-- No text has a line feed, nothing is held back or trimmed, and what is laid out flat holds neither a
    line end nor a broken group. -/
def orderly (flat : Bool) : Doc ν → Bool
  | .text value => !value.toList.contains '\n'
  | .concat parts => orderlyAll flat parts
  | .group contents broken => !(flat && broken) && contents.orderly (!broken)
  | .indent contents => contents.orderly flat
  | .dedent contents => contents.orderly flat
  | .align _ contents => contents.orderly flat
  | .note _ contents => contents.orderly flat
  | .line | .softLine | .breakParent => true
  | .lineEnd => !flat
  | .lineSuffix _ | .trim => false
def orderlyAll (flat : Bool) : List (Doc ν) → Bool
  | [] => true
  | doc :: docs => doc.orderly flat && orderlyAll flat docs
end

theorem orderlyAll_eq (flat : Bool) (docs : List (Doc ν)) : orderlyAll flat docs = docs.all (orderly flat) := by
  induction docs with
  | nil => rfl
  | cons doc docs ih => simp [orderlyAll, ih]

mutual
/-- Once its broken groups are marked a regular document is orderly, and so is a part without a forced
    break where it is laid out flat. -/
theorem orderly_marked (flat : Bool) (doc : Doc ν) (regular : doc.isRegular)
    (unforced : flat → doc.plain.spreadBreaks.2 = false) : doc.marked.orderly flat := by
  cases doc with
  | text value => exact regular
  | concat parts => exact orderlyAll_markedAll flat parts regular unforced
  | group contents broken =>
    simp only [plain, spreadBreaks] at unforced
    simp only [marked, orderly, Bool.and_eq_true]
    refine ⟨?_, orderly_marked _ contents regular fun unbroken => by simp_all⟩
    cases flat with
    | false => rfl
    | true => rw [unforced rfl]; rfl
  | indent contents | dedent contents | align columns contents | note label contents =>
    exact orderly_marked flat contents regular unforced
  | line | softLine | breakParent => rfl
  | lineEnd | lineSuffix contents | trim => cases regular
theorem orderlyAll_markedAll (flat : Bool) (docs : List (Doc ν)) (regular : isRegularAll docs)
    (unforced : flat → (spreadBreaksAll (plains docs)).2 = false) : orderlyAll flat (markedAll docs) := by
  unfold isRegularAll at regular
  split at regular
  · rfl
  · next docs =>
    -- The line end breaks what is around it, so this is not laid out flat.
    cases flat with
    | true => cases unforced rfl
    | false => exact orderlyAll_markedAll false docs regular nofun
  · next doc docs _ =>
    simp only [plains, spreadBreaksAll, Bool.or_eq_false_iff] at unforced
    simp only [Bool.and_eq_true] at regular
    simp only [markedAll, orderlyAll, Bool.and_eq_true]
    exact ⟨orderly_marked flat doc regular.1 fun same => (unforced same).1,
      orderlyAll_markedAll flat docs regular.2 fun same => (unforced same).2⟩
end

mutual
theorem orderly_false (doc : Doc ν) (orderly : doc.orderly true) : doc.orderly false := by
  cases doc with
  | concat parts => exact orderlyAll_false parts orderly
  | group contents broken =>
    simp only [Doc.orderly, Bool.and_eq_true] at orderly ⊢
    exact ⟨rfl, orderly.2⟩
  | indent contents | dedent contents | align columns contents | note label contents =>
    exact orderly_false contents orderly
  | lineEnd => cases orderly
  | _ => exact orderly
theorem orderlyAll_false (docs : List (Doc ν)) (orderly : orderlyAll true docs) : orderlyAll false docs := by
  cases docs with
  | nil => rfl
  | cons doc docs =>
    simp only [orderlyAll, Bool.and_eq_true] at orderly ⊢
    exact ⟨orderly_false doc orderly.1, orderlyAll_false docs orderly.2⟩
end

/-! ### Columns left -/

/-- A group is laid out in the mode in which it was measured as a part of something else, or it is
    measured itself and fits. -/
theorem groupMode_cases (settings : FormatSettings) {canvas : Canvas} (mode : Mode) (contents : Doc) (broken : Bool)
    (rest : List Task) (measured : canvas.remeasure = false) :
    groupMode settings canvas mode contents broken rest = (if broken then .broken else mode) ∨
      broken = false ∧ groupMode settings canvas mode contents broken rest = .flat ∧
        fitsFlat settings canvas.column contents rest := by
  unfold groupMode
  rw [measured]
  cases broken with
  | true => exact .inl rfl
  | false =>
    cases mode with
    | flat => exact .inl rfl
    | broken =>
      by_cases fit : fitsFlat settings canvas.column contents rest
      · exact .inr (by simp [fit])
      · exact .inl (by simp [fit])

def columnLimit : Nat := Nat.pow 2 63

/-- As a signed number a width of `columnLimit` or more is negative. -/
theorem toInt_toInt64 (width : UInt64) :
    width.toInt64.toInt = if width.toNat < columnLimit then (width.toNat : Int) else width.toNat - 2 * columnLimit := by
  have limit : columnLimit = 9223372036854775808 := by decide
  have signed : width.toInt64.toInt = width.toBitVec.toInt := rfl
  have nat : width.toBitVec.toNat = width.toNat := rfl
  rw [signed, BitVec.toInt_eq_toNat_cond, nat]
  split <;> split <;> omega

/-- The columns left are counted rightly on rows that are short enough. -/
theorem columnsLeft_of_lt {settings : FormatSettings} (width : settings.printWidth.toNat < columnLimit) {column : Nat}
    (short : column < columnLimit) : settings.columnsLeft column = settings.printWidth.toNat - column := by
  have limit : columnLimit = 9223372036854775808 := by decide
  have same : (UInt64.ofNat column).toNat = column := by
    refine UInt64.toNat_ofNat_of_lt (Nat.lt_trans short ?_)
    decide
  rw [FormatSettings.columnsLeft, Int64.toInt_sub, toInt_toInt64, toInt_toInt64, same, if_pos width, if_pos short]
  apply Int.bmod_eq_of_le <;> omega

theorem of_unless {p : Prop} [Decidable p] {b : Bool} (holds : (if p then false else b) = true) : b = true := by
  split at holds
  · cases holds
  · exact holds

theorem nonneg_of_fits {columns : Int} {gaps : Nat} {docs : List (Mode × Doc)} (fit : fits columns gaps docs) :
    0 ≤ columns := by
  rw [fits.eq_def] at fit
  by_cases negative : columns < 0
  · simp [negative] at fit
  · omega

theorem Canvas.column_write (canvas : Canvas) {value : String} (one_line : '\n' ∉ value.toList) :
    (canvas.write value).column = canvas.column + value.length := by
  simp [write, one_line]

theorem Page.columns_write (page : Page) (settings : FormatSettings) (cs : List Char) :
    (page.write cs).row.columns settings = page.row.columns settings + cs.length := by
  simp [write, Row.columns, Nat.add_assoc]

/-! ### Rows within the print width -/

/-- The row is not wider than the print width if a line is laid out flat on it and its columns can be
    counted. -/
def Row.Within (settings : FormatSettings) (row : Row) : Prop :=
  row.flat → row.columns settings < columnLimit → row.columns settings ≤ settings.printWidth.toNat

namespace Job

def measure (job : Job ν) : Mode × Doc := (job.mode, job.doc.plain)

def isOrderly (job : Job ν) : Bool := job.doc.orderly (job.mode = .flat)

end Job

/-- While a row holds a flat line, or the next job is flat, what is to come fits into the columns left.
    Jobs that are laid out flat come first. -/
structure Ruled (settings : FormatSettings) (page : Page) (plot : Plot ν) : Prop where
  waiting : plot.suffixes = []
  measured : plot.canvas.remeasure = false
  orderly : ∀ job ∈ plot.jobs, job.isOrderly
  flat_first : plot.jobs.Pairwise fun first later => later.mode = .flat → first.mode = .flat
  column : plot.canvas.column = page.row.columns settings
  ended : ∀ row ∈ page.ended, row.Within settings
  ahead : (page.row.flat ∨ ∃ job ∈ plot.jobs.head?, job.mode = .flat) → plot.canvas.column < columnLimit →
    ∃ gaps, fits (settings.printWidth.toNat - plot.canvas.column) gaps (plot.jobs.map Job.measure)

namespace Ruled

variable {settings : FormatSettings} {page : Page} {canvas : Canvas} {job : Job ν} {rest : List (Job ν)}

theorem within {plot : Plot ν} (ruled : Ruled settings page plot) : page.row.Within settings := by
  intro flat short
  rw [← ruled.column] at short ⊢
  obtain ⟨gaps, fit⟩ := ruled.ahead (.inl flat) short
  have left := nonneg_of_fits fit
  omega

theorem rows {plot : Plot ν} (ruled : Ruled settings page plot) : ∀ row ∈ page.rows, row.Within settings := by
  intro row member
  rcases List.mem_append.mp member with before | here
  · exact ruled.ended row before
  · rw [List.mem_singleton.mp here]
    exact ruled.within

theorem settle {jobs : List (Job ν)} (ruled : Ruled settings page ⟨canvas, jobs, []⟩) :
    Ruled settings page (Plot.settle ⟨canvas, jobs, []⟩) := by
  cases jobs <;> exact ruled

section
variable (ruled : Ruled settings page ⟨canvas, job :: rest, []⟩)
include ruled

/-- Jobs of the same mode may take the place of the first one if they fit where it does, once some
    columns of it are written. -/
theorem proceed (jobs : List (Job ν)) {next : Page} {nextCanvas : Canvas} (written : Nat)
    (ended : next.ended = page.ended) (columns : next.row.columns settings = page.row.columns settings + written)
    (column : nextCanvas.column = canvas.column + written) (measured : nextCanvas.remeasure = canvas.remeasure)
    (flat : next.row.flat → page.row.flat ∨ job.mode = .flat) (same : ∀ inner ∈ jobs, inner.mode = job.mode)
    (orderly : job.isOrderly → ∀ inner ∈ jobs, inner.isOrderly)
    (fit : ∀ left gaps, fits left gaps (job.measure :: rest.map Job.measure) →
      ∃ gaps, fits (left - written) gaps (jobs.map Job.measure ++ rest.map Job.measure)) :
    Ruled settings next ⟨nextCanvas, jobs ++ rest, []⟩ := by
  have later : ∀ inner ∈ rest, inner.mode = .flat → job.mode = .flat := (List.pairwise_cons.mp ruled.flat_first).1
  have flat_head : (∃ inner ∈ (jobs ++ rest).head?, inner.mode = .flat) → job.mode = .flat := by
    rintro ⟨inner, first, is_flat⟩
    rcases List.mem_append.mp (List.mem_of_mem_head? first) with here | after
    · rw [← same inner here]
      exact is_flat
    · exact later inner after is_flat
  refine ⟨rfl, measured.trans ruled.measured, ?_, ?_, ?_, ?_, ?_⟩
  · intro inner member
    rcases List.mem_append.mp member with here | after
    · exact orderly (ruled.orderly job List.mem_cons_self) inner here
    · exact ruled.orderly inner (List.mem_cons_of_mem _ after)
  · refine List.pairwise_append.mpr ⟨?_, (List.pairwise_cons.mp ruled.flat_first).2, ?_⟩
    · refine List.Pairwise.imp_of_mem (R := fun _ _ => True) ?_ (List.pairwise_of_forall fun _ _ => trivial)
      intro first second firstly secondly _ is_flat
      rw [same first firstly, ← same second secondly]
      exact is_flat
    · intro inner here other after is_flat
      rw [same inner here]
      exact later other after is_flat
  · rw [column, columns, ruled.column]
  · rw [ended]
    exact ruled.ended
  · intro flat_row short
    have tainted : page.row.flat ∨ ∃ first ∈ (job :: rest).head?, first.mode = .flat := by
      rcases flat_row with here | ahead
      · rcases flat here with before | is_flat
        · exact .inl before
        · exact .inr ⟨job, rfl, is_flat⟩
      · exact .inr ⟨job, rfl, flat_head ahead⟩
    simp only [column] at short ⊢
    obtain ⟨gaps, before⟩ := ruled.ahead tainted (by simp only; omega)
    obtain ⟨gaps, after⟩ := fit _ _ before
    have left : (settings.printWidth.toNat : Int) - (canvas.column + written : Nat) =
        settings.printWidth.toNat - canvas.column - written := by omega
    refine ⟨gaps, ?_⟩
    rw [List.map_append, left]
    exact after

theorem replace (jobs : List (Job ν)) (same : ∀ inner ∈ jobs, inner.mode = job.mode)
    (orderly : job.isOrderly → ∀ inner ∈ jobs, inner.isOrderly)
    (fit : ∀ left gaps, fits left gaps (job.measure :: rest.map Job.measure) →
      fits left gaps (jobs.map Job.measure ++ rest.map Job.measure)) :
    Ruled settings page ⟨canvas, jobs ++ rest, []⟩ := by
  refine ruled.proceed jobs 0 rfl rfl rfl rfl .inl same orderly fun left gaps before => ⟨gaps, ?_⟩
  rw [Int.natCast_zero, Int.sub_zero]
  exact fit left gaps before

theorem enter (inner : Job ν) (same : inner.mode = job.mode) (orderly : job.isOrderly → inner.isOrderly)
    (fit : ∀ left gaps, fits left gaps (job.measure :: rest.map Job.measure) →
      fits left gaps (inner.measure :: rest.map Job.measure)) :
    Ruled settings page ⟨canvas, inner :: rest, []⟩ :=
  ruled.replace [inner] (by simpa using same) (by simpa using orderly) fit

theorem enterFlat (width : settings.printWidth.toNat < columnLimit) (inner : Job ν) (flat : inner.mode = .flat)
    (orderly : inner.isOrderly)
    (fit : fits (settings.columnsLeft canvas.column) 0 (inner.measure :: rest.map Job.measure)) :
    Ruled settings page ⟨canvas, inner :: rest, []⟩ := by
  refine ⟨rfl, ruled.measured, ?_, ?_, ruled.column, ruled.ended, fun _ short => ⟨0, ?_⟩⟩
  · intro other member
    rcases List.mem_cons.mp member with rfl | after
    · exact orderly
    · exact ruled.orderly other (List.mem_cons_of_mem _ after)
  · exact List.pairwise_cons.mpr ⟨fun _ _ _ => flat, (List.pairwise_cons.mp ruled.flat_first).2⟩
  · rw [← columnsLeft_of_lt width short]
    exact fit

/-- A line ends within the print width, and on the next one nothing is laid out flat yet. -/
theorem endLine (broken : job.mode = .broken) :
    let next := job.endLine settings canvas rest []
    Ruled settings (next.stroke.toList.foldl (Page.draw settings) page) next.plot := by
  refine settle ⟨rfl, ruled.measured, ?_, ?_, ?_, ?_, ?_⟩
  · exact fun inner member => ruled.orderly inner (List.mem_cons_of_mem _ member)
  · exact (List.pairwise_cons.mp ruled.flat_first).2
  · exact Margin.width_ofIndentation settings job.indentation
  · exact ruled.rows
  · rintro (flat | ⟨inner, first, flat⟩)
    · cases flat
    · have also := (List.pairwise_cons.mp ruled.flat_first).1 inner (List.mem_of_mem_head? first) flat
      rw [broken] at also
      cases also

end

/-- The contents of a group fit if the group did, or else they were measured. -/
theorem group {indentation : Indentation} {mode : Mode} {contents : Doc ν} {broken : Bool} {label : Option ν}
    (ruled : Ruled settings page ⟨canvas, ⟨indentation, mode, .group contents broken, label⟩ :: rest, []⟩)
    (width : settings.printWidth.toNat < columnLimit) :
    Ruled settings page (Job.move settings canvas ⟨indentation, mode, .group contents broken, label⟩ rest []).plot := by
  have same : { canvas with remeasure := false } = canvas := by rw [← ruled.measured]
  have orderly := ruled.orderly _ List.mem_cons_self
  simp only [Job.isOrderly, Doc.orderly, Bool.and_eq_true] at orderly
  simp only [Job.move, same]
  refine settle ?_
  rcases groupMode_cases settings mode contents.plain broken (rest.map Job.task) ruled.measured with
    kept | ⟨rfl, flat, fit⟩
  · -- The group is laid out as it was measured before.
    have unbroken : broken = true → mode = .broken := by
      rintro rfl
      cases mode with
      | flat => cases orderly.1
      | broken => rfl
    rw [kept]
    refine ruled.enter _ ?_ (fun _ => ?_) fun left gaps fit => ?_
    · by_cases marked : broken
      · simp [marked, unbroken marked]
      · simp [marked]
    · by_cases marked : broken
      · simpa [Job.isOrderly, marked] using orderly.2
      · rw [Bool.not_eq_true] at marked
        subst marked
        cases mode with
        | flat => exact orderly.2
        | broken => exact orderly_false contents orderly.2
    · simp only [Job.measure, plain, fits] at fit
      exact of_unless fit
  · rw [flat]
    refine ruled.enterFlat width _ rfl orderly.2 ?_
    rw [fitsFlat, List.map_map] at fit
    exact fit

theorem move (ruled : Ruled settings page ⟨canvas, job :: rest, []⟩)
    (width : settings.printWidth.toNat < columnLimit) :
    let next := job.move settings canvas rest []
    Ruled settings (next.stroke.toList.foldl (Page.draw settings) page) next.plot := by
  obtain ⟨indentation, mode, doc, label⟩ := job
  have orderly := ruled.orderly _ List.mem_cons_self
  cases doc with
  | text value =>
    have one_line : '\n' ∉ value.toList := by simpa [Job.isOrderly, Doc.orderly] using orderly
    refine (ruled.proceed [] value.length ?_ ?_ (canvas.column_write one_line) ?_ ?_ (by simp) (by simp) ?_).settle
    · rfl
    · exact page.columns_write settings value.toList
    · rfl
    · exact .inl
    · intro left gaps fit
      simp only [Job.measure, plain, fits] at fit
      exact ⟨_, of_unless fit⟩
  | concat parts =>
    refine (ruled.replace _ ?_ ?_ ?_).settle
    · simp
    · intro inside inner member
      simp only [Job.isOrderly, Doc.orderly, orderlyAll_eq, List.all_eq_true] at inside
      obtain ⟨part, held, rfl⟩ := List.mem_map.mp member
      exact inside part held
    · intro left gaps fit
      simp only [Job.measure, plain, plains_eq_map, inMode, fits] at fit
      simpa [Function.comp_def, Job.measure] using of_unless fit
  | group contents broken => exact ruled.group width
  | line =>
    cases mode with
    | flat =>
      refine ruled.proceed [] 1 ?_ ?_ (canvas.column_write (by decide)) ?_ (fun _ => .inr rfl) (by simp) (by simp) ?_
      · rfl
      · exact page.columns_write settings [' ']
      · rfl
      · intro left gaps fit
        simp only [Job.measure, plain, fits] at fit
        exact ⟨_, of_unless fit⟩
    | broken => exact ruled.endLine rfl
  | softLine =>
    cases mode with
    | flat =>
      refine ruled.proceed [] 0 ?_ ?_ rfl ?_ (fun _ => .inr rfl) (by simp) (by simp) ?_
      · rfl
      · exact page.columns_write settings []
      · rfl
      · intro left gaps fit
        simp only [Job.measure, plain, fits] at fit
        exact ⟨gaps, by simpa using of_unless fit⟩
    | broken => exact ruled.endLine rfl
  | lineEnd =>
    cases mode with
    | flat => cases orderly
    | broken => exact ruled.endLine rfl
  | indent contents | dedent contents | align columns contents =>
    refine (ruled.enter _ ?_ ?_ fun left gaps fit => ?_).settle
    · rfl
    · exact id
    · simp only [Job.measure, plain, fits] at fit
      exact of_unless fit
  | note inner contents => exact ruled.enter _ rfl id fun left gaps fit => fit
  | breakParent =>
    refine (ruled.replace [] (by simp) (by simp) fun left gaps fit => ?_).settle
    simp only [Job.measure, plain, fits] at fit
    exact of_unless fit
  | lineSuffix contents | trim => cases orderly

theorem trace {jobs suffixes : List (Job ν)} (width : settings.printWidth.toNat < columnLimit) :
    ∀ page, Ruled settings page ⟨canvas, jobs, suffixes⟩ →
      ∀ row ∈ ((Doc.trace settings canvas jobs suffixes).strokes.foldl (Page.draw settings) page).rows,
        row.Within settings := by
  fun_induction Doc.trace settings canvas jobs suffixes with
  | case1 canvas suffixes => exact fun page ruled => ruled.rows
  | case2 canvas suffixes job rest next later ih =>
    intro page ruled
    obtain rfl : suffixes = [] := ruled.waiting
    rw [List.foldl_append]
    exact ih _ (ruled.move width)

end Ruled

/-- The group fits behind the margin. -/
theorem rows_indented :
    (.indent (.concat [hardLine, fill (.concat ["ab", .line, "c"])]) : Doc).rows {} =
      [{}, ⟨[' ', ' '], ['a', 'b', ' ', 'c'], true⟩] := by
  have room : ({} : FormatSettings).columnsLeft (Canvas.endLine {} [.level] {}).column = 78 := by decide
  have lengths : "ab".length = 2 ∧ "c".length = 1 := by decide
  have fit : fitsFlat {} (Canvas.endLine {} [.level] {}).column (.concat ["ab", .line, "c"]) [] := by
    simp [fitsFlat, fits, inMode, room, lengths]
  have margin : (Margin.ofIndentation {} [.level]).text = [' ', ' '] := by decide
  have unbroken : (.indent (.concat [hardLine, fill (.concat ["ab", .line, "c"])]) : Doc).marked =
      .indent (.concat [hardLine, fill (.concat ["ab", .line, "c"])]) := rfl
  rw [rows, strokes, layout, unbroken]
  simp [trace, fill, hardLine, Job.move, Job.endLine, Plot.settle, plain, plains, groupMode, fit, Page.draw, Page.write,
    Page.rows, margin]

/-- The text of a regular document is made of rows, and those with a flat line are not wider than the
    print width, as far as columns can be counted. -/
theorem render_within_width (settings : FormatSettings) (doc : Doc ν) (regular : doc.isRegular)
    (width : settings.printWidth.toNat < columnLimit) :
    (render settings doc).toList = spellRows (doc.rows settings) ∧
      ∀ row ∈ doc.rows settings, row.flat → row.columns settings < columnLimit →
        row.columns settings ≤ settings.printWidth.toNat := by
  refine ⟨toList_render settings doc, Ruled.trace width {} ?_⟩
  have orderly := orderly_marked false doc regular nofun
  refine ⟨rfl, rfl, ?_, List.pairwise_singleton _ _, rfl, nofun, ?_⟩
  · simpa [Job.isOrderly] using orderly
  · simp

theorem render_within_width_indented :
    let doc : Doc := .indent (.concat [hardLine, fill (.concat ["ab", .line, "c"])])
    let row : Row := ⟨[' ', ' '], ['a', 'b', ' ', 'c'], true⟩
    doc.isRegular ∧ ({} : FormatSettings).printWidth.toNat < columnLimit ∧ row ∈ doc.rows {} ∧ row.flat ∧
      row.columns {} < columnLimit ∧ row.columns {} ≤ ({} : FormatSettings).printWidth.toNat := by
  intro doc row
  have regular : doc.isRegular := by decide
  have width : ({} : FormatSettings).printWidth.toNat < columnLimit := by decide
  have member : row ∈ doc.rows {} := by simp [doc, row, rows_indented]
  have short : row.columns {} < columnLimit := by decide
  exact ⟨regular, width, member, rfl, short, (render_within_width {} doc regular width).2 row member rfl short⟩

end ApexLayout.Doc
