import ApexLayout.Doc.Render

/-!
What a layout writes, stroke by stroke. The strokes tell which note a character comes from, which lines are laid out
flat, and where a line ends. The text is what the strokes spell (`render_eq_spell`).
-/
namespace ApexLayout.Doc

variable {ν : Type}

/-- What one step of a layout writes. -/
inductive Stroke (ν : Type) where
  /-- A text of the document, with the label of the innermost note around it. -/
  | text (value : String) (label : Option ν)
  /-- A line that is laid out flat: nothing if it is soft, otherwise a space. -/
  | flat (soft : Bool)
  /-- A line end, with the indentation of the next line. -/
  | feed (indentation : Indentation)
  | trim

namespace Stroke

/-- What is written once the stroke is, last character first. -/
def draw (settings : FormatSettings) (written : List Char) : Stroke ν → List Char
  | .text value _ => value.toList.reverse ++ written
  | .flat soft => if soft then written else ' ' :: written
  | .feed indentation =>
    (Margin.ofIndentation settings indentation).text.reverse ++ '\n' :: written.dropWhile Text.isGap
  | .trim => written.dropWhile Text.isGap

def spell (settings : FormatSettings) (strokes : List (Stroke ν)) : String :=
  String.ofList (strokes.foldl (draw settings) []).reverse

end Stroke

theorem plains_eq_map (docs : List (Doc ν)) : plains docs = docs.map plain := by
  induction docs with
  | nil => rfl
  | cons doc docs ih => simp [plains, ih]

structure Job (ν : Type) where
  indentation : Indentation
  mode : Mode
  doc : Doc ν
  /-- The label of the innermost note around the document. -/
  label : Option ν

def Job.task (job : Job ν) : Task := ⟨job.indentation, job.mode, job.doc.plain⟩

/-- The state of a layout whose notes are kept. -/
structure Plot (ν : Type) where
  canvas : Canvas
  jobs : List (Job ν)
  suffixes : List (Job ν)

namespace Plot

def work (plot : Plot ν) : Work := ⟨plot.canvas, plot.jobs.map Job.task, plot.suffixes.map Job.task⟩

/-- Once nothing else is to be written, the suffixes are. -/
def settle (plot : Plot ν) : Plot ν :=
  if plot.jobs.isEmpty then { plot with jobs := plot.suffixes, suffixes := [] } else plot

theorem work_settle (plot : Plot ν) : plot.settle.work = plot.work.settle := by
  obtain ⟨canvas, jobs, suffixes⟩ := plot
  cases jobs <;> rfl

@[simp] theorem canvas_settle (plot : Plot ν) : plot.settle.canvas = plot.canvas := by
  unfold settle
  split <;> rfl

end Plot

/-- A step of a layout: the stroke it writes, if it writes one, and the state it leads to. -/
structure Move (ν : Type) where
  stroke : Option (Stroke ν) := none
  plot : Plot ν

namespace Job

/-- Ends the line at a job that breaks there. Suffixes that wait are written first, and then the job
    comes again. -/
def endLine (settings : FormatSettings) (canvas : Canvas) (job : Job ν) (rest suffixes : List (Job ν)) : Move ν :=
  if suffixes.isEmpty then
    ⟨some (.feed job.indentation), Plot.settle ⟨canvas.endLine settings job.indentation, rest, []⟩⟩
  else ⟨none, ⟨canvas, suffixes ++ job :: rest, []⟩⟩

/-- Writes the first job, or puts the parts of its document in its place. A note only labels what is
    inside it. -/
def move (settings : FormatSettings) (canvas : Canvas) (job : Job ν) (rest suffixes : List (Job ν)) : Move ν :=
  match job.doc with
  | .text value => ⟨some (.text value job.label), Plot.settle ⟨canvas.write value, rest, suffixes⟩⟩
  | .concat parts => ⟨none, Plot.settle ⟨canvas, parts.map ({ job with doc := · }) ++ rest, suffixes⟩⟩
  | .indent contents =>
    let inner := { job with indentation := .level :: job.indentation, doc := contents }
    ⟨none, Plot.settle ⟨canvas, inner :: rest, suffixes⟩⟩
  | .align columns contents =>
    let indentation := if columns = 0 then job.indentation else .columns columns :: job.indentation
    ⟨none, Plot.settle ⟨canvas, { job with indentation, doc := contents } :: rest, suffixes⟩⟩
  | .dedent contents =>
    let inner := { job with indentation := job.indentation.tail, doc := contents }
    ⟨none, Plot.settle ⟨canvas, inner :: rest, suffixes⟩⟩
  | .trim => ⟨some .trim, Plot.settle ⟨canvas.trim, rest, suffixes⟩⟩
  | .group contents broken =>
    let mode := groupMode settings canvas job.mode contents.plain broken (rest.map Job.task)
    ⟨none, Plot.settle ⟨{ canvas with remeasure := false }, { job with mode, doc := contents } :: rest, suffixes⟩⟩
  | .lineSuffix contents => ⟨none, Plot.settle ⟨canvas, rest, suffixes ++ [{ job with doc := contents }]⟩⟩
  | .breakParent => ⟨none, Plot.settle ⟨canvas, rest, suffixes⟩⟩
  | .line =>
    if job.mode = .flat then ⟨some (.flat false), ⟨canvas.write " ", rest, suffixes⟩⟩
    else job.endLine settings canvas rest suffixes
  | .softLine =>
    if job.mode = .flat then ⟨some (.flat true), ⟨canvas, rest, suffixes⟩⟩
    else job.endLine settings canvas rest suffixes
  | .lineEnd =>
    let canvas := if job.mode = .flat then { canvas with remeasure := true } else canvas
    job.endLine settings canvas rest suffixes
  | .note label contents => ⟨none, ⟨canvas, { job with doc := contents, label := some label } :: rest, suffixes⟩⟩

variable (settings : FormatSettings) (canvas : Canvas) (job : Job ν) (rest suffixes : List (Job ν))

theorem work_endLine :
    (job.endLine settings canvas rest suffixes).plot.work =
      breakLine settings canvas job.task (rest.map task) (suffixes.map task) := by
  unfold endLine breakLine
  by_cases waiting : suffixes.isEmpty
  · simp only [waiting, ↓reduceIte, List.isEmpty_map, Plot.work_settle]
    rfl
  · simp [waiting, Plot.work]

/-- A move is a step of the layout, unless it only takes a note away. -/
theorem work_move : (∃ indentation mode label contents outer, job = ⟨indentation, mode, .note label contents, outer⟩) ∨
    (job.move settings canvas rest suffixes).plot.work =
      advance settings canvas job.task (rest.map task) (suffixes.map task) := by
  obtain ⟨indentation, mode, doc, label⟩ := job
  cases doc with
  | text value | group contents broken | indent contents | dedent contents | align columns contents | breakParent
  | trim => exact .inr (Plot.work_settle _)
  | concat parts =>
    simp only [move, advance, task, plain, plains_eq_map, Plot.work_settle]
    simp [Plot.work, task, Function.comp_def]
  | line | softLine =>
    cases mode with
    | flat => exact .inr rfl
    | broken => exact .inr (work_endLine ..)
  | lineEnd => exact .inr (work_endLine ..)
  | lineSuffix contents =>
    simp only [move, advance, task, plain, Plot.work_settle]
    simp [Plot.work, task]
  | note label contents => exact .inl ⟨_, _, _, _, _, rfl⟩

theorem written_endLine :
    (job.endLine settings canvas rest suffixes).plot.canvas.written =
      (job.endLine settings canvas rest suffixes).stroke.toList.foldl (Stroke.draw settings) canvas.written := by
  unfold endLine
  split
  · rw [Plot.canvas_settle]
    rfl
  · rfl

theorem written_move :
    (job.move settings canvas rest suffixes).plot.canvas.written =
      (job.move settings canvas rest suffixes).stroke.toList.foldl (Stroke.draw settings) canvas.written := by
  obtain ⟨indentation, mode, doc, label⟩ := job
  cases doc with
  | line | softLine =>
    cases mode with
    | flat => rfl
    | broken => exact written_endLine ..
  | lineEnd =>
    cases mode with
    | flat => exact written_endLine ..
    | broken => exact written_endLine ..
  | note label contents => rfl
  | _ =>
    simp only [move, Plot.canvas_settle]
    rfl

end Job

def notesAhead : List (Job ν) → Nat
  | [] => 0
  | job :: _ => depth job.doc
where
  depth : Doc ν → Nat
    | .note _ contents => 1 + depth contents
    | _ => 0

/-- A move makes the work list lighter, or else takes a note away. -/
theorem load_move (settings : FormatSettings) (canvas : Canvas) (job : Job ν) (rest suffixes : List (Job ν)) :
    let next := (job.move settings canvas rest suffixes).plot
    next.work.load < (Plot.mk canvas (job :: rest) suffixes).work.load ∨
      next.work.load = (Plot.mk canvas (job :: rest) suffixes).work.load ∧
        notesAhead next.jobs < notesAhead (job :: rest) := by
  rcases job.work_move settings canvas rest suffixes with ⟨_, _, _, _, _, rfl⟩ | step
  · exact .inr ⟨rfl, Nat.lt_add_of_pos_left Nat.one_pos⟩
  · left
    rw [step]
    exact load_advance_lt ..

/-- The strokes of a layout, and the suffixes that still wait when it ends. -/
structure Trace (ν : Type) where
  strokes : List (Stroke ν) := []
  lost : List (Job ν)

/-- The strokes of jobs, first to last. -/
def trace (settings : FormatSettings) (canvas : Canvas) (jobs suffixes : List (Job ν)) : Trace ν :=
  match jobs with
  | [] => ⟨[], suffixes⟩
  | job :: rest =>
    let next := job.move settings canvas rest suffixes
    let later := trace settings next.plot.canvas next.plot.jobs next.plot.suffixes
    ⟨next.stroke.toList ++ later.strokes, later.lost⟩
termination_by ((Plot.mk canvas jobs suffixes).work.load, notesAhead jobs)
decreasing_by
  rcases load_move settings canvas job rest suffixes with lighter | ⟨same, fewer⟩
  · exact .left _ _ lighter
  · exact same ▸ .right _ fewer

mutual
/-- The document with its broken groups marked, as it is laid out. -/
def marked : Doc ν → Doc ν
  | .concat parts => .concat (markedAll parts)
  | .group contents broken => .group contents.marked (broken || contents.plain.spreadBreaks.2)
  | .indent contents => .indent contents.marked
  | .dedent contents => .dedent contents.marked
  | .align columns contents => .align columns contents.marked
  | .lineSuffix contents => .lineSuffix contents.marked
  | .note label contents => .note label contents.marked
  | doc => doc
def markedAll : List (Doc ν) → List (Doc ν)
  | [] => []
  | doc :: docs => doc.marked :: markedAll docs
end

mutual
theorem plain_marked (doc : Doc ν) : doc.marked.plain = doc.plain.spreadBreaks.1 := by
  cases doc with
  | concat parts => simp only [marked, plain, spreadBreaks, plains_markedAll parts]
  | group contents broken | indent contents | dedent contents | align columns contents | lineSuffix contents =>
    simp only [marked, plain, spreadBreaks, plain_marked contents]
  | note label contents => simp only [marked, plain, plain_marked contents]
  | _ => rfl
theorem plains_markedAll (docs : List (Doc ν)) : plains (markedAll docs) = (spreadBreaksAll (plains docs)).1 := by
  cases docs with
  | nil => rfl
  | cons doc docs => simp only [markedAll, plains, spreadBreaksAll, plain_marked doc, plains_markedAll docs]
end

def layout (settings : FormatSettings) (doc : Doc ν) : Trace ν :=
  trace settings {} [⟨[], .broken, doc.marked, none⟩] []

def strokes (settings : FormatSettings) (doc : Doc ν) : List (Stroke ν) := (doc.layout settings).strokes

theorem run_move (settings : FormatSettings) (canvas : Canvas) (job : Job ν) (rest suffixes : List (Job ν)) :
    let next := (job.move settings canvas rest suffixes).plot.work
    run settings canvas ((job :: rest).map Job.task) (suffixes.map Job.task) =
      run settings next.canvas next.tasks next.suffixes := by
  rcases job.work_move settings canvas rest suffixes with ⟨_, _, _, _, _, rfl⟩ | step
  · rfl
  · rw [step, List.map_cons, run]

theorem written_trace (settings : FormatSettings) (canvas : Canvas) (jobs suffixes : List (Job ν)) :
    (run settings canvas (jobs.map Job.task) (suffixes.map Job.task)).written =
      (trace settings canvas jobs suffixes).strokes.foldl (Stroke.draw settings) canvas.written := by
  fun_induction trace settings canvas jobs suffixes with
  | case1 canvas suffixes =>
    rw [List.map_nil, run]
    rfl
  | case2 canvas suffixes job rest next later ih =>
    rw [run_move, List.foldl_append, ← Job.written_move]
    exact ih

/-- The text of a document is what its strokes spell. -/
theorem render_eq_spell (settings : FormatSettings) (doc : Doc ν) :
    render settings doc = Stroke.spell settings (doc.strokes settings) := by
  have same := written_trace settings {} [⟨[], .broken, doc.marked, (none : Option ν)⟩] []
  simp only [List.map_cons, List.map_nil, Job.task, plain_marked] at same
  rw [render, same]
  rfl

end ApexLayout.Doc
