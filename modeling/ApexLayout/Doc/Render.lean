import ApexLayout.Doc.Basic
import ApexLayout.Settings.Basic
import ApexLayout.Text.Blank

/-!
Rendering lays a document out against the print width. Documents still to be written stand on a work
list, each with its mode and indentation; suffixes wait for the next line end. The work list grows
lighter with every step, so rendering always ends.
-/
namespace ApexLayout.Doc

/-! ### Forced breaks -/

mutual
/-- Marks every group as broken that holds a forced break or a broken group, and says whether the
    document holds one. -/
def spreadBreaks : Doc → Doc × Bool
  | .breakParent => (.breakParent, true)
  | .concat parts =>
    let (parts, found) := spreadBreaksAll parts
    (.concat parts, found)
  | .group contents broken =>
    let (contents, found) := contents.spreadBreaks
    (.group contents (broken || found), broken || found)
  | .indent contents =>
    let (contents, found) := contents.spreadBreaks
    (.indent contents, found)
  | .dedent contents =>
    let (contents, found) := contents.spreadBreaks
    (.dedent contents, found)
  | .align columns contents =>
    let (contents, found) := contents.spreadBreaks
    (.align columns contents, found)
  | .lineSuffix contents =>
    let (contents, found) := contents.spreadBreaks
    (.lineSuffix contents, found)
  | doc => (doc, false)
def spreadBreaksAll : List Doc → List Doc × Bool
  | [] => ([], false)
  | doc :: docs =>
    let (doc, here) := doc.spreadBreaks
    let (docs, later) := spreadBreaksAll docs
    (doc :: docs, here || later)
end

/-! ### Indentation -/

inductive Step where
  | level
  | columns (n : Nat)
  deriving Repr, DecidableEq

/-- The steps of indentation at a place, innermost first. -/
abbrev Indentation := List Step

/-- What is written so far of an indentation, its width, and the alignment that waits for the next
    level: how many steps, and how many columns. -/
structure Margin where
  text : List Char
  width : Nat
  waitingSteps : Nat
  waitingColumns : Nat
  deriving Repr, DecidableEq

namespace Margin

def spaces (m : Margin) (n : Nat) : Margin :=
  { m with text := m.text ++ List.replicate n ' ', width := m.width + n }

def tabs (settings : FormatSettings) (m : Margin) (n : Nat) : Margin :=
  { m with text := m.text ++ List.replicate n '\t', width := m.width + settings.tabWidth.toNat * n }

/-- A level writes the alignment that waits, as tabs or as spaces, and then itself. -/
def step (settings : FormatSettings) (m : Margin) : Step → Margin
  | .level =>
    let m :=
      if settings.useTabs then (m.tabs settings m.waitingSteps).tabs settings 1
      else (m.spaces m.waitingColumns).spaces settings.tabWidth.toNat
    { m with waitingSteps := 0, waitingColumns := 0 }
  | .columns n => { m with waitingSteps := m.waitingSteps + 1, waitingColumns := m.waitingColumns + n }

/-- The margin of an indentation. Alignment after the last level is always written in spaces. -/
def ofIndentation (settings : FormatSettings) (steps : Indentation) : Margin :=
  let m := steps.reverse.foldl (step settings) ⟨[], 0, 0, 0⟩
  m.spaces m.waitingColumns

end Margin

/-! ### Fitting -/

inductive Mode where
  | flat
  | broken
  deriving Repr, DecidableEq

/-- The spaces and tabs at the end of a text that follows `before` others. -/
def trailingGaps (before : Nat) (value : String) : Nat :=
  let gaps := value.toList.reverse.takeWhile Text.isGap
  if gaps.length = value.length then before + gaps.length else gaps.length

def modeWeights : List (Mode × Doc) → Nat
  | [] => 0
  | (_, doc) :: rest => doc.weight + modeWeights rest

theorem modeWeights_append (xs ys : List (Mode × Doc)) :
    modeWeights (xs ++ ys) = modeWeights xs + modeWeights ys := by
  induction xs with
  | nil => simp [modeWeights]
  | cons x xs ih => simp [modeWeights, ih, Nat.add_assoc]

def inMode (mode : Mode) (parts : List Doc) : List (Mode × Doc) := parts.map (mode, ·)

theorem modeWeights_inMode (mode : Mode) (parts : List Doc) : modeWeights (inMode mode parts) = weights parts := by
  induction parts with
  | nil => simp [inMode, modeWeights, weights]
  | cons x xs ih => simpa [inMode, modeWeights, weights] using ih

/-- The documents up to the first line end fit into the columns left. `gaps` counts the spaces and
    tabs at the end of what was taken so far. -/
def fits (columns : Int) (gaps : Nat) (docs : List (Mode × Doc)) : Bool :=
  if columns < 0 then false
  else
    match docs with
    | [] => true
    | (mode, doc) :: rest =>
      match doc with
      | .text value => fits (columns - value.length) (trailingGaps gaps value) rest
      | .concat parts => fits columns gaps (inMode mode parts ++ rest)
      | .indent contents => fits columns gaps ((mode, contents) :: rest)
      | .dedent contents => fits columns gaps ((mode, contents) :: rest)
      | .align _ contents => fits columns gaps ((mode, contents) :: rest)
      | .group contents broken => fits columns gaps ((if broken then .broken else mode, contents) :: rest)
      | .trim => fits (columns + gaps) 0 rest
      | .line => if mode = .broken then true else fits (columns - 1) (gaps + 1) rest
      | .softLine => if mode = .broken then true else fits columns gaps rest
      | .lineEnd => true
      | .lineSuffix _ => fits columns gaps rest
      | .breakParent => fits columns gaps rest
      | .note label _ => nomatch label
termination_by modeWeights docs
decreasing_by
  all_goals
    simp only [modeWeights, modeWeights_append, modeWeights_inMode, weight]
    omega

/-! ### The work list -/

structure Task where
  indentation : Indentation
  mode : Mode
  doc : Doc

/-- What is written so far, last character first. -/
structure Canvas where
  written : List Char := []
  column : Nat := 0
  /-- A line was ended inside a flat group, so the next group is measured anew. -/
  remeasure : Bool := false
  deriving Repr, DecidableEq

namespace Canvas

/-- Writes a text. After a line feed columns are counted from there. -/
def write (canvas : Canvas) (value : String) : Canvas :=
  let reversed := value.toList.reverse
  let column :=
    if reversed.contains '\n' then (reversed.takeWhile (· != '\n')).length else canvas.column + value.length
  { canvas with written := reversed ++ canvas.written, column }

def trim (canvas : Canvas) : Canvas :=
  let kept := canvas.written.dropWhile Text.isGap
  { canvas with written := kept, column := canvas.column - (canvas.written.length - kept.length) }

/-- Ends the line without spaces and tabs at its end, and indents the next one. -/
def endLine (settings : FormatSettings) (indentation : Indentation) (canvas : Canvas) : Canvas :=
  let margin := Margin.ofIndentation settings indentation
  { canvas with
    written := margin.text.reverse ++ '\n' :: canvas.written.dropWhile Text.isGap
    column := margin.width }

end Canvas

def taskWeights : List Task → Nat
  | [] => 0
  | task :: tasks => task.doc.weight + taskWeights tasks

theorem taskWeights_append (xs ys : List Task) : taskWeights (xs ++ ys) = taskWeights xs + taskWeights ys := by
  induction xs with
  | nil => simp [taskWeights]
  | cons x xs ih => simp [taskWeights, ih, Nat.add_assoc]

theorem taskWeights_map (indentation : Indentation) (mode : Mode) (parts : List Doc) :
    taskWeights (parts.map (⟨indentation, mode, ·⟩)) = weights parts := by
  induction parts with
  | nil => simp [taskWeights, weights]
  | cons x xs ih => simp [taskWeights, weights, ih]

/-- The state of a layout: what is written, what is still to be written, and the suffixes that wait
    for the end of the line. -/
structure Work where
  canvas : Canvas := {}
  tasks : List Task
  suffixes : List Task := []

namespace Work

def load (work : Work) : Nat := taskWeights work.tasks + taskWeights work.suffixes + work.suffixes.length

/-- Once nothing else is to be written, the suffixes are. -/
def settle (work : Work) : Work :=
  if work.tasks.isEmpty then { work with tasks := work.suffixes, suffixes := [] } else work

theorem load_settle_le (work : Work) : work.settle.load ≤ work.load := by
  obtain ⟨canvas, tasks, suffixes⟩ := work
  cases tasks <;> simp [settle, load, taskWeights]

end Work

/-- A group's contents fit on the line, together with what follows them up to the next line end. -/
def fitsFlat (settings : FormatSettings) (column : Nat) (contents : Doc) (rest : List Task) : Bool :=
  fits (settings.columnsLeft column) 0 ((.flat, contents) :: rest.map fun task => (task.mode, task.doc))

/-- The mode in which a group's contents are laid out. A group in a flat one is flat unless it is broken. -/
def groupMode (settings : FormatSettings) (canvas : Canvas) (mode : Mode) (contents : Doc) (broken : Bool)
    (rest : List Task) : Mode :=
  if broken then .broken
  else if mode = .flat && !canvas.remeasure then .flat
  else if fitsFlat settings canvas.column contents rest then .flat
  else .broken

/-- Ends the line at a document that breaks there. Suffixes that wait are written first, and then the
    document comes again. -/
def breakLine (settings : FormatSettings) (canvas : Canvas) (task : Task) (rest suffixes : List Task) : Work :=
  if suffixes.isEmpty then
    Work.settle { canvas := canvas.endLine settings task.indentation, tasks := rest }
  else { canvas, tasks := suffixes ++ task :: rest }

/-- Writes the first document of the work list, or puts its parts in its place. A flat line does not
    settle the work list, so suffixes are lost if nothing follows it. -/
def advance (settings : FormatSettings) (canvas : Canvas) (task : Task) (rest suffixes : List Task) : Work :=
  match task.doc with
  | .text value => Work.settle { canvas := canvas.write value, tasks := rest, suffixes }
  | .concat parts => Work.settle { canvas, tasks := parts.map ({ task with doc := · }) ++ rest, suffixes }
  | .indent contents =>
    Work.settle
      { canvas, tasks := { task with indentation := .level :: task.indentation, doc := contents } :: rest, suffixes }
  | .align columns contents =>
    let indentation := if columns = 0 then task.indentation else .columns columns :: task.indentation
    Work.settle { canvas, tasks := { task with indentation, doc := contents } :: rest, suffixes }
  | .dedent contents =>
    Work.settle
      { canvas, tasks := { task with indentation := task.indentation.tail, doc := contents } :: rest, suffixes }
  | .trim => Work.settle { canvas := canvas.trim, tasks := rest, suffixes }
  | .group contents broken =>
    let mode := groupMode settings canvas task.mode contents broken rest
    Work.settle
      { canvas := { canvas with remeasure := false }, tasks := { task with mode, doc := contents } :: rest, suffixes }
  | .lineSuffix contents =>
    Work.settle { canvas, tasks := rest, suffixes := suffixes ++ [{ task with doc := contents }] }
  | .breakParent => Work.settle { canvas, tasks := rest, suffixes }
  | .line =>
    if task.mode = .flat then { canvas := canvas.write " ", tasks := rest, suffixes }
    else breakLine settings canvas task rest suffixes
  | .softLine =>
    if task.mode = .flat then { canvas, tasks := rest, suffixes } else breakLine settings canvas task rest suffixes
  | .lineEnd =>
    let canvas := if task.mode = .flat then { canvas with remeasure := true } else canvas
    breakLine settings canvas task rest suffixes
  | .note label _ => nomatch label

theorem one_le_weight (doc : Doc) : 1 ≤ doc.weight := by
  cases doc <;> simp [weight]
  omega

theorem load_breakLine_lt (settings : FormatSettings) (canvas : Canvas) (task : Task) (rest suffixes : List Task) :
    (breakLine settings canvas task rest suffixes).load < taskWeights (task :: rest) + taskWeights suffixes +
      suffixes.length := by
  have positive := one_le_weight task.doc
  unfold breakLine
  split
  · refine Nat.lt_of_le_of_lt (Work.load_settle_le _) ?_
    simp only [Work.load, taskWeights, List.length_nil]
    omega
  · next waiting =>
    cases suffixes with
    | nil => simp at waiting
    | cons s suffixes =>
      simp only [Work.load, taskWeights, taskWeights_append, List.length_nil, List.length_cons]
      omega

/-- Every step makes the work list lighter. -/
theorem load_advance_lt (settings : FormatSettings) (canvas : Canvas) (task : Task) (rest suffixes : List Task) :
    (advance settings canvas task rest suffixes).load < taskWeights (task :: rest) + taskWeights suffixes +
      suffixes.length := by
  obtain ⟨indentation, mode, doc⟩ := task
  cases doc
  case line =>
    simp only [advance]
    split
    · simp only [Work.load, taskWeights, weight]; omega
    · exact load_breakLine_lt ..
  case softLine =>
    simp only [advance]
    split
    · simp only [Work.load, taskWeights, weight]; omega
    · exact load_breakLine_lt ..
  case lineEnd => exact load_breakLine_lt ..
  case note label _ => exact label.elim
  all_goals
    refine Nat.lt_of_le_of_lt (Work.load_settle_le _) ?_
    simp only [Work.load, taskWeights, taskWeights_append, taskWeights_map, weight, List.length_append,
      List.length_cons, List.length_nil]
    omega

def run (settings : FormatSettings) (canvas : Canvas) (tasks suffixes : List Task) : Canvas :=
  match tasks with
  | [] => canvas
  | task :: rest =>
    let next := advance settings canvas task rest suffixes
    run settings next.canvas next.tasks next.suffixes
termination_by taskWeights tasks + taskWeights suffixes + suffixes.length
decreasing_by exact load_advance_lt ..

/-- The text of a document under the settings, in which its notes do not show. -/
def render {ν : Type} (settings : FormatSettings) (doc : Doc ν) : String :=
  String.ofList (run settings {} [⟨[], .broken, doc.plain.spreadBreaks.1⟩] []).written.reverse

end ApexLayout.Doc
