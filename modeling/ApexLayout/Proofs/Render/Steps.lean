import ApexLayout.Proofs.Render.Breaks
import Mathlib.Logic.Relation

/-!
The layout, step by step. A task is written without touching those behind it (`exists_rest`), so that the layout comes
to every line of a sequence of tasks, and the mode of the sequence decides whether it ends (`meets_line`).
-/
namespace ApexLayout.Doc

variable {rest : List Task} {ν : Type}

inductive Work.Next (settings : FormatSettings) : Work → Work → Prop where
  | advance (canvas : Canvas) (task : Task) (rest suffixes : List Task) :
    Next settings ⟨canvas, task :: rest, suffixes⟩ (advance settings canvas task rest suffixes)

abbrev Work.Comes (settings : FormatSettings) : Work → Work → Prop := Relation.ReflTransGen (Work.Next settings)

variable {settings : FormatSettings}

theorem run_of_comes {before after : Work} (comes : before.Comes settings after) :
    run settings before.canvas before.tasks before.suffixes = run settings after.canvas after.tasks after.suffixes := by
  induction comes with
  | refl => rfl
  | tail _ next ih =>
    cases next with
    | advance canvas task rest suffixes => rw [ih, run]

theorem settle_append {tasks : List Task} (more : rest ≠ []) (canvas : Canvas) (suffixes : List Task) :
    Work.settle ⟨canvas, tasks ++ rest, suffixes⟩ = ⟨canvas, tasks ++ rest, suffixes⟩ := by
  simp [Work.settle, more]

/-- A step puts tasks in the place of the first one. -/
theorem advance_append (settings : FormatSettings) (more : rest ≠ []) (canvas : Canvas) (task : Task)
    (tasks suffixes : List Task) :
    ∃ next later waiting, advance settings canvas task (tasks ++ rest) suffixes = ⟨next, later ++ rest, waiting⟩ := by
  obtain ⟨indentation, mode, doc⟩ := task
  have put (next : Canvas) (first waiting : List Task) : ∃ n later w,
      Work.settle ⟨next, first ++ (tasks ++ rest), waiting⟩ = ⟨n, later ++ rest, w⟩ :=
    ⟨next, first ++ tasks, waiting, by rw [← List.append_assoc, settle_append more]⟩
  have ended (next : Canvas) (task : Task) : ∃ n later w,
      breakLine settings next task (tasks ++ rest) suffixes = ⟨n, later ++ rest, w⟩ := by
    unfold breakLine
    split
    · exact put _ [] []
    · exact ⟨next, suffixes ++ task :: tasks, [], by simp⟩
  cases doc with
  | text value | lineSuffix contents | breakParent | trim => exact put _ [] _
  | concat parts => exact put _ _ _
  | group contents broken | indent contents | dedent contents | align columns contents => exact put _ [_] _
  | line | softLine =>
    simp only [advance]
    split
    · exact ⟨_, tasks, _, rfl⟩
    · exact ended _ _
  | lineEnd => exact ended _ _
  | note label contents => exact label.elim

/-- Tasks are written until those behind them come. -/
theorem exists_rest (settings : FormatSettings) {rest : List Task} (more : rest ≠ []) (canvas : Canvas)
    (tasks suffixes : List Task) :
    ∃ next waiting, Work.Comes settings ⟨canvas, tasks ++ rest, suffixes⟩ ⟨next, rest, waiting⟩ := by
  cases tasks with
  | nil => exact ⟨canvas, suffixes, .refl⟩
  | cons task tasks =>
    have lighter := load_advance_lt settings canvas task (tasks ++ rest) suffixes
    obtain ⟨next, later, waiting, step⟩ := advance_append settings more canvas task tasks suffixes
    obtain ⟨last, left, comes⟩ := exists_rest settings more next later waiting
    exact ⟨last, left, .head (step ▸ .advance canvas task (tasks ++ rest) suffixes) comes⟩
termination_by taskWeights (tasks ++ rest) + taskWeights suffixes + suffixes.length
decreasing_by
  rw [step] at lighter
  exact lighter

/-- The layout comes to the line, and the line is a space or ends as the mode says. -/
def Work.MeetsLine (settings : FormatSettings) (start : Work) (indentation : Indentation) (mode : Mode)
    (rest : List Task) : Prop :=
  ∃ canvas suffixes next waiting, start.Comes settings ⟨canvas, ⟨indentation, mode, .line⟩ :: rest, suffixes⟩ ∧
    Work.Comes settings ⟨canvas, ⟨indentation, mode, .line⟩ :: rest, suffixes⟩
      ⟨if mode = .flat then next.write " " else next.endLine settings indentation, rest, waiting⟩ ∧
    (mode = .flat ∨ suffixes = [] → next = canvas)

theorem load_of_comes {before after : Work} (comes : before.Comes settings after) : after.load ≤ before.load := by
  induction comes with
  | refl => exact Nat.le_refl _
  | tail _ next ih =>
    cases next with
    | advance canvas task rest suffixes => exact Nat.le_trans (Nat.le_of_lt (load_advance_lt settings canvas task rest suffixes)) ih

theorem Work.MeetsLine.of_comes {start later : Work} {indentation : Indentation} {mode : Mode}
    (comes : start.Comes settings later) (meets : later.MeetsLine settings indentation mode rest) :
    start.MeetsLine settings indentation mode rest := by
  obtain ⟨canvas, suffixes, next, waiting, reached, done, same⟩ := meets
  exact ⟨canvas, suffixes, next, waiting, comes.trans reached, done, same⟩

/-- Before the line ends, the suffixes are written, and those that come to wait meanwhile. -/
theorem exists_endLine (settings : FormatSettings) {rest : List Task} (more : rest ≠ []) (indentation : Indentation)
    (canvas : Canvas) (suffixes : List Task) :
    ∃ next, Work.Comes settings ⟨canvas, ⟨indentation, .broken, .line⟩ :: rest, suffixes⟩
        ⟨next.endLine settings indentation, rest, []⟩ ∧ (suffixes = [] → next = canvas) := by
  have step : Work.Next settings ⟨canvas, ⟨indentation, .broken, .line⟩ :: rest, suffixes⟩ _ := .advance ..
  have lighter := load_advance_lt settings canvas ⟨indentation, .broken, .line⟩ rest suffixes
  by_cases none_waits : suffixes = []
  · subst none_waits
    refine ⟨canvas, .single ?_, fun _ => rfl⟩
    simpa [advance, breakLine, Work.settle, more] using step
  · have written : advance settings canvas ⟨indentation, .broken, .line⟩ rest suffixes =
        ⟨canvas, suffixes ++ ⟨indentation, .broken, .line⟩ :: rest, []⟩ := by simp [advance, breakLine, none_waits]
    rw [written] at step
    obtain ⟨next, waiting, comes⟩ := exists_rest settings (List.cons_ne_nil _ rest) canvas suffixes []
    obtain ⟨last, ends, -⟩ := exists_endLine settings more indentation next waiting
    exact ⟨last, .head step (comes.trans ends), fun empty => absurd empty none_waits⟩
termination_by taskWeights (⟨indentation, .broken, .line⟩ :: rest) + taskWeights suffixes + suffixes.length
decreasing_by
  rw [written] at lighter
  exact Nat.lt_of_le_of_lt (load_of_comes comes) lighter

theorem meets_line (settings : FormatSettings) (more : rest ≠ []) (indentation : Indentation) (mode : Mode)
    (canvas : Canvas) (tasks suffixes : List Task) :
    Work.MeetsLine settings ⟨canvas, tasks ++ ⟨indentation, mode, .line⟩ :: rest, suffixes⟩ indentation mode rest := by
  obtain ⟨at_line, waiting, comes⟩ := exists_rest settings (List.cons_ne_nil ⟨indentation, mode, .line⟩ rest) canvas tasks suffixes
  cases mode with
  | flat => exact ⟨at_line, waiting, at_line, waiting, comes, .single (.advance ..), fun _ => rfl⟩
  | broken =>
    obtain ⟨next, ends, same⟩ := exists_endLine settings more indentation at_line waiting
    exact ⟨at_line, waiting, next, [], comes, ends, fun none_waits => same (none_waits.resolve_left (by decide))⟩

/-- Documents of a chain, each but the first behind its operator, with a line between them that is in no group. -/
def chainOf {ν : Type} (first : Doc ν) (links : List (Doc ν × Doc ν)) : Doc ν :=
  links.foldl (fun left link => .concat [left, " ", .concat [link.1, .line, link.2]]) first

def ready {ν : Type} (doc : Doc ν) : Doc := doc.plain.spreadBreaks.1

theorem ready_concat (docs : List (Doc ν)) : (concat docs).ready = .concat (docs.map ready) := by
  rw [ready, plain, plains_eq_map, spreadBreaks, spreadBreaksAll_eq, List.map_map]
  rfl

theorem ready_chainOf (first : Doc ν) (links : List (Doc ν × Doc ν)) :
    (chainOf first links).ready = chainOf first.ready (links.map (Prod.map ready ready)) := by
  induction links generalizing first with
  | nil => rfl
  | cons link links ih =>
    rw [chainOf, List.foldl_cons, ← chainOf, ih, ready_concat]
    simp only [List.map_cons, List.map_nil, ready_concat]
    rfl

def linkTasks (indentation : Indentation) (mode : Mode) (links : List (Doc × Doc)) : List Task :=
  links.flatMap fun link => [⟨indentation, mode, " "⟩, ⟨indentation, mode, .concat [link.1, .line, link.2]⟩]

theorem comes_chainOf (first : Doc) (links : List (Doc × Doc)) (indentation : Indentation) (mode : Mode) (canvas : Canvas)
    (rest suffixes : List Task) :
    Work.Comes settings ⟨canvas, ⟨indentation, mode, chainOf first links⟩ :: rest, suffixes⟩
      ⟨canvas, ⟨indentation, mode, first⟩ :: (linkTasks indentation mode links ++ rest), suffixes⟩ := by
  induction links generalizing first with
  | nil => exact .refl
  | cons link links ih => exact (ih _).tail (.advance ..)

theorem chainOf_meets_line (first : Doc) (before : List (Doc × Doc)) (op right : Doc) (after : List (Doc × Doc))
    (indentation : Indentation) (mode : Mode) (canvas : Canvas) (rest suffixes : List Task) :
    Work.MeetsLine settings ⟨canvas, ⟨indentation, mode, chainOf first (before ++ (op, right) :: after)⟩ :: rest, suffixes⟩
      indentation mode (⟨indentation, mode, right⟩ :: (linkTasks indentation mode after ++ rest)) := by
  refine .of_comes (comes_chainOf ..) ?_
  have split : linkTasks indentation mode (before ++ (op, right) :: after) = linkTasks indentation mode before ++
      ⟨indentation, mode, " "⟩ :: ⟨indentation, mode, .concat [op, .line, right]⟩ :: linkTasks indentation mode after := by
    simp [linkTasks]
  obtain ⟨next, waiting, comes⟩ := exists_rest settings
    (List.cons_ne_nil ⟨indentation, mode, .concat [op, .line, right]⟩ (linkTasks indentation mode after ++ rest)) canvas
    (⟨indentation, mode, first⟩ :: linkTasks indentation mode before ++ [⟨indentation, mode, " "⟩]) suffixes
  rw [split]
  refine .of_comes (by simpa using comes) (.of_comes (.single (.advance ..)) ?_)
  exact meets_line settings (List.cons_ne_nil _ _) indentation mode next [⟨indentation, mode, op⟩] waiting

/-- A document with the links breaks together: in any mode and at any indentation, the layout comes to the line behind
    each operator, and the lines are all spaces or all end. What follows them is all at one indentation, that of the
    document or one level further. -/
def BreaksTogether {ν : Type} (doc : Doc ν) (indented : Bool) (links : List (Doc ν × Doc ν)) : Prop :=
  ∀ (settings : FormatSettings) (canvas : Canvas) (indentation : Indentation) (mode : Mode) (rest suffixes : List Task)
    (before after : List (Doc ν × Doc ν)) (op right : Doc ν), links = before ++ (op, right) :: after →
    let inner := if indented then .level :: indentation else indentation
    Work.MeetsLine settings ⟨canvas, ⟨indentation, mode, doc.ready⟩ :: rest, suffixes⟩ inner mode
      (⟨inner, mode, right.ready⟩ :: (linkTasks inner mode (after.map (Prod.map ready ready)) ++ rest))

theorem breaksTogether_chainOf (first : Doc ν) (links : List (Doc ν × Doc ν)) :
    (chainOf first links).BreaksTogether false links := by
  rintro settings canvas indentation mode rest suffixes before after op right rfl
  rw [ready_chainOf, List.map_append]
  exact chainOf_meets_line ..

theorem breaksTogether_indent {doc : Doc ν} {links : List (Doc ν × Doc ν)} (together : doc.BreaksTogether false links) :
    (indent doc).BreaksTogether true links := by
  intro settings canvas indentation mode rest suffixes before after op right split
  exact .of_comes (.single (.advance ..))
    (together settings canvas (.level :: indentation) mode rest suffixes before after op right split)

end ApexLayout.Doc
