import Mathlib.Logic.Function.Iterate
import ApexLayout.Doc.Render

/-!
How many rounds the loops of a layout take. Every round of the layout makes its load less (`Work.iterate_next`), and
every round of a measurement answers or leaves less to measure (`Gauge.answer_eq`).
-/
namespace ApexLayout.Doc

variable {ν : Type}

/-! ### The layout -/

namespace Work

variable (settings : FormatSettings)

/-- One round of the layout. Without tasks nothing happens any more. -/
def next (work : Work) : Work :=
  match work.tasks with
  | [] => work
  | task :: rest => advance settings work.canvas task rest work.suffixes

theorem load_next_lt {work : Work} (more : work.tasks ≠ []) : (work.next settings).load < work.load := by
  obtain ⟨canvas, tasks, suffixes⟩ := work
  cases tasks with
  | nil => exact absurd rfl more
  | cons task rest => exact load_advance_lt settings canvas task rest suffixes

theorem run_next (work : Work) :
    run settings work.canvas work.tasks work.suffixes =
      run settings (work.next settings).canvas (work.next settings).tasks (work.next settings).suffixes := by
  obtain ⟨canvas, tasks, suffixes⟩ := work
  cases tasks with
  | nil => rfl
  | cons task rest => simp only [next, run]

theorem iterate_next (n : Nat) (work : Work) (enough : work.load ≤ n) :
    ((next settings)^[n] work).tasks = [] ∧
      ((next settings)^[n] work).canvas = run settings work.canvas work.tasks work.suffixes := by
  by_cases done : work.tasks = []
  · have stays : (next settings)^[n] work = work := Function.iterate_fixed (by simp [next, done]) n
    exact ⟨by rw [stays, done], by simp [stays, done, run]⟩
  · have less := load_next_lt settings done
    cases n with
    | zero => omega
    | succ n =>
      rw [Function.iterate_succ_apply, run_next]
      exact iterate_next n (work.next settings) (by omega)

end Work

mutual
theorem weight_spreadBreaks (doc : Doc) : doc.spreadBreaks.1.weight = doc.weight := by
  cases doc with
  | concat parts => simp only [spreadBreaks, weight, weights_spreadBreaksAll parts]
  | group contents broken | indent contents | dedent contents | align columns contents | lineSuffix contents =>
    simp only [spreadBreaks, weight, weight_spreadBreaks contents]
  | _ => rfl
theorem weights_spreadBreaksAll (docs : List Doc) : weights (spreadBreaksAll docs).1 = weights docs := by
  cases docs with
  | nil => rfl
  | cons doc docs => simp only [spreadBreaksAll, weights, weight_spreadBreaks doc, weights_spreadBreaksAll docs]
end

/-! ### Measuring -/

/-- The state of a measurement. What follows the group is taken up only when nothing of the group is left. -/
structure Gauge where
  columns : Int
  gaps : Nat := 0
  stack : List (Mode × Doc)
  rest : List (Mode × Doc)

namespace Gauge

def load (g : Gauge) : Nat := modeWeights g.stack + modeWeights g.rest + g.rest.length

/-- One round of a measurement: the answer, or what is measured next. -/
def next (g : Gauge) : Bool ⊕ Gauge :=
  if g.columns < 0 then .inl false
  else
    match g.stack with
    | [] =>
      match g.rest with
      | [] => .inl true
      | first :: rest => .inr { g with stack := [first], rest }
    | (mode, doc) :: stack =>
      match doc with
      | .text value => .inr { g with columns := g.columns - value.length, gaps := trailingGaps g.gaps value, stack }
      | .concat parts => .inr { g with stack := inMode mode parts ++ stack }
      | .indent contents | .dedent contents | .align _ contents => .inr { g with stack := (mode, contents) :: stack }
      | .group contents broken => .inr { g with stack := (if broken then .broken else mode, contents) :: stack }
      | .trim => .inr { g with columns := g.columns + g.gaps, gaps := 0, stack }
      | .line => if mode = .broken then .inl true else .inr { g with columns := g.columns - 1, gaps := g.gaps + 1, stack }
      | .softLine => if mode = .broken then .inl true else .inr { g with stack }
      | .lineEnd => .inl true
      | .lineSuffix _ | .breakParent => .inr { g with stack }
      | .note label _ => nomatch label

/-- The answer of a measurement, if it comes within `n` rounds. -/
def answer : Nat → Gauge → Option Bool
  | 0, _ => none
  | n + 1, g =>
    match g.next with
    | .inl result => some result
    | .inr later => later.answer n

def result (g : Gauge) : Bool := fits g.columns g.gaps (g.stack ++ g.rest)

/-- A round answers as the measurement does, or leaves less with the same answer. -/
theorem next_spec (g : Gauge) :
    g.next.elim (· = g.result) fun later => later.load < g.load ∧ later.result = g.result := by
  obtain ⟨columns, gaps, stack, rest⟩ := g
  have here : result ⟨columns, gaps, stack, rest⟩ = _ := fits.eq_def columns gaps (stack ++ rest)
  by_cases negative : columns < 0
  · simp [here, next, negative]
  · cases stack with
    | nil =>
      cases rest with
      | nil => simp [here, next, negative]
      | cons first rest => simp [next, negative, result, load, modeWeights]
    | cons first stack =>
      obtain ⟨mode, doc⟩ := first
      rw [here]
      cases doc with
      | line | softLine =>
        by_cases broken : mode = .broken <;>
          simp [next, negative, result, broken, load, modeWeights, weight]
      | lineSuffix contents =>
        simp only [next, negative, if_false, Sum.elim_inr, result, load, modeWeights, weight, List.cons_append, and_true]
        omega
      | note label _ => exact label.elim
      | _ => simp [next, negative, result, load, modeWeights, modeWeights_append, modeWeights_inMode, weight]

theorem answer_eq (g : Gauge) (n : Nat) (enough : g.load < n) : g.answer n = some g.result := by
  induction n generalizing g with
  | zero => omega
  | succ n ih =>
    have spec := g.next_spec
    rw [answer]
    cases went : g.next with
    | inl result =>
      rw [went] at spec
      exact congrArg some spec
    | inr later =>
      rw [went] at spec
      obtain ⟨less, same⟩ := spec
      rw [← same]
      exact ih later (by omega)

end Gauge

def Work.start (doc : Doc ν) : Work := { tasks := [⟨[], .broken, doc.plain.spreadBreaks.1⟩] }

theorem Work.load_start (doc : Doc ν) : (start doc).load = doc.plain.weight := by
  simp [start, load, taskWeights, weight_spreadBreaks]

/-- From every state the layout comes to an end in as many rounds as its load, and stays there. So a document is written
    in as many rounds as its weight. Measuring answers in a round more than what there is to measure. -/
theorem loops_end (settings : FormatSettings) (doc : Doc ν) (work : Work) (gauge : Gauge) (more : Nat) :
    (((Work.next settings)^[work.load + more] work).tasks = [] ∧
      ((Work.next settings)^[work.load + more] work).canvas = run settings work.canvas work.tasks work.suffixes) ∧
    ((Work.next settings)^[doc.plain.weight] (Work.start doc)).tasks = [] ∧
    render settings doc =
      String.ofList ((Work.next settings)^[doc.plain.weight] (Work.start doc)).canvas.written.reverse ∧
    gauge.answer (gauge.load + 1 + more) = some (fits gauge.columns gauge.gaps (gauge.stack ++ gauge.rest)) := by
  have ends := Work.iterate_next settings doc.plain.weight (.start doc) (Nat.le_of_eq (Work.load_start doc))
  refine ⟨Work.iterate_next settings _ work (Nat.le_add_right ..), ends.1, ?_, gauge.answer_eq _ (by omega)⟩
  rw [ends.2]
  rfl

end ApexLayout.Doc
