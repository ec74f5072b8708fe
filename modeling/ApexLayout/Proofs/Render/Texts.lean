import ApexLayout.Proofs.Render.Strokes
import Mathlib.Data.List.TakeWhile
import Mathlib.Data.List.Forall2

/-!
Rendering keeps the texts of a document in order, but for spaces and tabs taken from their ends, and adds nothing but
white space (`render_spells`). If nothing is held back, each sign makes one stroke (`strokes_of_signs`).
-/
namespace ApexLayout.Doc

variable {ν : Type}

mutual
def texts : Doc ν → List String
  | .text value => [value]
  | .concat parts => textsOf parts
  | .group contents _ => contents.texts
  | .indent contents => contents.texts
  | .dedent contents => contents.texts
  | .align _ contents => contents.texts
  | .lineSuffix contents => contents.texts
  | .note _ contents => contents.texts
  | _ => []
def textsOf : List (Doc ν) → List String
  | [] => []
  | doc :: docs => doc.texts ++ textsOf docs
end

mutual
/-- Nothing in the document is held back to the end of a line. -/
def suffixFree : Doc ν → Bool
  | .concat parts => suffixFreeAll parts
  | .group contents _ => contents.suffixFree
  | .indent contents => contents.suffixFree
  | .dedent contents => contents.suffixFree
  | .align _ contents => contents.suffixFree
  | .lineSuffix _ => false
  | .note _ contents => contents.suffixFree
  | _ => true
def suffixFreeAll : List (Doc ν) → Bool
  | [] => true
  | doc :: docs => doc.suffixFree && suffixFreeAll docs
end

/-- A character that a layout may write on its own: a space, a tab or a line feed. -/
def isSpacing (c : Char) : Bool := Text.isGap c || c == '\n'

/-- The characters spell the texts: each stands there unchanged, but for spaces and tabs taken from its
    end, and what stands around them is white space. -/
inductive Spells : List String → List Char → Prop where
  | done {blanks : List Char} (spacing : ∀ c ∈ blanks, isSpacing c) : Spells [] blanks
  | text {value : String} {values : List String} {blanks kept cut rest : List Char}
      (spacing : ∀ c ∈ blanks, isSpacing c) (whole : value.toList = kept ++ cut)
      (gaps : ∀ c ∈ cut, Text.isGap c) (later : Spells values rest) : Spells (value :: values) (blanks ++ kept ++ rest)

def inked (s : String) : List Char := s.toList.filter (!isSpacing ·)

def Stroke.text? : Stroke ν → Option String
  | .text value _ => some value
  | _ => none

/-! ### What is written -/

theorem Margin.step_gaps (settings : FormatSettings) {m : Margin} (gaps : ∀ c ∈ m.text, Text.isGap c)
    (step : Step) : ∀ c ∈ (m.step settings step).text, Text.isGap c := by
  intro c member
  have written : c ∈ m.text ∨ c = '\t' ∨ c = ' ' := by
    cases step with
    | columns n => exact .inl member
    | level =>
      by_cases tabs : settings.useTabs
      · simp only [Margin.step, Margin.tabs, tabs, ↓reduceIte, List.mem_append, List.mem_replicate] at member
        grind
      · simp only [Margin.step, Margin.spaces, tabs] at member
        grind
  rcases written with early | rfl | rfl
  · exact gaps c early
  · decide
  · decide

theorem Margin.ofIndentation_gaps (settings : FormatSettings) (steps : Indentation) :
    ∀ c ∈ (Margin.ofIndentation settings steps).text, Text.isGap c := by
  have folded : ∀ (steps : List Step) (m : Margin), (∀ c ∈ m.text, Text.isGap c) →
      ∀ c ∈ (steps.foldl (Margin.step settings) m).text, Text.isGap c := by
    intro steps
    induction steps with
    | nil => exact fun m gaps => gaps
    | cons step steps ih => exact fun m gaps => ih _ (Margin.step_gaps settings gaps step)
  intro c member
  simp only [Margin.ofIndentation, Margin.spaces, List.mem_append, List.mem_replicate] at member
  rcases member with early | ⟨_, rfl⟩
  · exact folded steps.reverse ⟨[], 0, 0, 0⟩ (by simp) c early
  · decide

theorem isSpacing_of_mem_feed (settings : FormatSettings) (steps : Indentation) {c : Char}
    (member : c ∈ '\n' :: (Margin.ofIndentation settings steps).text) : isSpacing c := by
  rcases List.mem_cons.mp member with rfl | margin
  · decide
  · rw [isSpacing, Margin.ofIndentation_gaps settings steps c margin, Bool.true_or]

namespace Spells

variable {values : List String} {cs : List Char}

theorem append_blanks (spells : Spells values cs) (blanks : List Char) (spacing : ∀ c ∈ blanks, isSpacing c) :
    Spells values (cs ++ blanks) := by
  induction spells with
  | done before =>
    refine .done fun c member => ?_
    rcases List.mem_append.mp member with early | late
    · exact before c early
    · exact spacing c late
  | text before whole gaps later ih =>
    rw [List.append_assoc]
    exact .text before whole gaps ih

theorem append_text (spells : Spells values cs) (value : String) : Spells (values ++ [value]) (cs ++ value.toList) := by
  induction spells with
  | @done blanks before =>
    have single : Spells [value] (blanks ++ value.toList ++ []) :=
      .text before (List.append_nil _).symm (by simp) (.done (by simp))
    simpa using single
  | text before whole gaps later ih =>
    rw [List.append_assoc]
    exact .text before whole gaps ih

/-- A space or a tab at the end is white space, or else belongs to the end of the last text. -/
theorem drop_gap {c : Char} (spells : Spells values (cs ++ [c])) (gap : Text.isGap c) : Spells values cs := by
  generalize written : cs ++ [c] = all at spells
  induction spells generalizing cs with
  | done spacing =>
    subst written
    exact .done fun d member => spacing d (List.mem_append_left _ member)
  | @text value values blanks kept cut rest spacing whole gaps later ih =>
    rcases List.eq_nil_or_concat rest with rfl | ⟨rest, last, rfl⟩
    · -- Nothing follows the text, so the character is its own last one, or stands before it.
      rw [List.append_nil] at written
      rcases List.eq_nil_or_concat kept with rfl | ⟨kept, last, rfl⟩
      · rw [List.append_nil] at written
        subst written
        have shorter : Spells (value :: values) (cs ++ [] ++ []) :=
          .text (fun d member => spacing d (List.mem_append_left _ member)) whole gaps later
        simpa using shorter
      · rw [List.concat_eq_append, ← List.append_assoc] at written
        obtain ⟨rfl, same⟩ := List.append_inj' written rfl
        obtain rfl : c = last := by simpa using same
        have cut_here : value.toList = kept ++ c :: cut := by simpa using whole
        have shorter : Spells (value :: values) (blanks ++ kept ++ []) :=
          .text spacing cut_here (by simpa using ⟨gap, gaps⟩) later
        simpa using shorter
    · rw [List.concat_eq_append, ← List.append_assoc] at written
      obtain ⟨rfl, same⟩ := List.append_inj' written rfl
      obtain rfl : c = last := by simpa using same
      exact .text spacing whole gaps (ih (by simp))

theorem drop_gaps (gaps : List Char) (spells : Spells values (cs ++ gaps)) (all : ∀ c ∈ gaps, Text.isGap c) :
    Spells values cs := by
  induction gaps generalizing cs with
  | nil => simpa using spells
  | cons c gaps ih =>
    have shorter : Spells values (cs ++ [c]) :=
      ih (by simpa using spells) fun d member => all d (List.mem_cons_of_mem _ member)
    exact shorter.drop_gap (all c List.mem_cons_self)

/-- Texts and what spells them have the same characters but for white space. -/
theorem filter_eq (spells : Spells values cs) :
    cs.filter (!isSpacing ·) = values.flatMap inked := by
  induction spells with
  | done spacing => simpa using spacing
  | @text value values blanks kept cut rest spacing whole gaps later ih =>
    have blank : blanks.filter (!isSpacing ·) = [] := by simpa using spacing
    have end_blank : cut.filter (!isSpacing ·) = [] := by
      simp only [List.filter_eq_nil_iff]
      intro c member
      simp [isSpacing, gaps c member]
    simp [inked, whole, blank, end_blank, ih]

theorem draw (settings : FormatSettings) {written : List Char} (spells : Spells values written.reverse)
    (stroke : Stroke ν) : Spells (values ++ stroke.text?.toList) (stroke.draw settings written).reverse := by
  have trimmed : Spells values (written.dropWhile Text.isGap).reverse := by
    refine drop_gaps (written.takeWhile Text.isGap).reverse ?_ fun c member => ?_
    · rwa [← List.reverse_append, List.takeWhile_append_dropWhile]
    · exact List.mem_takeWhile_imp (List.mem_reverse.mp member)
  cases stroke with
  | text value label => simpa [Stroke.draw, Stroke.text?] using spells.append_text value
  | flat soft =>
    cases soft with
    | false => simpa [Stroke.draw, Stroke.text?] using spells.append_blanks [' '] (by simp [isSpacing, Text.isGap])
    | true => simpa [Stroke.draw, Stroke.text?] using spells
  | feed indentation =>
    have ended := trimmed.append_blanks ('\n' :: (Margin.ofIndentation settings indentation).text) fun c member =>
      isSpacing_of_mem_feed settings indentation member
    simpa [Stroke.draw, Stroke.text?] using ended
  | trim => simpa [Stroke.draw, Stroke.text?] using trimmed

end Spells

theorem spells_spell (settings : FormatSettings) (strokes : List (Stroke ν)) :
    Spells (strokes.filterMap Stroke.text?) (Stroke.spell settings strokes).toList := by
  have drawn : ∀ (values : List String) (written : List Char), Spells values written.reverse →
      Spells (values ++ strokes.filterMap Stroke.text?) (strokes.foldl (Stroke.draw settings) written).reverse := by
    induction strokes with
    | nil => simp
    | cons stroke strokes ih =>
      intro values written spells
      have onward := ih _ _ (spells.draw settings stroke)
      cases text : stroke.text? <;> simpa [text] using onward
  rw [Stroke.spell, String.toList_ofList]
  exact drawn [] [] (.done (by simp))

theorem textsOf_append (xs ys : List (Doc ν)) : textsOf (xs ++ ys) = textsOf xs ++ textsOf ys := by
  induction xs with
  | nil => rfl
  | cons x xs ih => simp [textsOf, ih]

theorem Work.settle_of_none_waits {work : Work} (none_waits : work.suffixes = []) : work.settle = work := by
  obtain ⟨canvas, tasks, suffixes⟩ := work
  subst none_waits
  cases tasks <;> rfl

/-! ### Signs -/

/-- What stands in a document to be written. -/
inductive Sign where
  | text (value : String)
  | line (soft : Bool)
  | lineEnd
  | trim

mutual
def signs : Doc ν → List Sign
  | .text value => [.text value]
  | .concat parts => signsOf parts
  | .group contents _ => contents.signs
  | .indent contents => contents.signs
  | .dedent contents => contents.signs
  | .align _ contents => contents.signs
  | .line => [.line false]
  | .softLine => [.line true]
  | .lineEnd => [.lineEnd]
  | .lineSuffix contents => contents.signs
  | .breakParent => []
  | .trim => [.trim]
  | .note _ contents => contents.signs
def signsOf : List (Doc ν) → List Sign
  | [] => []
  | doc :: docs => doc.signs ++ signsOf docs
end

def Sign.text? : Sign → Option String
  | .text value => some value
  | _ => none

/-- The stroke is one that a layout makes of the sign. -/
inductive Sign.Drawn : Sign → Stroke ν → Prop where
  | text (value : String) (label : Option ν) : Drawn (.text value) (.text value label)
  | flat (soft : Bool) : Drawn (.line soft) (.flat soft)
  | feed (soft : Bool) (indentation : Indentation) : Drawn (.line soft) (.feed indentation)
  | lineEnd (indentation : Indentation) : Drawn .lineEnd (.feed indentation)
  | trim : Drawn .trim .trim

mutual
theorem signs_marked (doc : Doc ν) : doc.marked.signs = doc.signs := by
  cases doc with
  | concat parts => exact signsOf_markedAll parts
  | group contents broken | indent contents | dedent contents | align columns contents | lineSuffix contents
  | note label contents => exact signs_marked contents
  | _ => rfl
theorem signsOf_markedAll (docs : List (Doc ν)) : signsOf (markedAll docs) = signsOf docs := by
  cases docs with
  | nil => rfl
  | cons doc docs => simp only [markedAll, signsOf, signs_marked doc, signsOf_markedAll docs]
end

mutual
theorem suffixFree_marked (doc : Doc ν) : doc.marked.suffixFree = doc.suffixFree := by
  cases doc with
  | concat parts => exact suffixFreeAll_markedAll parts
  | group contents broken | indent contents | dedent contents | align columns contents | note label contents =>
    exact suffixFree_marked contents
  | _ => rfl
theorem suffixFreeAll_markedAll (docs : List (Doc ν)) : suffixFreeAll (markedAll docs) = suffixFreeAll docs := by
  cases docs with
  | nil => rfl
  | cons doc docs => simp only [markedAll, suffixFreeAll, suffixFree_marked doc, suffixFreeAll_markedAll docs]
end

mutual
theorem texts_eq (doc : Doc ν) : doc.texts = doc.signs.filterMap Sign.text? := by
  cases doc with
  | concat parts => exact textsOf_eq parts
  | group contents broken | indent contents | dedent contents | align columns contents | lineSuffix contents
  | note label contents => exact texts_eq contents
  | _ => rfl
theorem textsOf_eq (docs : List (Doc ν)) : textsOf docs = (signsOf docs).filterMap Sign.text? := by
  cases docs with
  | nil => rfl
  | cons doc docs => rw [textsOf, signsOf, List.filterMap_append, texts_eq doc, textsOf_eq docs]
end

theorem texts_marked (doc : Doc ν) : doc.marked.texts = doc.texts := by
  rw [texts_eq, signs_marked, texts_eq]

theorem signsOf_append (first rest : List (Doc ν)) : signsOf (first ++ rest) = signsOf first ++ signsOf rest := by
  induction first with
  | nil => rfl
  | cons doc first ih => rw [List.cons_append, signsOf, signsOf, ih, List.append_assoc]

theorem suffixFreeAll_iff (docs : List (Doc ν)) : suffixFreeAll docs ↔ ∀ doc ∈ docs, doc.suffixFree := by
  induction docs with
  | nil => simp [suffixFreeAll]
  | cons doc docs ih => simp [suffixFreeAll, ih]

def jobSigns (jobs : List (Job ν)) : List Sign := signsOf (jobs.map Job.doc)

theorem Plot.settle_of_none_waits (canvas : Canvas) (jobs : List (Job ν)) :
    settle ⟨canvas, jobs, []⟩ = ⟨canvas, jobs, []⟩ := by
  cases jobs <;> rfl

/-- A move draws a sign, or leaves the signs of its job to those in its place. -/
structure Move.Draws (job : Job ν) (rest : List (Job ν)) (move : Move ν) : Prop where
  none_waits : move.plot.suffixes = []
  free : (∀ job ∈ rest, job.doc.suffixFree) → ∀ job ∈ move.plot.jobs, job.doc.suffixFree
  signs : ∃ drawn, List.Forall₂ Sign.Drawn drawn move.stroke.toList ∧
    job.doc.signs ++ jobSigns rest = drawn ++ jobSigns move.plot.jobs

section
variable {job : Job ν} {rest : List (Job ν)} {canvas : Canvas}

theorem Move.Draws.stroke {sign : Sign} {stroke : Stroke ν} (held : job.doc.signs = [sign])
    (drawn : sign.Drawn stroke) : Draws job rest ⟨some stroke, ⟨canvas, rest, []⟩⟩ :=
  ⟨rfl, id, [sign], .cons drawn .nil, by rw [held]⟩

theorem Move.Draws.replace (inner : List (Job ν)) (free : ∀ job ∈ inner, job.doc.suffixFree)
    (same : jobSigns inner = job.doc.signs) : Draws job rest ⟨none, ⟨canvas, inner ++ rest, []⟩⟩ := by
  refine ⟨rfl, fun later job member => ?_, [], .nil, ?_⟩
  · exact (List.mem_append.mp member).elim (free job) (later job)
  · simp only [jobSigns] at same
    simp only [jobSigns, List.map_append, signsOf_append, same, List.nil_append]

theorem Move.Draws.enter (inner : Job ν) (free : inner.doc.suffixFree) (same : inner.doc.signs = job.doc.signs) :
    Draws job rest ⟨none, ⟨canvas, inner :: rest, []⟩⟩ :=
  replace [inner] (by simpa using free) (by simpa [jobSigns, signsOf] using same)

theorem Job.draws_endLine (settings : FormatSettings) {sign : Sign} (held : job.doc.signs = [sign])
    (drawn : ∀ indentation, sign.Drawn (.feed indentation : Stroke ν)) :
    Move.Draws job rest (job.endLine settings canvas rest []) := by
  simp only [endLine, List.isEmpty_nil, ↓reduceIte, Plot.settle_of_none_waits]
  exact .stroke held (drawn _)

theorem Job.draws_move (settings : FormatSettings) (free : job.doc.suffixFree) :
    Move.Draws job rest (job.move settings canvas rest []) := by
  obtain ⟨indentation, mode, doc, label⟩ := job
  cases doc with
  | line | softLine =>
    cases mode with
    | flat => exact .stroke rfl (.flat _)
    | broken => exact draws_endLine settings rfl (.feed _)
  | lineEnd => exact draws_endLine settings rfl .lineEnd
  | text value =>
    simp only [move, Plot.settle_of_none_waits]
    exact .stroke rfl (.text value label)
  | trim =>
    simp only [move, Plot.settle_of_none_waits]
    exact .stroke rfl .trim
  | concat parts =>
    simp only [move, Plot.settle_of_none_waits]
    exact .replace _ (by simpa [suffixFree, suffixFreeAll_iff] using free) (by simp [jobSigns, signs, Function.comp_def])
  | group contents broken | indent contents | dedent contents | align columns contents =>
    simp only [move, Plot.settle_of_none_waits]
    exact .enter _ free rfl
  | breakParent =>
    simp only [move, Plot.settle_of_none_waits]
    exact .replace [] (by simp) rfl
  | lineSuffix contents => cases free
  | note inner contents => exact .enter _ free rfl

end

theorem drawn_trace (settings : FormatSettings) (canvas : Canvas) (jobs suffixes : List (Job ν))
    (free : ∀ job ∈ jobs, job.doc.suffixFree) (none_waits : suffixes = []) :
    List.Forall₂ Sign.Drawn (jobSigns jobs) (trace settings canvas jobs suffixes).strokes := by
  fun_induction trace settings canvas jobs suffixes with
  | case1 canvas suffixes => exact .nil
  | case2 canvas suffixes job rest next later ih =>
    subst none_waits
    have draws : Move.Draws job rest next := job.draws_move settings (free job List.mem_cons_self)
    obtain ⟨drawn, here, whole⟩ := draws.signs
    have onward := ih (draws.free fun other member => free other (List.mem_cons_of_mem _ member)) draws.none_waits
    have held : jobSigns (job :: rest) = drawn ++ jobSigns next.plot.jobs := whole
    rw [held]
    exact List.rel_append here onward

/-- If nothing is held back, a layout makes one stroke of each sign. -/
theorem strokes_of_signs (settings : FormatSettings) (doc : Doc ν) (free : doc.suffixFree) :
    List.Forall₂ Sign.Drawn doc.signs (doc.strokes settings) := by
  have drawn := drawn_trace settings {} [⟨[], .broken, doc.marked, (none : Option ν)⟩] []
    (by simpa [suffixFree_marked] using free) rfl
  simpa [strokes, layout, jobSigns, signsOf, signs_marked] using drawn

theorem texts_of_drawn {signs : List Sign} {strokes : List (Stroke ν)} (drawn : List.Forall₂ Sign.Drawn signs strokes) :
    strokes.filterMap Stroke.text? = signs.filterMap Sign.text? := by
  induction drawn with
  | nil => rfl
  | cons here _ ih =>
    cases here with
    | text value label => exact congrArg (value :: ·) ih
    | _ => exact ih

/-- The text of a document without suffixes spells the document's texts, and under other settings the
    same characters stand there but for white space. -/
theorem render_spells (doc : Doc ν) (free : doc.suffixFree) (settings : FormatSettings) :
    Spells doc.texts (render settings doc).toList ∧
      ∀ other : FormatSettings, inked (render settings doc) = inked (render other doc) := by
  have spells : ∀ settings : FormatSettings, Spells doc.texts (render settings doc).toList := by
    intro settings
    have spelled := spells_spell settings (doc.strokes settings)
    rwa [texts_of_drawn (strokes_of_signs settings doc free), ← texts_eq, ← render_eq_spell] at spelled
  refine ⟨spells settings, fun other => ?_⟩
  exact (spells settings).filter_eq.trans (spells other).filter_eq.symm

/-- Two texts that end in gaps before a line end, and one after gaps that are taken away again. -/
theorem render_spells_gaps :
    (Doc.indent (.concat ["a ", "\t", hardLine, .trim, "b"]) : Doc).suffixFree ∧
      Spells ["a ", "\t", "b"] (render {} (Doc.indent (.concat ["a ", "\t", hardLine, .trim, "b"]) : Doc)).toList ∧
        ∀ other : FormatSettings,
          inked (render {} (Doc.indent (.concat ["a ", "\t", hardLine, .trim, "b"]) : Doc)) =
            inked (render other (Doc.indent (.concat ["a ", "\t", hardLine, .trim, "b"]) : Doc)) :=
  ⟨rfl, render_spells (Doc.indent (.concat ["a ", "\t", hardLine, .trim, "b"]) : Doc) rfl {}⟩

end ApexLayout.Doc
