import ApexLayout.Proofs.Render.Texts
import Mathlib.Data.List.Basic

/-!
What becomes of the texts that are held back to the end of a line. One still waits when the layout ends only after a
line that is laid out flat, so a document loses nothing if neither it nor one of its suffixes can end like that
(`render_keeps_ink`).
-/
namespace ApexLayout.Doc

variable {ν : Type}

def jobTexts (jobs : List (Job ν)) : List String := textsOf (jobs.map Job.doc)

/-- The texts that still wait when the layout of a document ends. -/
def lostTexts (settings : FormatSettings) (doc : Doc ν) : List String := jobTexts (doc.layout settings).lost

/-! ### Texts that are written, and texts that wait -/

@[simp] theorem jobTexts_nil : jobTexts ([] : List (Job ν)) = [] := rfl

@[simp] theorem jobTexts_append (first rest : List (Job ν)) :
    jobTexts (first ++ rest) = jobTexts first ++ jobTexts rest := by
  simp [jobTexts, textsOf_append]

@[simp] theorem jobTexts_cons (job : Job ν) (rest : List (Job ν)) :
    jobTexts (job :: rest) = job.doc.texts ++ jobTexts rest := by
  simp [jobTexts, textsOf]

def Plot.texts (plot : Plot ν) : List String := jobTexts plot.jobs ++ jobTexts plot.suffixes

@[simp] theorem Plot.texts_mk (canvas : Canvas) (jobs suffixes : List (Job ν)) :
    (Plot.mk canvas jobs suffixes).texts = jobTexts jobs ++ jobTexts suffixes := rfl

@[simp] theorem Plot.texts_settle (plot : Plot ν) : plot.settle.texts = plot.texts := by
  obtain ⟨canvas, jobs, suffixes⟩ := plot
  cases jobs <;> simp [settle]

def Move.texts (move : Move ν) : List String := (move.stroke.bind Stroke.text?).toList ++ move.plot.texts

variable (settings : FormatSettings) (canvas : Canvas) (job : Job ν) (rest suffixes : List (Job ν))

theorem Job.texts_endLine (none_held : job.doc.texts = []) :
    (job.endLine settings canvas rest suffixes).texts.Perm (jobTexts (job :: rest) ++ jobTexts suffixes) := by
  unfold endLine
  split
  · next nothing =>
    rw [List.isEmpty_iff] at nothing
    simp [Move.texts, Stroke.text?, nothing, none_held]
  · simpa [Move.texts, none_held] using List.perm_append_comm

/-- A move writes a text, or leaves the texts of its job to be written. -/
theorem Job.texts_move :
    (job.move settings canvas rest suffixes).texts.Perm (jobTexts (job :: rest) ++ jobTexts suffixes) := by
  obtain ⟨indentation, mode, doc, label⟩ := job
  cases doc with
  | concat parts =>
    have held : jobTexts (parts.map fun doc => ⟨indentation, mode, doc, label⟩) = textsOf parts := by
      simp [jobTexts, Function.comp_def]
    simp [move, Move.texts, held, Doc.texts]
  | line | softLine =>
    cases mode with
    | flat => simp [move, Move.texts, Stroke.text?, Doc.texts]
    | broken => exact texts_endLine _ _ _ _ _ rfl
  | lineEnd => exact texts_endLine _ _ _ _ _ rfl
  | lineSuffix contents =>
    -- The contents go behind all that is held back already.
    have behind : (jobTexts suffixes ++ contents.texts).Perm (contents.texts ++ jobTexts suffixes) :=
      List.perm_append_comm
    simpa [move, Move.texts, Doc.texts] using
      (behind.append_left (jobTexts rest)).trans (List.perm_append_comm_assoc ..)
  | _ => simp [move, Move.texts, Stroke.text?, Doc.texts]

/-- A layout writes every text once, but for those that still wait when it ends. -/
theorem texts_trace (jobs : List (Job ν)) :
    ((trace settings canvas jobs suffixes).strokes.filterMap Stroke.text? ++
      jobTexts (trace settings canvas jobs suffixes).lost).Perm (jobTexts jobs ++ jobTexts suffixes) := by
  fun_induction trace settings canvas jobs suffixes with
  | case1 canvas suffixes => simp
  | case2 canvas suffixes job rest next later ih =>
    have here : next.stroke.toList.filterMap Stroke.text? = (next.stroke.bind Stroke.text?).toList := by
      cases next.stroke <;> rfl
    rw [List.filterMap_append, here, List.append_assoc]
    exact (ih.append_left _).trans (job.texts_move settings canvas rest suffixes)

/-! ### Layouts that end with a flat line -/

theorem Plot.settle_jobs_eq_nil {plot : Plot ν} (done : plot.settle.jobs = []) : plot.settle.suffixes = [] := by
  obtain ⟨canvas, jobs, suffixes⟩ := plot
  cases jobs with
  | nil => rfl
  | cons job jobs => cases done

theorem Job.suffixes_endLine : (job.endLine settings canvas rest suffixes).plot.suffixes = [] := by
  unfold endLine
  split
  · cases rest <;> rfl
  · rfl

theorem Job.stroke_endLine_ne (soft : Bool) :
    (job.endLine settings canvas rest suffixes).stroke ≠ some (.flat soft) := by
  unfold endLine
  split <;> nofun

/-- Where nothing is left to be written, nothing waits, unless the last stroke is that of a flat line. -/
theorem Job.suffixes_move (done : (job.move settings canvas rest suffixes).plot.jobs = []) :
    (job.move settings canvas rest suffixes).plot.suffixes = [] ∨
      ∃ soft, (job.move settings canvas rest suffixes).stroke = some (.flat soft) := by
  obtain ⟨indentation, mode, doc, label⟩ := job
  cases doc with
  | line =>
    cases mode with
    | flat => exact .inr ⟨false, rfl⟩
    | broken => exact .inl (suffixes_endLine ..)
  | softLine =>
    cases mode with
    | flat => exact .inr ⟨true, rfl⟩
    | broken => exact .inl (suffixes_endLine ..)
  | lineEnd => exact .inl (suffixes_endLine ..)
  | note inner contents => cases done
  | _ => exact .inl (Plot.settle_jobs_eq_nil done)

theorem getLast?_trace (jobs : List (Job ν)) (waits : jobs = [] → suffixes = [])
    (lost : (trace settings canvas jobs suffixes).lost ≠ []) :
    ∃ soft, (trace settings canvas jobs suffixes).strokes.getLast? = some (.flat soft) := by
  fun_induction trace settings canvas jobs suffixes with
  | case1 canvas suffixes => exact absurd (waits rfl) lost
  | case2 canvas suffixes job rest next later ih =>
    by_cases done : next.plot.jobs = []
    · rcases job.suffixes_move settings canvas rest suffixes done with nothing | ⟨soft, flat⟩
      · obtain ⟨soft, last⟩ := ih (fun _ => nothing) lost
        exact ⟨soft, by rw [List.getLast?_append, last, Option.some_or]⟩
      · refine ⟨soft, ?_⟩
        have no_more : later.strokes = [] := by
          simp only [later]
          rw [done, trace]
        rw [no_more, List.append_nil]
        exact congrArg (·.toList.getLast?) flat
    · obtain ⟨soft, last⟩ := ih (fun nothing => absurd nothing done) lost
      exact ⟨soft, by rw [List.getLast?_append, last, Option.some_or]⟩

/-! ### Documents that cannot end with a flat line -/

mutual
/-- The document may end with a flat line, if lines may be flat where it stands. -/
def endsFlat (flat : Bool) : Doc ν → Bool
  | .line | .softLine => flat
  | .concat parts => endsFlatAll flat parts
  | .group contents broken => contents.endsFlat !broken
  | .indent contents => contents.endsFlat flat
  | .dedent contents => contents.endsFlat flat
  | .align _ contents => contents.endsFlat flat
  | .note _ contents => contents.endsFlat flat
  | _ => false
def endsFlatAll (flat : Bool) : List (Doc ν) → Bool
  | [] => false
  | [doc] => doc.endsFlat flat
  | _ :: docs => endsFlatAll flat docs
end

mutual
/-- No suffix in the document can end with a flat line. -/
def firmInside (flat : Bool) : Doc ν → Bool
  | .concat parts => firmInsideAll flat parts
  | .group contents broken => contents.firmInside !broken
  | .indent contents => contents.firmInside flat
  | .dedent contents => contents.firmInside flat
  | .align _ contents => contents.firmInside flat
  | .lineSuffix contents => !contents.endsFlat flat && contents.firmInside flat
  | .note _ contents => contents.firmInside flat
  | _ => true
def firmInsideAll (flat : Bool) : List (Doc ν) → Bool
  | [] => true
  | doc :: docs => doc.firmInside flat && firmInsideAll flat docs
end

/-- Neither the document nor a suffix in it can end with a flat line. Groups that hold a forced break
    are never flat, and outside of all groups no line is. -/
def isFirm (doc : Doc ν) : Bool := !doc.marked.endsFlat false && doc.marked.firmInside false

theorem endsFlatAll_eq (flat : Bool) (docs : List (Doc ν)) :
    endsFlatAll flat docs = (docs.getLast?.map (endsFlat flat)).getD false := by
  induction docs with
  | nil => rfl
  | cons doc docs ih =>
    cases docs with
    | nil => rfl
    | cons next docs =>
      rw [List.getLast?_cons_cons, ← ih]
      rfl

theorem firmInsideAll_eq (flat : Bool) (docs : List (Doc ν)) :
    firmInsideAll flat docs = docs.all (firmInside flat) := by
  induction docs with
  | nil => rfl
  | cons doc docs ih => simp [firmInsideAll, ih]

mutual
/-- What cannot end with a flat line where lines may be flat cannot do so elsewhere. -/
theorem endsFlat_anti (doc : Doc ν) (firm : doc.endsFlat true = false) : doc.endsFlat false = false := by
  cases doc with
  | concat parts =>
    rw [endsFlat] at *
    exact endsFlatAll_anti parts firm
  | indent contents | dedent contents | align columns contents | note label contents =>
    exact endsFlat_anti contents firm
  | group contents broken => exact firm
  | _ => rfl
theorem endsFlatAll_anti (docs : List (Doc ν)) (firm : endsFlatAll true docs = false) :
    endsFlatAll false docs = false := by
  match docs with
  | [] => rfl
  | [doc] => exact endsFlat_anti doc firm
  | _ :: doc :: docs => exact endsFlatAll_anti (doc :: docs) firm
end

mutual
theorem firmInside_mono (doc : Doc ν) (firm : doc.firmInside true) : doc.firmInside false := by
  cases doc with
  | concat parts => exact firmInsideAll_mono parts firm
  | indent contents | dedent contents | align columns contents | note label contents =>
    exact firmInside_mono contents firm
  | group contents broken => exact firm
  | lineSuffix contents =>
    simp only [firmInside, Bool.and_eq_true, Bool.not_eq_eq_eq_not, Bool.not_true] at firm ⊢
    exact ⟨endsFlat_anti contents firm.1, firmInside_mono contents firm.2⟩
  | _ => rfl
theorem firmInsideAll_mono (docs : List (Doc ν)) (firm : firmInsideAll true docs) : firmInsideAll false docs := by
  cases docs with
  | nil => rfl
  | cons doc docs =>
    simp only [firmInsideAll, Bool.and_eq_true] at firm ⊢
    exact ⟨firmInside_mono doc firm.1, firmInsideAll_mono docs firm.2⟩
end

theorem endsFlat_of_imp (doc : Doc ν) {flat inner : Bool} (less : inner → flat) (firm : doc.endsFlat flat = false) :
    doc.endsFlat inner = false := by
  cases inner with
  | true => rwa [less rfl] at firm
  | false =>
    cases flat with
    | true => exact doc.endsFlat_anti firm
    | false => exact firm

theorem firmInside_of_imp (doc : Doc ν) {flat inner : Bool} (less : inner → flat) (firm : doc.firmInside flat) :
    doc.firmInside inner := by
  cases inner with
  | true => rwa [less rfl] at firm
  | false =>
    cases flat with
    | true => exact doc.firmInside_mono firm
    | false => exact firm

theorem groupMode_flat (mode : Mode) (contents : Doc) (broken : Bool) (tasks : List Task)
    (flat : decide (groupMode settings canvas mode contents broken tasks = .flat)) : !broken := by
  cases broken with
  | false => rfl
  | true => simp [groupMode] at flat

namespace Job

def endsFlat (job : Job ν) : Bool := job.doc.endsFlat (job.mode = .flat)

def firmInside (job : Job ν) : Bool := job.doc.firmInside (job.mode = .flat)

end Job

/-- Neither the last job nor a suffix, whether it waits or is still to come, can end with a flat line. -/
structure Firm (plot : Plot ν) : Prop where
  last : ∀ job ∈ plot.jobs.getLast?, job.endsFlat = false
  waiting : ∀ job ∈ plot.suffixes, job.endsFlat = false
  inside : ∀ job ∈ plot.jobs ++ plot.suffixes, job.firmInside

namespace Firm

theorem settle {plot : Plot ν} (firm : Firm plot) : Firm plot.settle := by
  obtain ⟨canvas, jobs, suffixes⟩ := plot
  cases jobs with
  | nil =>
    refine ⟨fun job last => firm.waiting job (List.mem_of_getLast? last), by simp [Plot.settle], ?_⟩
    simpa [Plot.settle] using firm.inside
  | cons job jobs => exact firm

section
variable {settings canvas job rest suffixes} (firm : Firm (Plot.mk canvas (job :: rest) suffixes))
include firm

theorem replace (jobs : List (Job ν)) {next : Canvas}
    (ends : job.endsFlat = false → ∀ inner ∈ jobs.getLast?, inner.endsFlat = false)
    (inside : job.firmInside → ∀ inner ∈ jobs, inner.firmInside) : Firm (Plot.mk next (jobs ++ rest) suffixes) := by
  refine ⟨?_, firm.waiting, ?_⟩
  · intro inner last
    simp only [List.getLast?_append] at last
    cases rest with
    | nil => exact ends (firm.last job rfl) inner (by simpa using last)
    | cons first rest =>
      refine firm.last inner ?_
      simpa [List.getLast?_cons] using last
  · have first := firm.inside job (by simp)
    intro inner member
    simp only [List.append_assoc, List.mem_append] at member
    rcases member with here | later | waiting
    · exact inside first inner here
    · exact firm.inside inner (by simp [later])
    · exact firm.inside inner (by simp [waiting])

theorem enter {inner : Job ν} {next : Canvas} (ends : job.endsFlat = false → inner.endsFlat = false)
    (inside : job.firmInside → inner.firmInside) : Firm (Plot.mk next (inner :: rest) suffixes) :=
  firm.replace [inner] (by simpa using ends) (by simpa using inside)

theorem endLine (next : Canvas) : Firm (job.endLine settings next rest suffixes).plot := by
  unfold Job.endLine
  split
  · next nothing =>
    rw [List.isEmpty_iff] at nothing
    subst nothing
    exact (firm.replace [] (by simp) (by simp)).settle
  · refine ⟨?_, by simp, ?_⟩
    · intro inner last
      refine firm.last inner ?_
      simpa [List.getLast?_append, List.getLast?_cons] using last
    · intro inner member
      refine firm.inside inner ?_
      simpa [or_comm, or_assoc, or_left_comm] using member

theorem move : Firm (job.move settings canvas rest suffixes).plot := by
  obtain ⟨indentation, mode, doc, label⟩ := job
  cases doc with
  | concat parts =>
    refine (firm.replace _ ?_ ?_).settle
    · intro ends inner last
      simp only [Job.endsFlat, Doc.endsFlat, endsFlatAll_eq] at ends
      obtain ⟨part, held, rfl⟩ : ∃ part, parts.getLast? = some part ∧ ⟨indentation, mode, part, label⟩ = inner := by
        simpa using last
      simpa [held, Job.endsFlat] using ends
    · intro inside inner member
      simp only [Job.firmInside, Doc.firmInside, firmInsideAll_eq, List.all_eq_true] at inside
      obtain ⟨part, held, rfl⟩ := List.mem_map.mp member
      exact inside part held
  | group contents broken =>
    have flat := groupMode_flat settings canvas mode contents.plain broken (rest.map Job.task)
    refine (firm.enter (fun ends => ?_) fun inside => ?_).settle
    · exact contents.endsFlat_of_imp flat ends
    · exact contents.firmInside_of_imp flat inside
  | line | softLine =>
    cases mode with
    | flat => exact firm.replace [] (by simp) (by simp)
    | broken => exact firm.endLine _
  | lineEnd => exact firm.endLine _
  | lineSuffix contents =>
    have without : Firm ⟨canvas, rest, suffixes⟩ := firm.replace [] (by simp) (by simp)
    have held := firm.inside ⟨indentation, mode, .lineSuffix contents, label⟩ (by simp)
    simp only [Job.firmInside, Doc.firmInside, Bool.and_eq_true, Bool.not_eq_eq_eq_not, Bool.not_true] at held
    refine Firm.settle ⟨without.last, ?_, ?_⟩
    · intro inner member
      rcases List.mem_append.mp member with before | here
      · exact firm.waiting inner before
      · rw [List.mem_singleton.mp here]
        exact held.1
    · intro inner member
      rw [← List.append_assoc] at member
      rcases List.mem_append.mp member with before | here
      · exact without.inside inner before
      · rw [List.mem_singleton.mp here]
        exact held.2
  | indent contents | dedent contents | align columns contents =>
    refine (firm.enter ?_ ?_).settle
    · exact id
    · exact id
  | note inner contents => exact firm.enter id id
  | _ => exact (firm.replace [] (by simp) (by simp)).settle

theorem jobs_ne_nil {soft : Bool} (flat : (job.move settings canvas rest suffixes).stroke = some (.flat soft)) :
    (job.move settings canvas rest suffixes).plot.jobs ≠ [] := by
  have ends := firm.last
  obtain ⟨indentation, mode, doc, label⟩ := job
  cases doc with
  | line | softLine =>
    cases mode with
    | flat =>
      cases rest with
      | nil => cases ends _ rfl
      | cons next rest => nofun
    | broken => exact absurd flat (Job.stroke_endLine_ne _ _ _ _ _ soft)
  | lineEnd => exact absurd flat (Job.stroke_endLine_ne _ _ _ _ _ soft)
  | _ => cases flat

end

theorem lost_eq_nil {jobs : List (Job ν)} (firm : Firm (Plot.mk canvas jobs suffixes))
    (waits : jobs = [] → suffixes = []) : (trace settings canvas jobs suffixes).lost = [] := by
  fun_induction trace settings canvas jobs suffixes with
  | case1 canvas suffixes => exact waits rfl
  | case2 canvas suffixes job rest next later ih =>
    refine ih firm.move fun done => ?_
    rcases job.suffixes_move settings canvas rest suffixes done with nothing | ⟨soft, flat⟩
    · exact nothing
    · exact absurd done (firm.jobs_ne_nil flat)

end Firm

/-! ### The ink of a document -/

theorem lostTexts_of_isFirm (doc : Doc ν) (firm : doc.isFirm) : doc.lostTexts settings = [] := by
  simp only [isFirm, Bool.and_eq_true, Bool.not_eq_eq_eq_not, Bool.not_true] at firm
  have start : Firm (Plot.mk {} [⟨[], .broken, doc.marked, (none : Option ν)⟩] []) := by
    constructor
    · simpa [Job.endsFlat] using firm.1
    · simp
    · simpa [Job.firmInside] using firm.2
  rw [lostTexts, layout, start.lost_eq_nil settings _ _ (by simp), jobTexts_nil]

/-- A suffix before a flat line at the end of a document is not written. -/
theorem lostTexts_softLine :
    (fill (.concat ["a", .lineSuffix " // b", .softLine]) : Doc).lostTexts {} = [" // b"] := by
  have room : ({} : FormatSettings).columnsLeft 0 = 80 := by decide
  have letter : "a".length = 1 := by decide
  have flat : groupMode {} {} .broken (.concat ["a", .lineSuffix " // b", .softLine]) false [] = .flat := by
    simp [groupMode, fitsFlat, fits, inMode, room, letter]
  have unbroken : (fill (.concat ["a", .lineSuffix " // b", .softLine]) : Doc).marked =
      fill (.concat ["a", .lineSuffix " // b", .softLine]) := rfl
  rw [lostTexts, layout, unbroken]
  simp [trace, fill, Job.move, Plot.settle, flat, plain, plains, texts]

/-- A layout has the ink of the document but for the texts that still wait when it ends. Texts wait in
    the end only if the last stroke is that of a flat line, and never if the document is firm. -/
theorem render_keeps_ink (settings : FormatSettings) (doc : Doc ν) :
    (inked (render settings doc) ++ (doc.lostTexts settings).flatMap inked).Perm (doc.texts.flatMap inked) ∧
      (doc.lostTexts settings ≠ [] → ∃ soft, (doc.strokes settings).getLast? = some (.flat soft)) ∧
      (doc.isFirm → (inked (render settings doc)).Perm (doc.texts.flatMap inked)) := by
  have whole : (inked (render settings doc) ++ (doc.lostTexts settings).flatMap inked).Perm
      (doc.texts.flatMap inked) := by
    have texts := texts_trace settings {} [] [⟨[], .broken, doc.marked, (none : Option ν)⟩]
    simp only [jobTexts_cons, jobTexts_nil, List.append_nil, texts_marked] at texts
    rw [render_eq_spell, inked, (spells_spell settings _).filter_eq, ← List.flatMap_append]
    exact texts.flatMap_right _
  refine ⟨whole, fun lost => ?_, fun firm => ?_⟩
  · refine getLast?_trace settings {} [] _ (by simp) fun nothing => lost ?_
    rw [lostTexts, layout, nothing, jobTexts_nil]
  · simpa [doc.lostTexts_of_isFirm settings firm] using whole

theorem render_keeps_ink_hardLine :
    let firm : Doc := .concat ["a;", .lineSuffix " // note", hardLine, "b;"]
    let loose : Doc := fill (.concat ["a", .lineSuffix " // b", .softLine])
    firm.isFirm ∧ (inked (render {} firm)).Perm (firm.texts.flatMap inked) ∧
      loose.lostTexts {} ≠ [] ∧ ∃ soft, (loose.strokes {}).getLast? = some (.flat soft) := by
  intro firm loose
  have inside : firm.isFirm := by decide
  have lost : loose.lostTexts {} ≠ [] := by simp [loose, lostTexts_softLine]
  exact ⟨inside, (render_keeps_ink {} firm).2.2 inside, lost, (render_keeps_ink {} loose).2.1 lost⟩

end ApexLayout.Doc
