import ApexLayout.Proofs.Render.Strokes

/-!
What may be written behind what on one line. Behind what has a label that gives an alarm, only what is admitted may be
written before the line ends. Every layout of a document that heeds this (`Watch`) is safe (`safe_strokes`).
-/
namespace ApexLayout.Doc

variable {ν : Type}

/-- Which labels give an alarm, and what may be written behind one. -/
structure Guard (ν : Type) where
  alarm : ν → Bool
  admits : Option ν → String → Prop

def Guard.sounds (guard : Guard ν) (label : Option ν) : Bool := label.any guard.alarm

/-- What is known of the line that is being written. -/
inductive Watch where
  /-- No alarm was given, and nothing is held back. -/
  | fresh
  /-- No alarm was given, and all that is held back may be written behind one. -/
  | calm
  /-- No alarm was given. What is held back may be written behind an alarm, but for the first of it. -/
  | pending
  /-- An alarm may have been given, and all that is held back may be written behind it. -/
  | alarmed
  deriving DecidableEq

namespace Watch

variable {s t : Watch}

/-- What is known the second time may be known the first time as well. -/
protected def le (s t : Watch) : Bool := s = t || s = .fresh || s = .calm && t != .fresh

instance : LE Watch := ⟨fun s t => s.le t⟩

instance (s t : Watch) : Decidable (s ≤ t) := inferInstanceAs (Decidable (s.le t = true))

@[simp] theorem le_rfl (s : Watch) : s ≤ s := by cases s <;> decide

@[simp] theorem fresh_le (s : Watch) : .fresh ≤ s := by cases s <;> decide

theorem le_trans {r : Watch} (first : r ≤ s) (second : s ≤ t) : r ≤ t := by
  revert first second
  cases r <;> cases s <;> cases t <;> decide

theorem eq_fresh_of_le (below : s ≤ .fresh) : s = .fresh := by
  revert below
  cases s <;> decide

theorem eq_alarmed_of_le (below : .alarmed ≤ t) : t = .alarmed := by
  revert below
  cases t <;> decide

theorem eq_pending_of_le (below : .pending ≤ t) : t = .pending := by
  revert below
  cases t <;> decide

theorem ne_pending_of_le (below : s ≤ t) (settled : t ≠ .pending) : s ≠ .pending := by
  rintro rfl
  exact settled (eq_pending_of_le below)

theorem le_alarmed (settled : s ≠ .pending) : s ≤ .alarmed := by
  revert settled
  cases s <;> decide

def hold : Watch → Watch
  | .fresh => .calm
  | s => s

theorem hold_mono (below : s ≤ t) : s.hold ≤ t.hold := by
  revert below
  cases s <;> cases t <;> decide

def release : Watch → Watch
  | .alarmed => .alarmed
  | _ => .fresh

end Watch

mutual
/-- A document heeds the guard where it begins, and what is known of the line where it ends has the
    property. Where it is not known whether lines are flat they may be. -/
def heeds (guard : Guard ν) (mode : Mode) (label : Option ν) (s : Watch) (k : Watch → Prop) : Doc ν → Prop
  | .text value =>
    (s = .alarmed → guard.admits label value) ∧ (guard.sounds label → s ≠ .pending) ∧
      k (if guard.sounds label then .alarmed else s)
  | .concat parts => heedsAll guard mode label s k parts
  | .group contents _ => contents.heeds guard .flat label s k
  | .indent contents => contents.heeds guard mode label s k
  | .dedent contents => contents.heeds guard mode label s k
  | .align _ contents => contents.heeds guard mode label s k
  | .line | .softLine => k (if mode = .flat then s else .fresh)
  | .lineEnd => k .fresh
  | .lineSuffix contents =>
    s = .fresh ∧ contents.heeds guard mode label .fresh (· ≠ .pending) ∧ k .pending ∨
      contents.heeds guard mode label .alarmed (· ≠ .pending) ∧ k s.hold
  | .breakParent | .trim => k s
  | .note inner contents => contents.heeds guard mode (some inner) s k
def heedsAll (guard : Guard ν) (mode : Mode) (label : Option ν) (s : Watch) (k : Watch → Prop) : List (Doc ν) → Prop
  | [] => k s
  | doc :: docs => doc.heeds guard mode label s fun t => heedsAll guard mode label t k docs
end

section
variable {guard : Guard ν}

mutual
/-- Less may be known, and less asked for, if lines are as flat as before. -/
theorem heeds_mono {label : Option ν} {outer inner : Mode} {s t : Watch} {k j : Watch → Prop} (below : s ≤ t)
    (flat : inner = .flat → outer = .flat) (weaker : ∀ s t, s ≤ t → k t → j s) (doc : Doc ν)
    (heeds : doc.heeds guard outer label t k) : doc.heeds guard inner label s j := by
  have line : k (if outer = .flat then t else .fresh) → j (if inner = .flat then s else .fresh) := by
    intro next
    by_cases still : inner = .flat
    · rw [if_pos (flat still)] at next
      rw [if_pos still]
      exact weaker _ _ below next
    · rw [if_neg still]
      exact weaker _ _ (Watch.fresh_le _) next
  cases doc with
  | text value =>
    obtain ⟨admitted, early, next⟩ := heeds
    refine ⟨?_, ?_, ?_⟩
    · rintro rfl
      exact admitted (Watch.eq_alarmed_of_le below)
    · rintro sounds rfl
      exact early sounds (Watch.eq_pending_of_le below)
    · by_cases sounds : guard.sounds label
      · rw [if_pos sounds] at next ⊢
        exact weaker _ _ (Watch.le_rfl _) next
      · rw [if_neg sounds] at next ⊢
        exact weaker _ _ below next
  | concat parts => exact heedsAll_mono below flat weaker parts heeds
  | group contents broken =>
    rw [Doc.heeds] at heeds ⊢
    exact heeds_mono below (fun _ => rfl) weaker contents heeds
  | indent contents | dedent contents | align columns contents => exact heeds_mono below flat weaker contents heeds
  | note label contents =>
    rw [Doc.heeds] at heeds ⊢
    exact heeds_mono below flat weaker contents heeds
  | line | softLine => exact line heeds
  | lineEnd => exact weaker _ _ (Watch.le_rfl _) heeds
  | breakParent | trim => exact weaker _ _ below heeds
  | lineSuffix contents =>
    have settled : ∀ s t : Watch, s ≤ t → t ≠ .pending → s ≠ .pending := fun _ _ => Watch.ne_pending_of_le
    rcases heeds with ⟨rfl, first, next⟩ | ⟨behind, next⟩
    · exact .inl ⟨Watch.eq_fresh_of_le below, heeds_mono (Watch.le_rfl _) flat settled contents first,
        weaker _ _ (Watch.le_rfl _) next⟩
    · exact .inr ⟨heeds_mono (Watch.le_rfl _) flat settled contents behind, weaker _ _ (Watch.hold_mono below) next⟩
theorem heedsAll_mono {label : Option ν} {outer inner : Mode} {s t : Watch} {k j : Watch → Prop} (below : s ≤ t)
    (flat : inner = .flat → outer = .flat) (weaker : ∀ s t, s ≤ t → k t → j s) (docs : List (Doc ν))
    (heeds : heedsAll guard outer label t k docs) : heedsAll guard inner label s j docs := by
  cases docs with
  | nil => exact weaker _ _ below heeds
  | cons doc docs =>
    exact heeds_mono below flat (fun s t below later => heedsAll_mono below flat weaker docs later) doc heeds
end

mutual
theorem heeds_marked {mode : Mode} {label : Option ν} {s : Watch} {k : Watch → Prop} (doc : Doc ν) :
    doc.marked.heeds guard mode label s k ↔ doc.heeds guard mode label s k := by
  cases doc with
  | concat parts => exact heedsAll_markedAll parts
  | group contents broken | indent contents | dedent contents | align columns contents | note label contents =>
    exact heeds_marked contents
  | lineSuffix contents => simp only [marked, heeds, heeds_marked contents]
  | _ => rfl
theorem heedsAll_markedAll {mode : Mode} {label : Option ν} {s : Watch} {k : Watch → Prop} (docs : List (Doc ν)) :
    heedsAll guard mode label s k (markedAll docs) ↔ heedsAll guard mode label s k docs := by
  cases docs with
  | nil => rfl
  | cons doc docs => simp only [markedAll, heedsAll, heeds_marked doc, heedsAll_markedAll docs]
end

end

/-! ### Safe strokes -/

def Stroke.rings (guard : Guard ν) (alarmed : Bool) : Stroke ν → Bool
  | .text _ label => alarmed || guard.sounds label
  | .feed _ => false
  | _ => alarmed

def Stroke.Allowed (guard : Guard ν) (alarmed : Bool) : Stroke ν → Prop
  | .text value label => alarmed → guard.admits label value
  | _ => True

def Safe (guard : Guard ν) : Bool → List (Stroke ν) → Prop
  | _, [] => True
  | alarmed, stroke :: strokes => stroke.Allowed guard alarmed ∧ Safe guard (stroke.rings guard alarmed) strokes

def Stroke.isFeed : Stroke ν → Bool
  | .feed _ => true
  | _ => false

/-! ### Jobs under guard -/

namespace Job

def heeds (guard : Guard ν) (job : Job ν) (s : Watch) (k : Watch → Prop) : Prop :=
  job.doc.heeds guard job.mode job.label s k

def follows (guard : Guard ν) (job : Job ν) : Prop := job.heeds guard .alarmed (· ≠ .pending)

end Job

def chain (guard : Guard ν) : Watch → List (Job ν) → Prop
  | _, [] => True
  | s, job :: rest => job.heeds guard s fun t => chain guard t rest

def Waits (guard : Guard ν) : Watch → List (Job ν) → Prop
  | .fresh, suffixes => suffixes = []
  | .pending, suffixes =>
    (∀ job ∈ suffixes.head?, job.heeds guard .fresh (· ≠ .pending)) ∧ ∀ job ∈ suffixes.tail, job.follows guard
  | _, suffixes => ∀ job ∈ suffixes, job.follows guard

def Guarded (guard : Guard ν) (alarmed : Bool) (plot : Plot ν) : Prop :=
  ∃ s, (alarmed → s = .alarmed) ∧ Waits guard s plot.suffixes ∧ chain guard s plot.jobs

section
variable {guard : Guard ν} {s t : Watch} {job : Job ν} {jobs rest suffixes : List (Job ν)}

theorem chain_mono (below : s ≤ t) (later : chain guard t jobs) : chain guard s jobs := by
  induction jobs generalizing s t with
  | nil => trivial
  | cons job jobs ih => exact heeds_mono below id (fun s t below later => ih below later) job.doc later

theorem heeds_fresh (follows : job.follows guard) : job.heeds guard .fresh (· ≠ .pending) :=
  heeds_mono (Watch.fresh_le _) id (fun _ _ below settled => Watch.ne_pending_of_le below settled) job.doc follows

theorem chain_parts (parts : List (Doc ν)) :
    chain guard s (parts.map ({ job with doc := · }) ++ rest) ↔
      heedsAll guard job.mode job.label s (fun t => chain guard t rest) parts := by
  induction parts generalizing s with
  | nil => rfl
  | cons part parts ih => simp only [List.map_cons, List.cons_append, chain, Job.heeds, heedsAll, ih]

theorem chain_follows (follow : ∀ job ∈ suffixes, job.follows guard) (later : ∀ t ≠ .pending, chain guard t rest)
    (settled : s ≠ .pending) : chain guard s (suffixes ++ rest) := by
  induction suffixes generalizing s with
  | nil => exact later s settled
  | cons job suffixes ih =>
    refine heeds_mono (Watch.le_alarmed settled) id ?_ job.doc (follow job List.mem_cons_self)
    intro s t below settled
    exact ih (fun job member => follow job (List.mem_cons_of_mem _ member)) (Watch.ne_pending_of_le below settled)

/-- What is held back may be written at the end of the line. -/
theorem chain_release (waits : Waits guard s suffixes) (later : ∀ t ≠ .pending, chain guard t rest) :
    chain guard s.release (suffixes ++ rest) := by
  cases s with
  | fresh =>
    obtain rfl : suffixes = [] := waits
    exact later _ (by decide)
  | calm | alarmed => exact chain_follows waits later (by decide)
  | pending =>
    obtain ⟨first, more⟩ := waits
    cases suffixes with
    | nil => exact later _ (by decide)
    | cons job suffixes =>
      refine heeds_mono (Watch.le_rfl _) id ?_ job.doc (first job rfl)
      intro s t below settled
      exact chain_follows more later (Watch.ne_pending_of_le below settled)

theorem waits_release (s : Watch) : Waits guard s.release [] := by
  cases s <;> simp [Watch.release, Waits]

theorem Waits.hold (waits : Waits guard s suffixes) (follows : job.follows guard) :
    Waits guard s.hold (suffixes ++ [job]) := by
  have all (before : ∀ job ∈ suffixes, job.follows guard) : ∀ other ∈ suffixes ++ [job], other.follows guard := by
    intro other member
    rcases List.mem_append.mp member with early | here
    · exact before other early
    · rw [List.mem_singleton.mp here]
      exact follows
  cases s with
  | fresh =>
    obtain rfl : suffixes = [] := waits
    exact all nofun
  | calm | alarmed => exact all waits
  | pending =>
    obtain ⟨first, more⟩ := waits
    cases suffixes with
    | nil => exact ⟨by simpa using heeds_fresh follows, nofun⟩
    | cons before suffixes =>
      refine ⟨first, ?_⟩
      intro other member
      rcases List.mem_append.mp member with early | here
      · exact more other early
      · rw [List.mem_singleton.mp here]
        exact follows

theorem Waits.alarm (waits : Waits guard s suffixes) (settled : s ≠ .pending) : Waits guard .alarmed suffixes := by
  cases s with
  | fresh =>
    obtain rfl : suffixes = [] := waits
    exact nofun
  | calm | alarmed => exact waits
  | pending => exact absurd rfl settled

theorem Job.allowed_endLine (settings : FormatSettings) (canvas : Canvas) (alarmed : Bool) (job : Job ν)
    (rest suffixes : List (Job ν)) :
    ∀ stroke ∈ (job.endLine settings canvas rest suffixes).stroke, stroke.Allowed guard alarmed := by
  unfold endLine
  split
  · rintro stroke ⟨⟩
    trivial
  · nofun

namespace Guarded

variable {alarmed : Bool} {canvas : Canvas}

theorem settle {plot : Plot ν} (guarded : Guarded guard alarmed plot) : Guarded guard alarmed plot.settle := by
  obtain ⟨canvas, jobs, suffixes⟩ := plot
  cases jobs with
  | cons job jobs => exact guarded
  | nil =>
    obtain ⟨s, row, waits, -⟩ := guarded
    have written : chain guard s.release (suffixes ++ []) := chain_release waits fun _ _ => trivial
    rw [List.append_nil] at written
    refine ⟨s.release, fun still => ?_, waits_release s, written⟩
    rw [row still]
    rfl

/-- Where a line ends what is held back is written, and then no alarm stands. -/
theorem endLine (settings : FormatSettings) (row : alarmed → s = .alarmed) (waits : Waits guard s suffixes)
    (ends : ∀ t, job.heeds guard t fun t => chain guard t rest) (later : chain guard .fresh rest) :
    let next := job.endLine settings canvas rest suffixes
    Guarded guard (next.stroke.toList.foldl (Stroke.rings guard) alarmed) next.plot := by
  unfold Job.endLine
  split
  · exact settle ⟨.fresh, nofun, rfl, later⟩
  · refine ⟨s.release, fun still => ?_, waits_release s, chain_release waits fun t _ => ends t⟩
    rw [row still]
    rfl

theorem quiet {plot : Plot ν} (guarded : Guarded guard alarmed plot) :
    (∀ stroke ∈ (none : Option (Stroke ν)), stroke.Allowed guard alarmed) ∧ Guarded guard alarmed plot :=
  ⟨by simp, guarded⟩

/-- A stroke that is written is allowed, and what is left heeds the guard. -/
theorem move (settings : FormatSettings) (guarded : Guarded guard alarmed ⟨canvas, job :: rest, suffixes⟩) :
    let next := job.move settings canvas rest suffixes
    (∀ stroke ∈ next.stroke, stroke.Allowed guard alarmed) ∧
      Guarded guard (next.stroke.toList.foldl (Stroke.rings guard) alarmed) next.plot := by
  obtain ⟨s, row, waits, heeds⟩ := guarded
  obtain ⟨indentation, mode, doc, label⟩ := job
  cases doc with
  | text value =>
    obtain ⟨admitted, early, later⟩ := heeds
    refine ⟨?_, settle ⟨_, ?_, ?_, later⟩⟩
    · rintro stroke ⟨⟩ still
      exact admitted (row still)
    · intro still
      by_cases sounds : guard.sounds label
      · rw [if_pos sounds]
      · rw [if_neg sounds]
        exact row (by simpa [Job.move, Stroke.rings, sounds] using still)
    · by_cases sounds : guard.sounds label
      · rw [if_pos sounds]
        exact waits.alarm (early sounds)
      · rw [if_neg sounds]
        exact waits
  | concat parts => exact quiet (settle ⟨s, row, waits, (chain_parts parts).mpr heeds⟩)
  | group contents broken =>
    refine quiet (settle ⟨s, row, waits, ?_⟩)
    exact heeds_mono (Watch.le_rfl _) (fun _ => rfl) (fun _ _ => chain_mono) contents heeds
  | indent contents | dedent contents | align columns contents | breakParent =>
    exact quiet (settle ⟨s, row, waits, heeds⟩)
  | line | softLine =>
    cases mode with
    | flat => exact ⟨by rintro stroke ⟨⟩; trivial, s, row, waits, heeds⟩
    | broken => exact ⟨Job.allowed_endLine _ _ _ _ _ _, endLine settings row waits (fun _ => heeds) heeds⟩
  | lineEnd => exact ⟨Job.allowed_endLine _ _ _ _ _ _, endLine settings row waits (fun _ => heeds) heeds⟩
  | lineSuffix contents =>
    rcases heeds with ⟨rfl, first, later⟩ | ⟨behind, later⟩
    · obtain rfl : suffixes = [] := waits
      refine quiet (settle ⟨.pending, ?_, ⟨?_, by simp⟩, later⟩)
      · intro still
        exact absurd (row still) (by decide)
      · rintro job ⟨⟩
        exact first
    · refine quiet (settle ⟨s.hold, ?_, waits.hold behind, later⟩)
      intro still
      rw [row still]
      rfl
  | trim => exact ⟨by rintro stroke ⟨⟩; trivial, settle ⟨s, row, waits, heeds⟩⟩
  | note inner contents => exact quiet ⟨s, row, waits, heeds⟩

theorem trace (settings : FormatSettings) : ∀ alarmed, Guarded guard alarmed ⟨canvas, jobs, suffixes⟩ →
    Safe guard alarmed (Doc.trace settings canvas jobs suffixes).strokes := by
  fun_induction Doc.trace settings canvas jobs suffixes with
  | case1 canvas suffixes => exact fun _ _ => trivial
  | case2 canvas suffixes job rest next later ih =>
    intro alarmed guarded
    obtain ⟨allowed, after⟩ := guarded.move settings
    have safe := ih _ after
    cases written : next.stroke with
    | none =>
      rw [show (job.move settings canvas rest suffixes).stroke = none from written] at safe
      exact safe
    | some stroke =>
      rw [show (job.move settings canvas rest suffixes).stroke = some stroke from written] at safe
      exact ⟨allowed stroke written, safe⟩

end Guarded

end

theorem safe_strokes {guard : Guard ν} (settings : FormatSettings) (doc : Doc ν)
    (heeds : doc.heeds guard .flat none .fresh fun _ => True) : Safe guard false (doc.strokes settings) := by
  refine Guarded.trace settings false ⟨.fresh, nofun, rfl, ?_⟩
  have marked := (heeds_marked doc).mpr heeds
  exact heeds_mono (Watch.le_rfl _) (fun _ => rfl) (fun _ _ _ _ => trivial) doc.marked marked

theorem Safe.admits {guard : Guard ν} {alarmed : Bool} {before after : List (Stroke ν)} {value other : String}
    {label later : Option ν} (safe : Safe guard alarmed (before ++ .text value label :: after))
    (sounds : guard.sounds label) (behind : .text other later ∈ after.takeWhile (!·.isFeed)) :
    guard.admits later other := by
  induction before generalizing alarmed with
  | cons stroke before ih => exact ih safe.2
  | nil =>
    have rung : Safe guard true after := by
      have next := safe.2
      rwa [Stroke.rings, sounds, Bool.or_true] at next
    clear safe
    induction after with
    | nil => cases behind
    | cons stroke after ih =>
      cases stroke with
      | feed indentation => cases behind
      | text first between =>
        rcases List.mem_cons.mp behind with same | further
        · cases same
          exact rung.1 rfl
        · exact ih further rung.2
      | flat soft =>
        rcases List.mem_cons.mp behind with same | further
        · cases same
        · exact ih further rung.2
      | trim =>
        rcases List.mem_cons.mp behind with same | further
        · cases same
        · exact ih further rung.2

end ApexLayout.Doc
