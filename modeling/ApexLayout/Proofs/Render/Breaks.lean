import ApexLayout.Proofs.Render.Group

/-!
Forced breaks reach every group around them (`broken_spreadBreaks`). Where every line end stands right before a break,
no line ends inside a flat group (`hardLines_break_groups`), since every step keeps to that (`Even.advance`).
-/
namespace ApexLayout.Doc

variable {part : Doc}

/-! ### Parts of a document -/

/-- The documents right inside a document. -/
def inner : Doc → List Doc
  | .concat parts => parts
  | .group contents _ => [contents]
  | .indent contents => [contents]
  | .dedent contents => [contents]
  | .align _ contents => [contents]
  | .lineSuffix contents => [contents]
  | _ => []

/-- The document at a place, given by the way down to it. -/
def part? : List Nat → Doc → Option Doc
  | [], doc => some doc
  | i :: way, doc => (doc.inner[i]?).bind (part? way)

/-- The document holds a break or a broken group, at any depth. -/
def HoldsBreak (doc : Doc) : Prop :=
  ∃ way, doc.part? way = some .breakParent ∨ ∃ contents, doc.part? way = some (.group contents true)

mutual
/-- Every line end stands right before a break, in the same row of documents. -/
def isForcing : Doc → Bool
  | .lineEnd => false
  | .concat parts => areForcing parts
  | .group contents _ => contents.isForcing
  | .indent contents => contents.isForcing
  | .dedent contents => contents.isForcing
  | .align _ contents => contents.isForcing
  | .lineSuffix contents => contents.isForcing
  | _ => true
def areForcing : List Doc → Bool
  | [] => true
  | .lineEnd :: .breakParent :: docs => areForcing docs
  | doc :: docs => doc.isForcing && areForcing docs
end

mutual
/-- The document with no group marked as broken. -/
def unmarked : Doc → Doc
  | .concat parts => .concat (unmarkedAll parts)
  | .group contents _ => .group contents.unmarked false
  | .indent contents => .indent contents.unmarked
  | .dedent contents => .dedent contents.unmarked
  | .align columns contents => .align columns contents.unmarked
  | .lineSuffix contents => .lineSuffix contents.unmarked
  | doc => doc
def unmarkedAll : List Doc → List Doc
  | [] => []
  | doc :: docs => doc.unmarked :: unmarkedAll docs
end

variable {doc : Doc} {way : List Nat}

theorem HoldsBreak.of_inner (member : part ∈ doc.inner) (holds : part.HoldsBreak) : doc.HoldsBreak := by
  obtain ⟨i, inside, rfl⟩ := List.getElem_of_mem member
  obtain ⟨way, found⟩ := holds
  refine ⟨i :: way, ?_⟩
  simpa [part?, inside] using found

theorem holdsBreak_iff :
    doc.HoldsBreak ↔ doc = .breakParent ∨ (∃ contents, doc = .group contents true) ∨ ∃ part ∈ doc.inner, part.HoldsBreak := by
  constructor
  · rintro ⟨way, found⟩
    cases way with
    | nil =>
      simp only [part?, Option.some.injEq] at found
      exact found.imp_right .inl
    | cons i way =>
      cases there : doc.inner[i]? with
      | none => simp [part?, there] at found
      | some part =>
        simp only [part?, there, Option.bind_some] at found
        exact .inr (.inr ⟨part, List.mem_of_getElem? there, way, found⟩)
  · rintro (rfl | ⟨contents, rfl⟩ | ⟨part, member, holds⟩)
    · exact ⟨[], .inl rfl⟩
    · exact ⟨[], .inr ⟨contents, rfl⟩⟩
    · exact .of_inner member holds

/-! ### Spreading breaks -/

theorem spreadBreaksAll_eq (docs : List Doc) :
    spreadBreaksAll docs = (docs.map (·.spreadBreaks.1), docs.any (·.spreadBreaks.2)) := by
  induction docs with
  | nil => rfl
  | cons doc docs ih => simp [spreadBreaksAll, ih]

theorem inner_spreadBreaks (doc : Doc) : doc.spreadBreaks.1.inner = doc.inner.map (·.spreadBreaks.1) := by
  cases doc with
  | concat parts => simp [spreadBreaks, inner, spreadBreaksAll_eq]
  | note label _ => exact label.elim
  | _ => rfl

theorem part?_spreadBreaks (way : List Nat) (doc : Doc) :
    doc.spreadBreaks.1.part? way = (doc.part? way).map (·.spreadBreaks.1) := by
  induction way generalizing doc with
  | nil => rfl
  | cons i way ih =>
    simp only [part?, inner_spreadBreaks, List.getElem?_map]
    cases doc.inner[i]? with
    | none => rfl
    | some part => exact ih part

mutual
theorem found_spreadBreaks (doc : Doc) : doc.spreadBreaks.2 = true ↔ doc.HoldsBreak := by
  rw [holdsBreak_iff]
  cases doc with
  | breakParent => simp [spreadBreaks]
  | concat parts => simpa [spreadBreaks, inner] using found_spreadBreaksAll parts
  | group contents broken | indent contents | dedent contents | align columns contents | lineSuffix contents =>
    simp [spreadBreaks, inner, found_spreadBreaks contents]
  | note label _ => exact label.elim
  | _ => simp [spreadBreaks, inner]
theorem found_spreadBreaksAll (docs : List Doc) :
    (spreadBreaksAll docs).2 = true ↔ ∃ part ∈ docs, part.HoldsBreak := by
  cases docs with
  | nil => simp [spreadBreaksAll]
  | cons doc docs => simp [spreadBreaksAll, found_spreadBreaks doc, found_spreadBreaksAll docs]
end

theorem broken_spreadBreaks {contents : Doc} {broken : Bool} (there : doc.part? way = some (.group contents broken)) :
    ∃ marked, doc.spreadBreaks.1.part? way = some (.group contents.spreadBreaks.1 marked) ∧
      (marked = true ↔ broken = true ∨ contents.HoldsBreak) := by
  refine ⟨broken || contents.spreadBreaks.2, ?_, ?_⟩
  · simp [part?_spreadBreaks, there, spreadBreaks]
  · simp [found_spreadBreaks contents]

mutual
theorem spreadBreaks_spreadBreaks (doc : Doc) : doc.spreadBreaks.1.spreadBreaks = doc.spreadBreaks := by
  cases doc with
  | concat parts => simp [spreadBreaks, spreadBreaksAll_spreadBreaksAll parts]
  | group contents broken | indent contents | dedent contents | align columns contents | lineSuffix contents =>
    simp [spreadBreaks, spreadBreaks_spreadBreaks contents]
  | note label _ => exact label.elim
  | _ => rfl
theorem spreadBreaksAll_spreadBreaksAll (docs : List Doc) :
    spreadBreaksAll (spreadBreaksAll docs).1 = spreadBreaksAll docs := by
  cases docs with
  | nil => rfl
  | cons doc docs => simp [spreadBreaksAll, spreadBreaks_spreadBreaks doc, spreadBreaksAll_spreadBreaksAll docs]
end

mutual
theorem unmarked_spreadBreaks (doc : Doc) : doc.spreadBreaks.1.unmarked = doc.unmarked := by
  cases doc with
  | concat parts => simp [spreadBreaks, unmarked, unmarkedAll_spreadBreaksAll parts]
  | group contents broken | indent contents | dedent contents | align columns contents | lineSuffix contents =>
    simp [spreadBreaks, unmarked, unmarked_spreadBreaks contents]
  | note label _ => exact label.elim
  | _ => rfl
theorem unmarkedAll_spreadBreaksAll (docs : List Doc) : unmarkedAll (spreadBreaksAll docs).1 = unmarkedAll docs := by
  cases docs with
  | nil => rfl
  | cons doc docs => simp [spreadBreaksAll, unmarkedAll, unmarked_spreadBreaks doc, unmarkedAll_spreadBreaksAll docs]
end

theorem holdsBreak_spreadBreaks (doc : Doc) : doc.spreadBreaks.1.HoldsBreak ↔ doc.HoldsBreak := by
  rw [← found_spreadBreaks, spreadBreaks_spreadBreaks, found_spreadBreaks]

/-- A document in such a row is forcing itself, unless it is a line end with a break behind it. -/
theorem isForcing_of_mem {part : Doc} (docs : List Doc) (forcing : areForcing docs) (member : part ∈ docs) :
    part.isForcing ∨ part = .lineEnd ∧ .breakParent ∈ docs := by
  unfold areForcing at forcing
  split at forcing
  · cases member
  · next docs =>
    rcases List.mem_cons.mp member with rfl | member
    · exact .inr ⟨rfl, by simp⟩
    · rcases List.mem_cons.mp member with rfl | behind
      · exact .inl rfl
      · exact (isForcing_of_mem docs forcing behind).imp_right fun ⟨same, _⟩ => ⟨same, by simp⟩
  · next doc docs _ =>
    obtain ⟨here, later⟩ := Bool.and_eq_true_iff.mp forcing
    rcases List.mem_cons.mp member with rfl | behind
    · exact .inl here
    · refine (isForcing_of_mem docs later behind).imp_right fun ⟨same, breaks⟩ => ?_
      exact ⟨same, List.mem_cons_of_mem _ breaks⟩

theorem isForcing_of_inner (forcing : doc.isForcing) (member : part ∈ doc.inner) :
    part.isForcing ∨ part = .lineEnd ∧ doc.HoldsBreak := by
  cases doc with
  | concat parts =>
    refine (isForcing_of_mem parts forcing member).imp_right fun ⟨same, breaks⟩ => ⟨same, ?_⟩
    exact .of_inner breaks (holdsBreak_iff.mpr (.inl rfl))
  | group contents broken | indent contents | dedent contents | align columns contents | lineSuffix contents =>
    exact .inl (List.mem_singleton.mp member ▸ forcing)
  | note label _ => exact label.elim
  | _ => cases member

/-- Every part is a line end, or forcing itself. With a line end there is a break. -/
theorem isForcing_of_part (forcing : doc.isForcing) (there : doc.part? way = some part) :
    part.isForcing ∨ part = .lineEnd ∧ doc.HoldsBreak := by
  induction way generalizing doc with
  | nil =>
    obtain rfl : doc = part := by simpa [part?] using there
    exact .inl forcing
  | cons i way ih =>
    cases next : doc.inner[i]? with
    | none => simp [part?, next] at there
    | some between =>
      have member := List.mem_of_getElem? next
      simp only [part?, next, Option.bind_some] at there
      rcases isForcing_of_inner forcing member with inside | ⟨rfl, holds⟩
      · exact (ih inside there).imp_right fun ⟨same, holds⟩ => ⟨same, .of_inner member holds⟩
      · -- Nothing is inside a line end.
        cases way with
        | nil => exact .inr ⟨by simpa [part?] using there.symm, holds⟩
        | cons j way => simp [part?, inner] at there

/-! ### Documents laid out flat -/

/-- Neither a line end nor a broken group is in the document, at any depth. -/
def Quiet (doc : Doc) : Prop :=
  ∀ way, doc.part? way ≠ some .lineEnd ∧ ∀ contents, doc.part? way ≠ some (.group contents true)

def Settled (doc : Doc) : Prop := ∀ way contents, doc.part? way = some (.group contents false) → contents.Quiet

theorem part?_cons {i : Nat} (here : doc.inner[i]? = some part) (way : List Nat) :
    doc.part? (i :: way) = part.part? way := by simp [part?, here]

theorem Quiet.of_inner (quiet : doc.Quiet) (member : part ∈ doc.inner) : part.Quiet := by
  obtain ⟨i, here⟩ := List.getElem?_of_mem member
  intro way
  rw [← part?_cons here]
  exact quiet (i :: way)

theorem Settled.of_inner (settled : doc.Settled) (member : part ∈ doc.inner) : part.Settled := by
  obtain ⟨i, here⟩ := List.getElem?_of_mem member
  intro way contents there
  rw [← part?_cons here] at there
  exact settled (i :: way) contents there

/-- A line end, or a group that is not broken, was there before breaks were spread. -/
theorem eq_of_spreadBreaks :
    (doc.spreadBreaks.1 = .lineEnd → doc = .lineEnd) ∧
      ∀ contents, doc.spreadBreaks.1 = .group contents false →
        ∃ held, doc = .group held false ∧ held.spreadBreaks.1 = contents ∧ ¬held.HoldsBreak := by
  cases doc with
  | group held broken =>
    refine ⟨by simp [spreadBreaks], fun contents marked => ?_⟩
    simp only [spreadBreaks, group.injEq, Bool.or_eq_false_iff] at marked
    obtain ⟨same, rfl, none_found⟩ := marked
    refine ⟨held, rfl, same, ?_⟩
    simp [← found_spreadBreaks, none_found]
  | note label _ => exact label.elim
  | _ => simp [spreadBreaks]

/-- Once breaks are spread, what is in a group that is still not broken holds no line end either. -/
theorem settled_spreadBreaks (forcing : doc.isForcing) : doc.spreadBreaks.1.Settled := by
  intro way contents there
  obtain ⟨part, found, marked⟩ := Option.map_eq_some_iff.mp ((part?_spreadBreaks way doc).symm.trans there)
  obtain ⟨held, rfl, rfl, none_held⟩ := eq_of_spreadBreaks.2 contents marked
  have held_forcing : held.isForcing := (isForcing_of_part forcing found).resolve_right fun ⟨same, _⟩ => by cases same
  refine fun further => ⟨fun lineEnd => ?_, fun inner broken => ?_⟩
  · obtain ⟨part, deeper, same⟩ := Option.map_eq_some_iff.mp ((part?_spreadBreaks further held).symm.trans lineEnd)
    obtain rfl := eq_of_spreadBreaks.1 same
    rcases isForcing_of_part held_forcing deeper with forced | ⟨-, holds⟩
    · cases forced
    · exact none_held holds
  · exact none_held ((holdsBreak_spreadBreaks held).mp ⟨further, .inr ⟨inner, broken⟩⟩)

/-! ### Steps and runs -/

/-- A state of the layout of a document. -/
inductive Reached (settings : FormatSettings) (doc : Doc) : Work → Prop where
  | start : Reached settings doc { tasks := [⟨[], .broken, doc.spreadBreaks.1⟩] }
  | step {canvas : Canvas} {task : Task} {rest suffixes : List Task}
      (before : Reached settings doc ⟨canvas, task :: rest, suffixes⟩) :
      Reached settings doc (advance settings canvas task rest suffixes)

theorem Reached.run {settings : FormatSettings} {canvas : Canvas} {tasks suffixes : List Task}
    (reached : Reached settings doc ⟨canvas, tasks, suffixes⟩) :
    ∃ last, Reached settings doc last ∧ last.tasks = [] ∧ last.canvas = Doc.run settings canvas tasks suffixes := by
  fun_induction Doc.run settings canvas tasks suffixes with
  | case1 canvas suffixes => exact ⟨_, reached, rfl, rfl⟩
  | case2 canvas suffixes task rest next ih => exact ih reached.step

/-- What is to be written is settled, and quiet where it is laid out flat. -/
structure Even (task : Task) : Prop where
  settled : task.doc.Settled
  quiet : task.mode = .flat → task.doc.Quiet

/-- The line feeds that are part of a text. -/
def ownFeeds : Doc → Nat
  | .text value => value.toList.count '\n'
  | _ => 0

/-- What a step may make of a task among others: it ends no line in a flat one, and whatever takes the
    place of the task is even, and flat if the task is. -/
structure Keeps (canvas : Canvas) (task : Task) (others : List Task) (next : Work) : Prop where
  measured : next.canvas.remeasure = false
  feeds : task.mode = .flat → next.canvas.written.count '\n' = canvas.written.count '\n' + task.doc.ownFeeds
  own : ∃ own, (next.tasks ++ next.suffixes).Perm (own ++ others) ∧
    ∀ inner ∈ own, Even inner ∧ (task.mode = .flat → inner.mode = .flat)

theorem count_feed_trim (canvas : Canvas) : canvas.trim.written.count '\n' = canvas.written.count '\n' := by
  simp only [Canvas.trim]
  induction canvas.written with
  | nil => rfl
  | cons c cs ih =>
    rw [List.dropWhile_cons]
    split
    · next gap =>
      have other : c ≠ '\n' := by
        rintro rfl
        revert gap
        decide
      rw [ih, List.count_cons_of_ne other]
    · rfl

section
variable {settings : FormatSettings} {canvas next : Canvas} {task inner : Task} {rest suffixes : List Task}

theorem Keeps.settle {work : Work} {others : List Task} (keeps : Keeps canvas task others work) :
    Keeps canvas task others work.settle := by
  obtain ⟨canvas, tasks, suffixes⟩ := work
  cases tasks with
  | nil => exact ⟨keeps.measured, keeps.feeds, by simpa [Work.settle] using keeps.own⟩
  | cons first tasks => exact keeps

theorem Keeps.replace (own : List Task) (measured : next.remeasure = false)
    (feeds : task.mode = .flat → next.written.count '\n' = canvas.written.count '\n' + task.doc.ownFeeds)
    (even : ∀ inner ∈ own, Even inner ∧ (task.mode = .flat → inner.mode = .flat)) :
    Keeps canvas task (rest ++ suffixes) ⟨next, own ++ rest, suffixes⟩ :=
  ⟨measured, feeds, own, by simp, even⟩

/-- The document right inside another one takes its place, in the same mode. -/
theorem Keeps.enter (measured : canvas.remeasure = false) (even : Even task) (member : inner.doc ∈ task.doc.inner)
    (same : inner.mode = task.mode) (none_own : task.doc.ownFeeds = 0) :
    Keeps canvas task (rest ++ suffixes) ⟨canvas, inner :: rest, suffixes⟩ := by
  refine .replace [inner] measured (fun _ => by rw [none_own, Nat.add_zero]) ?_
  rintro _ here
  obtain rfl := List.mem_singleton.mp here
  refine ⟨⟨even.settled.of_inner member, fun flat => ?_⟩, same.trans⟩
  exact (even.quiet (same.symm.trans flat)).of_inner member

/-- A line ends only where it is laid out broken; if suffixes are written first, the task comes again. -/
theorem Keeps.breakLine (measured : canvas.remeasure = false) (even : Even task) (broken : task.mode = .broken) :
    Keeps canvas task (rest ++ suffixes) (breakLine settings canvas task rest suffixes) := by
  have not_flat : task.mode ≠ .flat := by simp [broken]
  unfold Doc.breakLine
  split
  · next none_wait =>
    obtain rfl := List.isEmpty_iff.mp none_wait
    exact settle (.replace [] measured (fun flat => absurd flat not_flat) (by simp))
  · refine ⟨measured, fun flat => absurd flat not_flat, [task], ?_, ?_⟩
    · simp only [List.append_nil]
      exact List.perm_append_comm
    · rintro _ here
      obtain rfl := List.mem_singleton.mp here
      exact ⟨even, id⟩

/-- The contents of a group are quiet, unless it is broken, and a flat group in a flat task stays flat. -/
theorem Keeps.group {indentation : Indentation} {mode : Mode} {contents : Doc} {broken : Bool}
    (measured : canvas.remeasure = false) (even : Even ⟨indentation, mode, .group contents broken⟩) :
    Keeps canvas ⟨indentation, mode, .group contents broken⟩ (rest ++ suffixes)
      (advance settings canvas ⟨indentation, mode, .group contents broken⟩ rest suffixes) := by
  have inside : contents ∈ (Doc.group contents broken).inner := by simp [inner]
  refine settle (.replace [_] rfl (fun _ => rfl) ?_)
  rintro _ here
  obtain rfl := List.mem_singleton.mp here
  cases broken with
  | true =>
    refine ⟨⟨even.settled.of_inner inside, fun flat => ?_⟩, fun flat => ?_⟩
    · simp [groupMode] at flat
    · exact absurd rfl ((even.quiet flat []).2 contents)
  | false =>
    refine ⟨⟨even.settled.of_inner inside, fun _ => even.settled [] contents rfl⟩, fun flat => ?_⟩
    obtain rfl : mode = .flat := flat
    simp [groupMode, measured]

theorem Even.advance (even : Even task) (settings : FormatSettings) (measured : canvas.remeasure = false)
    (rest suffixes : List Task) :
    Keeps canvas task (rest ++ suffixes) (advance settings canvas task rest suffixes) := by
  obtain ⟨indentation, mode, doc⟩ := task
  cases doc with
  | text value =>
    refine .settle (.replace [] measured (fun _ => ?_) (by simp))
    simp [Canvas.write, ownFeeds, Nat.add_comm]
  | concat parts =>
    refine .settle (.replace _ measured (fun _ => rfl) ?_)
    intro inner member
    obtain ⟨part, held, rfl⟩ := List.mem_map.mp member
    exact ⟨⟨even.settled.of_inner held, fun flat => (even.quiet flat).of_inner held⟩, id⟩
  | indent contents | dedent contents | align columns contents =>
    exact .settle (.enter measured even (List.mem_singleton.mpr rfl) rfl rfl)
  | group contents broken => exact .group measured even
  | trim => exact .settle (.replace [] measured (fun _ => count_feed_trim canvas) (by simp))
  | breakParent => exact .settle (.replace [] measured (fun _ => rfl) (by simp))
  | lineSuffix contents =>
    have inside : contents ∈ (Doc.lineSuffix contents).inner := by simp [inner]
    refine .settle ⟨measured, fun _ => rfl, [⟨indentation, mode, contents⟩], ?_, ?_⟩
    · rw [← List.append_assoc]
      exact List.perm_append_comm
    · intro inner member
      obtain rfl := List.mem_singleton.mp member
      exact ⟨⟨even.settled.of_inner inside, fun flat => (even.quiet flat).of_inner inside⟩, id⟩
  | line =>
    cases mode with
    | flat => exact .replace [] measured (fun _ => by simp [Canvas.write, ownFeeds]) (by simp)
    | broken => exact .breakLine measured even rfl
  | softLine =>
    cases mode with
    | flat => exact .replace [] measured (fun _ => rfl) (by simp)
    | broken => exact .breakLine measured even rfl
  | lineEnd =>
    cases mode with
    | flat => exact absurd rfl (even.quiet rfl []).1
    | broken => exact .breakLine measured even rfl
  | note label _ => exact label.elim

end

theorem Reached.even {settings : FormatSettings} {work : Work} (forcing : doc.isForcing)
    (reached : Reached settings doc work) :
    work.canvas.remeasure = false ∧ ∀ task ∈ work.tasks ++ work.suffixes, Even task := by
  induction reached with
  | start =>
    refine ⟨rfl, fun task member => ?_⟩
    obtain rfl : task = ⟨[], .broken, doc.spreadBreaks.1⟩ := by simpa using member
    exact ⟨settled_spreadBreaks forcing, fun flat => by cases flat⟩
  | @step canvas task rest suffixes _ ih =>
    obtain ⟨measured, even⟩ := ih
    have keeps := (even task (by simp)).advance settings measured rest suffixes
    obtain ⟨own, perm, inside⟩ := keeps.own
    refine ⟨keeps.measured, fun inner member => ?_⟩
    rcases List.mem_append.mp (perm.mem_iff.mp member) with here | other
    · exact (inside inner here).1
    · exact even inner (List.mem_cons_of_mem _ other)

/-- Breaks are spread to every group around them, and to nothing else, and once is enough. In the layout of
    a forcing document no line end is ever met in a flat task, so no group is measured anew. A flat task
    writes no line feed but those of a text, and all that comes out of it, suffixes included, is flat too. -/
theorem hardLines_break_groups (settings : FormatSettings) (doc : Doc) :
    (∀ way contents broken, doc.part? way = some (.group contents broken) →
      ∃ inner marked, doc.spreadBreaks.1.part? way = some (.group inner marked) ∧
        (marked = true ↔ broken = true ∨ contents.HoldsBreak)) ∧
    doc.spreadBreaks.1.unmarked = doc.unmarked ∧
    doc.spreadBreaks.1.spreadBreaks = doc.spreadBreaks ∧
    (∃ last, Reached settings doc last ∧ last.tasks = [] ∧
      render settings doc = String.ofList last.canvas.written.reverse) ∧
    (doc.isForcing → ∀ canvas tasks suffixes, Reached settings doc ⟨canvas, tasks, suffixes⟩ →
      canvas.remeasure = false ∧
      ∀ task rest, tasks = task :: rest →
        (task.doc = .lineEnd → task.mode = .broken) ∧
        (task.mode = .flat →
          let next := advance settings canvas task rest suffixes
          next.canvas.written.count '\n' = canvas.written.count '\n' + task.doc.ownFeeds ∧
          ∃ own, (next.tasks ++ next.suffixes).Perm (own ++ (rest ++ suffixes)) ∧
            ∀ inner ∈ own, inner.mode = .flat)) := by
  refine ⟨?_, unmarked_spreadBreaks doc, spreadBreaks_spreadBreaks doc, ?_, ?_⟩
  · intro way contents broken there
    obtain ⟨marked, found, iff⟩ := broken_spreadBreaks there
    exact ⟨_, marked, found, iff⟩
  · have initial : Reached settings doc _ := .start
    obtain ⟨last, reached, done, same⟩ := initial.run
    refine ⟨last, reached, done, ?_⟩
    rw [render, plain_eq_self, same]
  · rintro forcing canvas tasks suffixes reached
    obtain ⟨measured, even⟩ := reached.even forcing
    refine ⟨measured, ?_⟩
    rintro task rest rfl
    have here : Even task := even task (by simp)
    refine ⟨fun lineEnd => ?_, fun flat => ?_⟩
    · cases mode : task.mode with
      | flat => exact absurd (congrArg some lineEnd) (here.quiet mode []).1
      | broken => rfl
    · have keeps := here.advance settings measured rest suffixes
      obtain ⟨own, perm, inside⟩ := keeps.own
      exact ⟨keeps.feeds flat, own, perm, fun inner member => (inside inner member).2 flat⟩

/-- A line in a flat group, before a line end that breaks what is around it. -/
theorem hardLines_break_groups_flat :
    let doc : Doc := .concat [fill (.concat ["a", .line, "b"]), hardLine]
    let flat : Task := ⟨[], .flat, .line⟩
    doc.isForcing ∧ ∃ canvas rest, Reached {} doc ⟨canvas, flat :: rest, []⟩ ∧ canvas.remeasure = false ∧
      (advance {} canvas flat rest []).canvas.written.count '\n' = canvas.written.count '\n' := by
  intro doc flat
  have forcing : doc.isForcing := by decide
  have room : ({} : FormatSettings).columnsLeft 0 = 80 := by decide
  have lengths : "a".length = 1 ∧ "b".length = 1 := by decide
  have fit : fitsFlat {} 0 (.concat ["a", .line, "b"]) [⟨[], .broken, hardLine⟩] := by
    simp [fitsFlat, fits, inMode, room, lengths, hardLine]
  have mode : groupMode {} {} .broken (.concat ["a", .line, "b"]) false [⟨[], .broken, hardLine⟩] = .flat := by
    simp [groupMode, fit]
  have group : Reached {} doc ⟨{}, [⟨[], .broken, fill (.concat ["a", .line, "b"])⟩, ⟨[], .broken, hardLine⟩], []⟩ :=
    Reached.start.step
  have contents : Reached {} doc ⟨{}, [⟨[], .flat, .concat ["a", .line, "b"]⟩, ⟨[], .broken, hardLine⟩], []⟩ := by
    have next := group.step
    simp only [advance, fill, mode] at next
    exact next
  have reached := contents.step.step
  obtain ⟨-, -, -, -, layout⟩ := hardLines_break_groups {} doc
  obtain ⟨measured, tasks⟩ := layout forcing _ _ _ reached
  exact ⟨forcing, _, _, reached, measured, ((tasks flat _ rfl).2 rfl).1⟩

end ApexLayout.Doc
