import ApexLayout.Command.Run
import ApexLayout.Proofs.Files.Writing
import ApexLayout.Proofs.Guard.Lines

/-!
Formatting files is done as a whole: all files are read and formatted before one of them is written. The status and the
counts follow from the outcome for each path (`whole_runFormat`).
-/
namespace ApexLayout.Command

variable {f : FormattedFile} {path text : String} {place : Place} {e : FormatError} {formatted : List FormattedFile}
  {report : Report}

inductive Finding where
  | unreadable (e : FileError)
  | failed (source : String) (e : FormatError)
  | formatted (source text : String)

namespace Finding

def isUnreadable : Finding → Bool
  | .unreadable _ => true
  | _ => false

def isFailed : Finding → Bool
  | .failed _ _ => true
  | _ => false

def isChanged : Finding → Bool
  | .formatted source text => text != source
  | _ => false

def isUnchanged : Finding → Bool
  | .formatted source text => text == source
  | _ => false

/-- What was read is changed, unchanged or failed, and only one of these. -/
theorem one_of_readable {finding : Finding} (readable : ¬ finding.isUnreadable) :
    (if finding.isChanged then 1 else 0) + (if finding.isUnchanged then 1 else 0) + (if finding.isFailed then 1 else 0) = 1 := by
  cases finding with
  | unreadable e => exact absurd rfl readable
  | failed source e => rfl
  | formatted source text =>
    by_cases same : text = source
    · simp [isChanged, isUnchanged, isFailed, same]
    · simp [isChanged, isUnchanged, isFailed, same]

theorem countP_add {finding : String → Finding} {files : List String}
    (readable : ∀ path ∈ files, ¬ (finding path).isUnreadable) :
    files.countP (fun path => (finding path).isChanged) + files.countP (fun path => (finding path).isUnchanged) +
      files.countP (fun path => (finding path).isFailed) = files.length := by
  induction files with
  | nil => rfl
  | cons path files ih =>
    have rest := ih fun other member => readable other (List.mem_cons_of_mem _ member)
    have here := one_of_readable (readable path List.mem_cons_self)
    rw [List.countP_cons, List.countP_cons, List.countP_cons, List.length_cons]
    omega

end Finding

def World.format (w : World) (o : Overrides) (settings : LoadedSettings) (path source : String) : Outcome String :=
  formatSource w.serializer source (settingsFor o settings.format path) settings.serializer

def World.finding (w : World) (o : Overrides) (settings : LoadedSettings) (path : String) : Finding :=
  match w.files.read path with
  | .error e => .unreadable e
  | .ok source =>
    match w.format o settings path source with
    | .error e => .failed source e
    | .ok text => .formatted source text

def FormattedFile.finding (f : FormattedFile) : Finding :=
  match f.result with
  | .error e => .failed f.source e
  | .ok text => .formatted f.source text

variable {w : World} {o : Overrides} {settings : LoadedSettings} {mode : Mode} {verbosity : Verbosity}

/-! ### Reading and formatting -/

/-- The file was read at its path, and formatted. -/
structure Handled (w : World) (o : Overrides) (settings : LoadedSettings) (f : FormattedFile) : Prop where
  source : w.files.read f.path = .ok f.source
  result : f.result = w.format o settings f.path f.source

theorem Handled.finding (handled : Handled w o settings f) :
    f.finding = w.finding o settings f.path := by
  rw [World.finding, handled.source, FormattedFile.finding, handled.result]

theorem settingsFor_congr {other : String} (same : Path.extension? path = Path.extension? other)
    (format : FormatSettings) : settingsFor o format path = settingsFor o format other := by
  rw [settingsFor, settingsFor, same]

/-- A file that was read stands where its path leads. -/
theorem Handled.entry (handled : Handled w o settings f)
    (leads : w.files.destination f.path = .ok (.below place)) : w.files.entry? place = some (.file f.source) := by
  obtain ⟨other, there, file⟩ := Files.read_eq_ok.mp handled.source
  rw [leads] at there
  cases there
  exact file

theorem Handled.result_eq (tree : w.files.IsTree) {g : FormattedFile}
    (handled : Handled w o settings f) (also : Handled w o settings g)
    (leads : w.files.destination f.path = .ok (.below place))
    (meets : w.files.destination g.path = .ok (.below place)) : f.result = g.result := by
  have file := handled.entry leads
  have source : f.source = g.source := by
    have again := also.entry meets
    simpa [file] using again
  rw [handled.result, also.result, World.format, World.format, source,
    settingsFor_congr (tree.extension? leads meets file)]

/-! ### Writing -/

theorem files_settle_of_ne (spared : mode ≠ .write) (report : Report) (f : FormattedFile) :
    (settle w mode verbosity report f).files = report.files := by
  unfold settle
  cases mode with
  | write => exact absurd rfl spared
  | print | check => grind

theorem files_foldl_settle (spared : mode ≠ .write) (formatted : List FormattedFile) (report : Report) :
    (formatted.foldl (settle w mode verbosity) report).files = report.files := by
  induction formatted generalizing report with
  | nil => rfl
  | cons f formatted ih => rw [List.foldl_cons, ih, files_settle_of_ne spared]

theorem files_settle_of_error (failed : f.result = .error e) (report : Report) :
    (settle w mode verbosity report f).files = report.files := by
  unfold settle
  rw [failed]

theorem files_settle (done : f.result = .ok text) (report : Report) :
    (settle w .write verbosity report f).files =
      if text = f.source then report.files else report.files.write f.path text := by
  have changed : f.isChanged = (text != f.source) := by rw [FormattedFile.isChanged, done]
  unfold settle
  rw [done]
  by_cases same : text = f.source
  · simp only [changed, same, bne_self_eq_false, Bool.false_eq_true, ↓reduceIte]
    split <;> rfl
  · have differ : (text != f.source) = true := by simpa using same
    simp only [changed, same, differ, ↓reduceIte]
    split <;> rfl

/-- What has become of files after some of them were formatted and written. -/
structure Wrote (before after : Files) (formatted : List FormattedFile) : Prop where
  like : before.Like after
  written {f : FormattedFile} {place : Place} {text : String} : f ∈ formatted →
    before.destination f.path = .ok (.below place) → f.result = .ok text → after.entry? place = some (.file text)
  kept {place : Place} :
    (∀ f ∈ formatted, before.destination f.path = .ok (.below place) → ∃ e, f.result = .error e) →
      after.entry? place = before.entry? place

theorem Wrote.nil (files : Files) : Wrote files files [] where
  like := .refl files
  written member := absurd member List.not_mem_nil
  kept _ := rfl

theorem Wrote.failed {before after : Files} (wrote : Wrote before after formatted)
    (failed : f.result = .error e) : Wrote before after (formatted ++ [f]) where
  like := wrote.like
  written member leads done := by
    rcases List.mem_append.mp member with early | here
    · exact wrote.written early leads done
    · rw [List.mem_singleton.mp here, failed] at done
      cases done
  kept errors := wrote.kept fun g member leads => errors g (List.mem_append_left _ member) leads

section
variable {before after : Files} {formatted : List FormattedFile} {f : FormattedFile} {text : String} {place : Place}
  (wrote : Wrote before after formatted) (leads : before.destination f.path = .ok (.below place))
  (done : f.result = .ok text)
  (agree : ∀ g ∈ formatted, before.destination g.path = .ok (.below place) → g.result = f.result)
include wrote leads done agree

theorem Wrote.same (stands : before.entry? place = some (.file text)) : Wrote before after (formatted ++ [f]) where
  like := wrote.like
  written {g other result} member goes ok := by
    rcases List.mem_append.mp member with early | here
    · exact wrote.written early goes ok
    · rw [List.mem_singleton.mp here] at goes ok
      obtain rfl : place = other := by simpa [leads] using goes
      obtain rfl : text = result := by simpa [done] using ok
      -- An earlier path to the same file has brought the same text.
      by_cases met : ∃ g ∈ formatted, before.destination g.path = .ok (.below place)
      · obtain ⟨g, member, goes⟩ := met
        exact wrote.written member goes ((agree g member goes).trans done)
      · rw [wrote.kept fun g member goes => absurd ⟨g, member, goes⟩ met, stands]
  kept errors := wrote.kept fun g member goes => errors g (List.mem_append_left _ member) goes

theorem Wrote.write {old : String} (stands : before.entry? place = some (.file old)) :
    Wrote before (after.write f.path text) (formatted ++ [f]) := by
  have goes : after.destination f.path = .ok (.below place) := (wrote.like.destination f.path).trans leads
  obtain ⟨now, file⟩ : ∃ now, after.entry? place = some (.file now) := by
    have kind := wrote.like.kind place
    rw [stands] at kind
    rcases there : after.entry? place with _ | ⟨now | _⟩
    · simp [there] at kind
    · exact ⟨now, rfl⟩
    · simp [there] at kind
  refine ⟨wrote.like.trans (Files.like_write goes file text), ?_, ?_⟩
  · intro g other result member leads_other ok
    rw [Files.entry?_write goes file]
    by_cases here : other = place
    · subst here
      have same : g.result = f.result := by
        rcases List.mem_append.mp member with early | last
        · exact agree g early leads_other
        · rw [List.mem_singleton.mp last]
      obtain rfl : text = result := by simpa [same, done] using ok
      rw [if_pos rfl]
    · rw [if_neg here]
      rcases List.mem_append.mp member with early | last
      · exact wrote.written early leads_other ok
      · rw [List.mem_singleton.mp last, leads] at leads_other
        cases leads_other
        exact absurd rfl here
  · intro other errors
    rw [Files.entry?_write goes file, if_neg]
    · exact wrote.kept fun g member goes => errors g (List.mem_append_left _ member) goes
    · rintro rfl
      obtain ⟨e, failed⟩ := errors f (by simp) leads
      rw [done] at failed
      cases failed

end

theorem Wrote.settle (tree : w.files.IsTree) (wrote : Wrote w.files report.files formatted)
    (handled : ∀ g ∈ formatted ++ [f], Handled w o settings g) :
    Wrote w.files (Command.settle w .write verbosity report f).files (formatted ++ [f]) := by
  have here : Handled w o settings f := handled f (by simp)
  cases result : f.result with
  | error e =>
    rw [files_settle_of_error result]
    exact wrote.failed result
  | ok text =>
    obtain ⟨place, leads, stands⟩ := Files.read_eq_ok.mp here.source
    have agree : ∀ g ∈ formatted, w.files.destination g.path = .ok (.below place) → g.result = f.result :=
      fun g member meets => (handled g (List.mem_append_left _ member)).result_eq tree here meets leads
    rw [files_settle result]
    split
    · next same =>
      rw [← same] at stands
      exact wrote.same leads result agree stands
    · exact wrote.write leads result agree stands

theorem Wrote.foldl (tree : w.files.IsTree) (rest : List FormattedFile)
    (wrote : Wrote w.files report.files formatted) (handled : ∀ g ∈ formatted ++ rest, Handled w o settings g) :
    Wrote w.files (rest.foldl (Command.settle w .write verbosity) report).files (formatted ++ rest) := by
  induction rest generalizing formatted report with
  | nil => rwa [List.append_nil]
  | cons f rest ih =>
    rw [List.append_cons] at handled ⊢
    exact ih (wrote.settle tree fun g member => handled g (List.mem_append_left _ member)) handled

/-! ### The command -/

/-- The report on files that were all read and formatted. -/
structure Concludes (w : World) (mode : Mode) (verbosity : Verbosity) (formatted : List FormattedFile) (report : Report) :
    Prop where
  files : ∃ start : Report, start.files = w.files ∧
    report.files = (formatted.foldl (settle w mode verbosity) start).files
  status : report.status =
    if 0 < formatted.countP (·.finding.isFailed) ∨ (mode = .check ∧ 0 < formatted.countP (·.finding.isChanged)) then 1 else 0
  shown : ∃ said, report.stderr = said ++ summary w mode verbosity formatted.length
    (formatted.countP (·.finding.isChanged)) (formatted.countP (·.finding.isFailed))

/-- What a run over files leaves behind, by what formatting came to for each of them. -/
structure Whole (w : World) (files : List String) (finding : String → Finding) (mode : Mode) (verbosity : Verbosity)
    (report : Report) : Prop where
  /-- If a file cannot be read, the command fails on such a file and changes nothing. -/
  unread : (∃ path ∈ files, (finding path).isUnreadable) → report.status = 1 ∧ report.files = w.files ∧
    ∃ path ∈ files, ∃ e said, finding path = .unreadable e ∧ report.stderr = said ++ (Failure.ofFile path e).render
  spared : mode ≠ .write → report.files = w.files
  written : mode = .write → (∀ path ∈ files, ¬ (finding path).isUnreadable) → ∀ path ∈ files, ∀ source text,
    finding path = .formatted source text → report.files.read path = .ok text
  failed : ∀ path ∈ files, ∀ source e, finding path = .failed source e → report.files.read path = .ok source
  others : ∀ place, (∀ path ∈ files, w.files.destination path ≠ .ok (.below place)) →
    report.files.entry? place = w.files.entry? place
  destinations : ∀ path, report.files.destination path = w.files.destination path
  status : (∀ path ∈ files, ¬ (finding path).isUnreadable) → (report.status = 1 ↔
    ∃ path ∈ files, (finding path).isFailed ∨ (mode = .check ∧ (finding path).isChanged))
  statuses : report.status = 0 ∨ report.status = 1
  /-- The counts add up to the number of files, and are those that are shown. -/
  counts : (∀ path ∈ files, ¬ (finding path).isUnreadable) →
    files.countP (fun path => (finding path).isChanged) + files.countP (fun path => (finding path).isUnchanged) +
      files.countP (fun path => (finding path).isFailed) = files.length ∧
    (verbosity = .verbose → files ≠ [] → ∃ said, report.stderr = said ++ (
      line ("Summary: " ++ toString (files.countP fun path => (finding path).isChanged) ++ " changed, " ++
        toString (files.countP fun path => (finding path).isUnchanged) ++ " unchanged, " ++
        toString (files.countP fun path => (finding path).isFailed) ++ " errors") ++
      line ("Total time: " ++ w.duration)))

section
variable {path source : String}

theorem finding_eq_failed (here : w.finding o settings path = .failed source e) :
    w.files.read path = .ok source ∧ w.format o settings path source = .error e := by
  unfold World.finding at here
  split at here
  · cases here
  · next there =>
    split at here
    · next failed =>
      cases here
      exact ⟨there, failed⟩
    · cases here

theorem finding_eq_formatted : w.finding o settings path = .formatted source text ↔
    w.files.read path = .ok source ∧ w.format o settings path source = .ok text := by
  constructor
  · intro here
    unfold World.finding at here
    split at here
    · cases here
    · next there =>
      split at here
      · cases here
      · next done =>
        cases here
        exact ⟨there, done⟩
  · rintro ⟨there, done⟩
    simp only [World.finding, there, done]

end

theorem Handled.readable (handled : Handled w o settings f) :
    ¬ (w.finding o settings f.path).isUnreadable := by
  rw [← handled.finding, FormattedFile.finding]
  cases f.result with
  | error e | ok text => exact Bool.false_ne_true

section
variable {formatted : List FormattedFile} {report : Report} (concludes : Concludes w mode verbosity formatted report)
include concludes

theorem Concludes.spared (spared : mode ≠ .write) : report.files = w.files := by
  obtain ⟨start, same, files⟩ := concludes.files
  rw [files, files_foldl_settle spared, same]

variable (tree : w.files.IsTree) (handled : ∀ f ∈ formatted, Handled w o settings f)
include tree handled

theorem Concludes.wrote (writes : mode = .write) : Wrote w.files report.files formatted := by
  subst writes
  obtain ⟨start, same, files⟩ := concludes.files
  have none_written : Wrote w.files start.files [] := by
    rw [same]
    exact .nil w.files
  rw [files]
  exact none_written.foldl tree formatted handled

theorem Concludes.like : w.files.Like report.files := by
  by_cases writes : mode = .write
  · exact (concludes.wrote tree handled writes).like
  · rw [concludes.spared writes]
    exact .refl w.files

theorem Concludes.kept
    (errors : ∀ f ∈ formatted, w.files.destination f.path = .ok (.below place) → ∃ e, f.result = .error e) :
    report.files.entry? place = w.files.entry? place := by
  by_cases writes : mode = .write
  · exact (concludes.wrote tree handled writes).kept errors
  · rw [concludes.spared writes]

end

theorem summary_verbose (w : World) (mode : Mode) {files changed unchanged errors : Nat}
    (total : changed + unchanged + errors = files) : ∃ closing, summary w mode .verbose files changed errors = closing ++ (
      line ("Summary: " ++ toString changed ++ " changed, " ++ toString unchanged ++ " unchanged, " ++
        toString errors ++ " errors") ++ line ("Total time: " ++ w.duration)) := by
  have rest : files - changed - errors = unchanged := by omega
  unfold summary
  rw [rest]
  exact ⟨_, rfl⟩

theorem Concludes.whole (concludes : Concludes w mode verbosity formatted report) (tree : w.files.IsTree)
    (handled : ∀ f ∈ formatted, Handled w o settings f) :
    Whole w (formatted.map (·.path)) (w.finding o settings) mode verbosity report := by
  have readable : ∀ path ∈ formatted.map (·.path), ¬ (w.finding o settings path).isUnreadable := by
    intro path member
    obtain ⟨f, there, rfl⟩ := List.mem_map.mp member
    exact (handled f there).readable
  have counted (p : Finding → Bool) : formatted.countP (p ·.finding) =
      (formatted.map (·.path)).countP (p <| w.finding o settings ·) := by
    rw [List.countP_map]
    exact List.countP_congr fun f member => by rw [(handled f member).finding]; rfl
  have like := concludes.like tree handled
  constructor
  case unread =>
    rintro ⟨path, member, unread⟩
    exact absurd unread (readable path member)
  case spared => exact concludes.spared
  case written =>
    intro writes _ _ member source text found
    obtain ⟨f, there, rfl⟩ := List.mem_map.mp member
    obtain ⟨read, done⟩ := finding_eq_formatted.mp found
    obtain ⟨place, leads, -⟩ := Files.read_eq_ok.mp read
    have source_eq : f.source = source := by simpa [(handled f there).source] using read
    have result : f.result = .ok text := by rw [(handled f there).result, source_eq, done]
    refine Files.read_eq_ok.mpr ⟨place, (like.destination f.path).trans leads, ?_⟩
    exact (concludes.wrote tree handled writes).written there leads result
  case failed =>
    intro _ member source e found
    obtain ⟨f, there, rfl⟩ := List.mem_map.mp member
    obtain ⟨read, failed⟩ := finding_eq_failed found
    obtain ⟨place, leads, file⟩ := Files.read_eq_ok.mp read
    have source_eq : f.source = source := by simpa [(handled f there).source] using read
    have result : f.result = .error e := by rw [(handled f there).result, source_eq, failed]
    refine Files.read_eq_ok.mpr ⟨place, (like.destination f.path).trans leads, ?_⟩
    rw [concludes.kept tree handled, file]
    intro g member meets
    exact ⟨e, ((handled g member).result_eq tree (handled f there) meets leads).trans result⟩
  case others =>
    intro place apart
    refine concludes.kept tree handled fun f member leads => ?_
    exact absurd leads (apart f.path (List.mem_map_of_mem member))
  case destinations => exact like.destination
  case status =>
    intro _
    rw [concludes.status, counted, counted]
    simp only [List.countP_pos_iff, ite_eq_left_iff, Nat.zero_ne_one, imp_false, not_not]
    constructor
    · rintro (⟨path, member, failed⟩ | ⟨checks, path, member, changed⟩)
      · exact ⟨path, member, .inl failed⟩
      · exact ⟨path, member, .inr ⟨checks, changed⟩⟩
    · rintro ⟨path, member, failed | ⟨checks, changed⟩⟩
      · exact .inl ⟨path, member, failed⟩
      · exact .inr ⟨checks, path, member, changed⟩
  case statuses =>
    rw [concludes.status]
    split
    · exact .inr rfl
    · exact .inl rfl
  case counts =>
    intro _
    refine ⟨Finding.countP_add readable, ?_⟩
    rintro rfl -
    obtain ⟨said, shown⟩ := concludes.shown
    obtain ⟨closing, summed⟩ := summary_verbose w mode (Finding.countP_add readable)
    rw [List.length_map] at summed
    rw [counted, counted, summed, ← String.append_assoc] at shown
    exact ⟨said ++ closing, shown⟩

end ApexLayout.Command
