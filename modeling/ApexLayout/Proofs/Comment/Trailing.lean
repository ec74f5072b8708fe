import ApexLayout.Comment.Basic
import ApexLayout.Proofs.Render.Group

/-!
Comments behind a text. Once one is held back to the end of the line so are all after it (`written_trailingDocs`), so
the comments fill lines, one after the other, and nothing is put behind an inline comment (`trailingLines`).
-/
namespace ApexLayout

namespace Doc

mutual
def isStraight : Doc → Bool
  | .text _ | .lineEnd | .breakParent => true
  | .concat parts => areStraight parts
  | _ => false
def areStraight : List Doc → Bool
  | [] => true
  | doc :: docs => doc.isStraight && areStraight docs
end

mutual
/-- A straight document behind what is written before it, with no indentation. -/
def drawn (before : List Char) : Doc → List Char
  | .text value => before ++ value.toList
  | .concat parts => drawnAll before parts
  | .lineEnd => trimmed before ++ ['\n']
  | _ => before
def drawnAll (before : List Char) : List Doc → List Char
  | [] => before
  | doc :: docs => drawnAll (doc.drawn before) docs
end

theorem spreadBreaksAll_eq_self {docs : List Doc} (same : ∀ doc ∈ docs, doc.spreadBreaks.1 = doc) :
    (spreadBreaksAll docs).1 = docs := by
  induction docs with
  | nil => rfl
  | cons doc docs ih =>
    obtain ⟨first, others⟩ := List.forall_mem_cons.mp same
    exact congrArg₂ List.cons first (ih others)

mutual
theorem spreadBreaks_straight (doc : Doc) (straight : doc.isStraight) : doc.spreadBreaks.1 = doc := by
  cases doc with
  | concat parts => exact congrArg Doc.concat (spreadBreaksAll_straight parts straight)
  | note label contents => exact label.elim
  | text value => rfl
  | lineEnd => rfl
  | breakParent => rfl
  | _ => cases straight
theorem spreadBreaksAll_straight (docs : List Doc) (straight : areStraight docs) : (spreadBreaksAll docs).1 = docs := by
  cases docs with
  | nil => rfl
  | cons doc docs =>
    simp only [areStraight, Bool.and_eq_true] at straight
    exact congrArg₂ List.cons (spreadBreaks_straight doc straight.1) (spreadBreaksAll_straight docs straight.2)
end

theorem drawnAll_append (before : List Char) (xs ys : List Doc) :
    drawnAll before (xs ++ ys) = drawnAll (drawnAll before xs) ys := by
  induction xs generalizing before with
  | nil => rfl
  | cons doc docs ih => exact ih _

theorem areStraight_append (xs ys : List Doc) : areStraight (xs ++ ys) = (areStraight xs && areStraight ys) := by
  induction xs with
  | nil => rfl
  | cons doc docs ih => simp [areStraight, ih, Bool.and_assoc]

def unindented (docs : List Doc) : List Task := docs.map (⟨[], .broken, ·⟩)

theorem unindented_append (xs ys : List Doc) : unindented (xs ++ ys) = unindented xs ++ unindented ys := List.map_append

mutual
theorem run_straight (doc : Doc) (straight : doc.isStraight) (settings : FormatSettings) (canvas : Canvas)
    (rest : List Task) :
    ∃ next : Canvas, run settings canvas (⟨[], .broken, doc⟩ :: rest) [] = run settings next rest [] ∧
      next.written.reverse = doc.drawn canvas.written.reverse := by
  cases doc with
  | text value => exact ⟨canvas.write value, run_step _ rfl, by simp [Canvas.write, drawn]⟩
  | concat parts =>
    obtain ⟨next, same, written⟩ := runAll_straight parts straight settings canvas rest
    exact ⟨next, (run_step _ rfl).trans same, written⟩
  | lineEnd => exact ⟨canvas.endLine settings [], run_step _ rfl, reverse_written_endLine []⟩
  | breakParent => exact ⟨canvas, run_step _ rfl, rfl⟩
  | note label contents => exact label.elim
  | _ => cases straight
theorem runAll_straight (docs : List Doc) (straight : areStraight docs) (settings : FormatSettings) (canvas : Canvas)
    (rest : List Task) :
    ∃ next : Canvas, run settings canvas (unindented docs ++ rest) [] = run settings next rest [] ∧
      next.written.reverse = drawnAll canvas.written.reverse docs := by
  cases docs with
  | nil => exact ⟨canvas, rfl, rfl⟩
  | cons doc docs =>
    simp only [areStraight, Bool.and_eq_true] at straight
    obtain ⟨between, first, here⟩ :=
      run_straight doc straight.1 settings canvas (unindented docs ++ rest)
    obtain ⟨next, others, later⟩ := runAll_straight docs straight.2 settings between rest
    exact ⟨next, first.trans others, by rw [later, here, drawnAll]⟩
end

end Doc

namespace Comment

/-! ### Lines of comments -/

/-- A line: what it starts with, a text or a comment, and the comments behind that. -/
structure Line where
  start : String ⊕ Comment
  behind : List Comment := []

namespace Line

def blank : Line := ⟨.inl "", []⟩

def comments (line : Line) : List Comment := line.start.getRight?.toList ++ line.behind

/-- What a line has on it, with a space before every comment but one at its start. -/
def text (line : Line) : List Char :=
  (line.start.elim id Comment.text).toList ++ line.behind.flatMap fun c => ' ' :: c.text.toList

/-- Puts a comment on a line, or on one of its own if it starts one in the source or nothing may stand
    behind what is there. Gives the lines that are full, and the one with the comment. -/
def put (source : String) (isFull : Bool) (line : Line) (c : Comment) : List Line × Line :=
  if isFull || Text.startsLine source c.span.start then
    (if Text.followsEmptyLine source c.span.start then [line, blank] else [line], ⟨.inr c, []⟩)
  else ([], { line with behind := line.behind ++ [c] })

end Line

/-- The lines of comments from an open line on. A blank line that is owed after a comment fills its line. -/
def trailingLines (source : String) (isFull : Bool) (line : Line) : List Comment → List Line
  | [] => [line]
  | c :: rest =>
    let place := line.put source isFull c
    if c.blankAfter = some true then place.1 ++ place.2 :: trailingLines source (!c.isBlock) .blank rest
    else place.1 ++ trailingLines source (!c.isBlock) place.2 rest

/-- The lines, one under the other, without the spaces and tabs at their ends. -/
def spellLines (lines : List Line) : List Char := lines.flatMap fun line => Doc.trimmed line.text ++ ['\n']

/-! ### Each comment by itself -/

/-- What a comment puts behind a line, held back or not. -/
def behindDoc (source : String) (isFull : Bool) (c : Comment) : Doc :=
  if isFull || Text.startsLine source c.span.start then
    .concat [Doc.hardLine, if Text.followsEmptyLine source c.span.start then Doc.hardLine else Doc.empty, c.doc.plain]
  else .concat [.text " ", c.doc.plain]

def behindDocs (source : String) (isFull : Bool) : List Comment → List Doc
  | [] => []
  | c :: rest => c.behindDoc source isFull :: behindDocs source (!c.isBlock) rest

section
variable {c : Comment}

theorem plain_doc (one_line : '\n' ∉ c.text.toList) :
    c.doc.plain = if c.blankAfter = some true then .concat [.text c.text, Doc.hardLine] else .text c.text := by
  have short : c.isDoc = false := by simp [isDoc, Text.lines, Text.pieces_of_not_mem one_line]
  rw [doc, short]
  split <;> rfl

theorem isStraight_behindDoc (one_line : '\n' ∉ c.text.toList) (source : String) (isFull : Bool) :
    (c.behindDoc source isFull).isStraight := by
  have own : c.doc.plain.isStraight := by
    rw [plain_doc one_line]
    split <;> rfl
  unfold behindDoc
  split
  · split <;> simpa [Doc.isStraight, Doc.areStraight, Doc.hardLine, Doc.empty] using own
  · simpa [Doc.isStraight, Doc.areStraight] using own

end

def followsInline (before : Option Trail) : Bool := (before.map fun trail => trail.isSuffix && !trail.isBlock).getD false

def followsSuffix (before : Option Trail) : Bool := (before.map Trail.isSuffix).getD false

/-- The document holds a suffix back and writes nothing. -/
inductive Holds (suffix : Doc) : Doc → Prop where
  | alone : Holds suffix (.lineSuffix suffix)
  | unmarked : Holds suffix (.concat [.lineSuffix suffix, Doc.empty])
  | marked : Holds suffix (.concat [.lineSuffix suffix, .breakParent])

/-- A comment is held back, or is a block comment that comes after none that is. -/
theorem plain_trailingDoc (c : Comment) (source : String) (before : Option Trail) :
    (Holds (c.behindDoc source (followsInline before)) (c.trailingDoc source before).1.plain ∧
        (c.trailingDoc source before).2 = ⟨c.isBlock, true⟩) ∨
      (c.trailingDoc source before).1.plain = c.behindDoc source (followsInline before) ∧
        (c.trailingDoc source before).2 = ⟨true, false⟩ ∧ c.isBlock = true ∧ followsSuffix before = false := by
  by_cases starts : followsInline before || Text.startsLine source c.span.start
  · have printed : c.trailingDoc source before =
        (.lineSuffix (.concat [Doc.hardLine,
          if Text.followsEmptyLine source c.span.start then Doc.hardLine else Doc.empty, c.doc]), ⟨c.isBlock, true⟩) :=
      if_pos starts
    refine .inl ⟨?_, congrArg Prod.snd printed⟩
    rw [behindDoc, if_pos starts, printed]
    split <;> exact .alone
  · rw [behindDoc, if_neg starts]
    by_cases held : !c.isBlock || followsSuffix before
    · have printed : c.trailingDoc source before =
          (.concat [.lineSuffix (.concat [.text " ", c.doc]), if c.isBlock then Doc.empty else .breakParent],
            ⟨c.isBlock, true⟩) :=
        (if_neg starts).trans (if_pos held)
      refine .inl ⟨?_, congrArg Prod.snd printed⟩
      rw [printed]
      split
      · exact .unmarked
      · exact .marked
    · have printed : c.trailingDoc source before = (.concat [.text " ", c.doc], ⟨c.isBlock, false⟩) :=
        (if_neg starts).trans (if_neg held)
      simp only [Bool.or_eq_true, Bool.not_eq_true', not_or, Bool.not_eq_false, Bool.not_eq_true] at held
      exact .inr ⟨congrArg (fun shown => shown.1.plain) printed, by rw [printed, held.1], held.1, held.2⟩

open Doc (unindented)

section
variable {settings : FormatSettings} {canvas : Doc.Canvas}

theorem run_next {task : Doc.Task} {rest suffixes left held : List Doc.Task} {next : Doc.Canvas}
    (step : Doc.advance settings canvas task rest suffixes = ⟨next, left, held⟩) :
    Doc.run settings canvas (task :: rest) suffixes = Doc.run settings next left held := by
  rw [Doc.run, step]

theorem run_holds {suffix doc : Doc} (holds : Holds suffix doc) {left : List Doc.Task} (more : left ≠ [])
    (suffixes : List Doc) :
    Doc.run settings canvas (⟨[], .broken, doc⟩ :: left) (unindented suffixes) =
      Doc.run settings canvas left (unindented (suffixes ++ [suffix])) := by
  obtain ⟨task, rest, rfl⟩ := List.exists_cons_of_ne_nil more
  rw [Doc.unindented_append]
  cases holds with
  | alone => exact run_next rfl
  | unmarked =>
    have nothing : canvas.write "" = canvas := by simp [Doc.Canvas.write]
    calc
      _ = Doc.run settings canvas (⟨[], .broken, .lineSuffix suffix⟩ :: ⟨[], .broken, Doc.empty⟩ :: task :: rest)
          (unindented suffixes) := run_next rfl
      _ = Doc.run settings canvas (⟨[], .broken, Doc.empty⟩ :: task :: rest)
          (unindented suffixes ++ unindented [suffix]) := run_next rfl
      _ = Doc.run settings (canvas.write "") (task :: rest) (unindented suffixes ++ unindented [suffix]) := run_next rfl
      _ = _ := by rw [nothing]
  | marked => exact (run_next rfl).trans ((run_next rfl).trans (run_next rfl))

theorem written_hardLine {suffixes : List Doc} (straight : Doc.areStraight suffixes) :
    (Doc.run settings canvas (unindented [Doc.hardLine]) (unindented suffixes)).written.reverse =
      Doc.drawnAll canvas.written.reverse (suffixes ++ [Doc.hardLine]) := by
  have flushed : Doc.run settings canvas (unindented [Doc.hardLine]) (unindented suffixes) =
      Doc.run settings canvas (unindented (suffixes ++ [.lineEnd, .breakParent]) ++ []) [] := by
    rw [Doc.unindented_append, List.append_nil]
    cases suffixes with
    | nil => exact run_next rfl
    | cons suffix suffixes => exact (run_next rfl).trans (run_next rfl)
  have all : Doc.areStraight (suffixes ++ [.lineEnd, .breakParent]) := by
    rw [Doc.areStraight_append, straight]
    rfl
  obtain ⟨next, same, written⟩ := Doc.runAll_straight _ all settings canvas []
  rw [flushed, same, Doc.run, written, Doc.drawnAll_append, Doc.drawnAll_append]
  rfl

theorem written_trailingDocs (settings : FormatSettings) (source : String) {comments : List Comment}
    (one_line : ∀ c ∈ comments, '\n' ∉ c.text.toList) (before : Option Trail) (canvas : Doc.Canvas)
    {suffixes : List Doc} (straight : Doc.areStraight suffixes) (held : followsSuffix before = false → suffixes = []) :
    (Doc.run settings canvas (unindented (Doc.plains (trailingDocs source before comments)) ++ unindented [Doc.hardLine])
        (unindented suffixes)).written.reverse =
      Doc.drawnAll canvas.written.reverse
        (suffixes ++ behindDocs source (followsInline before) comments ++ [Doc.hardLine]) := by
  induction comments generalizing before canvas suffixes with
  | nil =>
    rw [behindDocs, List.append_nil]
    exact written_hardLine straight
  | cons c comments ih =>
    obtain ⟨first, others⟩ := List.forall_mem_cons.mp one_line
    have own := isStraight_behindDoc first source (followsInline before)
    have inline : followsInline (some (c.trailingDoc source before).2) = !c.isBlock := by
      obtain ⟨_, trail⟩ | ⟨_, trail, block, _⟩ := plain_trailingDoc c source before
      · simp [trail, followsInline]
      · simp [trail, followsInline, block]
    have later := fun canvas suffixes => @ih others (some (c.trailingDoc source before).2) canvas suffixes
    rw [inline] at later
    obtain ⟨holds, trail⟩ | ⟨printed, trail, block, free⟩ := plain_trailingDoc c source before
    · have all : Doc.areStraight (suffixes ++ [c.behindDoc source (followsInline before)]) := by
        rw [Doc.areStraight_append, straight]
        simpa [Doc.areStraight] using own
      have written := later canvas _ all (by simp [trail, followsSuffix])
      rw [← run_holds holds (by simp [unindented]), List.append_assoc suffixes] at written
      exact written
    · obtain rfl := held free
      obtain ⟨next, same, here⟩ := Doc.run_straight _ own settings canvas
        (unindented (Doc.plains (trailingDocs source (some (c.trailingDoc source before).2) comments)) ++
          unindented [Doc.hardLine])
      rw [← printed] at same
      have written := later next [] rfl (fun _ => rfl)
      rw [here] at written
      exact (congrArg (fun canvas => canvas.written.reverse) same).trans written

end

/-! ### Filling lines -/

theorem spellLines_append (xs ys : List Line) : spellLines (xs ++ ys) = spellLines xs ++ spellLines ys :=
  List.flatMap_append

theorem trimmed_spellLines_append (lines : List Line) (cs : List Char) :
    Doc.trimmed (spellLines lines ++ cs) = spellLines lines ++ Doc.trimmed cs := by
  rcases List.eq_nil_or_concat lines with rfl | ⟨lines, last, rfl⟩
  · rfl
  · have cut := Doc.trimmed_append_feed (spellLines lines ++ Doc.trimmed last.text) cs
    simpa [spellLines] using cut

theorem drawn_hardLine (full : List Line) (line : Line) :
    Doc.drawn (spellLines full ++ line.text) Doc.hardLine = spellLines (full ++ [line]) ++ Line.blank.text := by
  change Doc.trimmed (spellLines full ++ line.text) ++ ['\n'] = _
  rw [trimmed_spellLines_append, spellLines_append, show Line.blank.text = [] from rfl]
  simp [spellLines]

section
variable {c : Comment} (one_line : '\n' ∉ c.text.toList)
include one_line

theorem drawn_doc (full : List Line) {cs : List Char} {line : Line} (same : cs ++ c.text.toList = line.text) :
    c.doc.plain.drawn (spellLines full ++ cs) =
      if c.blankAfter = some true then spellLines (full ++ [line]) ++ Line.blank.text
      else spellLines full ++ line.text := by
  rw [plain_doc one_line]
  split
  · change Doc.drawn (spellLines full ++ cs ++ c.text.toList) Doc.hardLine = _
    rw [List.append_assoc, same, drawn_hardLine]
  · change spellLines full ++ cs ++ c.text.toList = _
    rw [List.append_assoc, same]

theorem drawn_behindDoc (source : String) (isFull : Bool) (full : List Line) (line : Line) :
    let place := line.put source isFull c
    (c.behindDoc source isFull).drawn (spellLines full ++ line.text) =
      if c.blankAfter = some true then spellLines (full ++ place.1 ++ [place.2]) ++ Line.blank.text
      else spellLines (full ++ place.1) ++ place.2.text := by
  intro place
  by_cases starts : isFull || Text.startsLine source c.span.start
  · have own : Line.blank.text ++ c.text.toList = Line.text ⟨.inr c, []⟩ := (List.append_nil _).symm
    simp only [place, behindDoc, Line.put, if_pos starts]
    split
    · change c.doc.plain.drawn (Doc.drawn (Doc.drawn (spellLines full ++ line.text) Doc.hardLine) Doc.hardLine) = _
      rw [drawn_hardLine, drawn_hardLine, drawn_doc one_line _ own, List.append_assoc full]
      rfl
    · change c.doc.plain.drawn (Doc.drawn (spellLines full ++ line.text) Doc.hardLine ++ []) = _
      rw [List.append_nil, drawn_hardLine, drawn_doc one_line _ own]
  · have behind : (line.text ++ [' ']) ++ c.text.toList = Line.text { line with behind := line.behind ++ [c] } := by
      simp [Line.text]
    simp only [place, behindDoc, Line.put, if_neg starts, List.append_nil]
    change c.doc.plain.drawn (spellLines full ++ line.text ++ [' ']) = _
    rw [List.append_assoc, drawn_doc one_line _ behind]

end

theorem drawnAll_behindDocs (source : String) {comments : List Comment}
    (one_line : ∀ c ∈ comments, '\n' ∉ c.text.toList) (isFull : Bool) (full : List Line) (line : Line) :
    Doc.drawnAll (spellLines full ++ line.text) (behindDocs source isFull comments ++ [Doc.hardLine]) =
      spellLines (full ++ trailingLines source isFull line comments) := by
  induction comments generalizing isFull full line with
  | nil => exact (drawn_hardLine full line).trans (List.append_nil _)
  | cons c comments ih =>
    obtain ⟨first, others⟩ := List.forall_mem_cons.mp one_line
    change Doc.drawnAll ((c.behindDoc source isFull).drawn (spellLines full ++ line.text)) _ = _
    rw [drawn_behindDoc first, trailingLines]
    split
    · simpa using ih others (!c.isBlock) (full ++ (line.put source isFull c).1 ++ [(line.put source isFull c).2]) .blank
    · simpa using ih others (!c.isBlock) (full ++ (line.put source isFull c).1) (line.put source isFull c).2

/-! ### What is on the lines -/

theorem suffix_text {line : Line} {c : Comment} (last : line.comments.getLast? = some c) : c.text.toList <:+ line.text := by
  obtain ⟨start, behind⟩ := line
  rcases List.eq_nil_or_concat behind with rfl | ⟨behind, other, rfl⟩
  · cases start with
    | inl value => cases last
    | inr first =>
      cases last
      exact ⟨[], (List.append_nil _).symm⟩
  · obtain rfl : other = c := by simpa [Line.comments] using last
    refine ⟨(start.elim id Comment.text).toList ++ (behind.flatMap fun c => ' ' :: c.text.toList) ++ [' '], ?_⟩
    simp [Line.text]

section
variable (source : String)

/-- A comment has a line of its own, with at most a blank one before it, or stands behind others that leave
    room for it. -/
theorem put_cases (isFull : Bool) (line : Line) (c : Comment) :
    (line.put source isFull c = ([line], ⟨.inr c, []⟩) ∨ line.put source isFull c = ([line, .blank], ⟨.inr c, []⟩)) ∨
      isFull = false ∧ line.put source isFull c = ([], { line with behind := line.behind ++ [c] }) := by
  unfold Line.put
  split
  · split
    · exact .inl (.inr rfl)
    · exact .inl (.inl rfl)
  · next room => exact .inr ⟨by simp_all, rfl⟩

section
variable (isFull : Bool) (line : Line) (comments : List Comment)

theorem comments_trailingLines :
    (trailingLines source isFull line comments).flatMap Line.comments = line.comments ++ comments := by
  induction comments generalizing isFull line with
  | nil => simp [trailingLines]
  | cons c comments ih =>
    have none : Line.blank.comments = [] := rfl
    have place : (line.put source isFull c).1.flatMap Line.comments ++ (line.put source isFull c).2.comments =
        line.comments ++ [c] := by
      obtain (put | put) | ⟨_, put⟩ := put_cases source isFull line c
      all_goals simp [put, Line.comments, Line.blank]
    rw [trailingLines]
    split
    · rw [List.flatMap_append, List.flatMap_cons, ih, none, List.nil_append, ← List.append_assoc, place,
        List.append_assoc, List.singleton_append]
    · rw [List.flatMap_append, ih, ← List.append_assoc, place, List.append_assoc, List.singleton_append]

/-- The first line starts as the open one does, and every other with a comment or with nothing. -/
theorem starts_trailingLines :
    ∃ more, (trailingLines source isFull line comments).map Line.start = line.start :: more ∧
      ∀ value, .inl value ∈ more → value = "" := by
  induction comments generalizing isFull line with
  | nil => exact ⟨[], rfl, by simp⟩
  | cons c comments ih =>
    have place : ∃ extra, (line.put source isFull c).1.map Line.start ++ [(line.put source isFull c).2.start] =
        line.start :: extra ∧ ∀ value, .inl value ∈ extra → value = "" := by
      obtain (put | put) | ⟨_, put⟩ := put_cases source isFull line c
      · exact ⟨[.inr c], by rw [put]; rfl, by simp⟩
      · exact ⟨[.inl "", .inr c], by rw [put]; rfl, by simp⟩
      · exact ⟨[], by rw [put]; rfl, by simp⟩
    obtain ⟨extra, here, empty⟩ := place
    rw [trailingLines]
    split
    · obtain ⟨more, there, blank⟩ := ih (!c.isBlock) .blank
      refine ⟨extra ++ .inl "" :: more, ?_, by grind⟩
      rw [List.map_append, List.map_cons, there, ← List.cons_append, ← here]
      simp [Line.blank]
    · obtain ⟨more, there, blank⟩ := ih (!c.isBlock) (line.put source isFull c).2
      refine ⟨extra ++ more, ?_, by grind⟩
      rw [List.map_append, there, ← List.cons_append, ← here]
      simp

theorem isBlock_trailingLines (last : ∀ other ∈ line.comments.dropLast, other.isBlock)
    (room : isFull = false → ∀ other ∈ line.comments, other.isBlock) :
    ∀ full ∈ trailingLines source isFull line comments, ∀ other ∈ full.comments.dropLast, other.isBlock := by
  induction comments generalizing isFull line with
  | nil =>
    intro full member
    rw [List.mem_singleton.mp member]
    exact last
  | cons c comments ih =>
    have nothing : Line.blank.comments = [] := rfl
    have before : ∀ full ∈ (line.put source isFull c).1, ∀ other ∈ full.comments.dropLast, other.isBlock := by
      obtain (put | put) | ⟨_, put⟩ := put_cases source isFull line c
      · simpa [put] using last
      · simpa [put, nothing] using last
      · simp [put]
    have here : ∃ others, (line.put source isFull c).2.comments = others ++ [c] ∧ ∀ other ∈ others, other.isBlock := by
      obtain (put | put) | ⟨free, put⟩ := put_cases source isFull line c
      · exact ⟨[], by rw [put]; rfl, by simp⟩
      · exact ⟨[], by rw [put]; rfl, by simp⟩
      · exact ⟨line.comments, by simp [put, Line.comments], room free⟩
    obtain ⟨others, whole, block⟩ := here
    have last : ∀ other ∈ (line.put source isFull c).2.comments.dropLast, other.isBlock := by
      rwa [whole, List.dropLast_concat]
    rw [trailingLines]
    intro full member
    split at member
    · rcases List.mem_append.mp member with early | late
      · exact before full early
      · rcases List.mem_cons.mp late with rfl | later
        · exact last
        · exact ih _ .blank (by simp [nothing]) (by simp [nothing]) full later
    · rcases List.mem_append.mp member with early | late
      · exact before full early
      · refine ih _ _ last ?_ full late
        rw [whole]
        grind

end

end

theorem Holds.spreadBreaks {suffix doc : Doc} (holds : Holds suffix doc) (same : suffix.spreadBreaks.1 = suffix) :
    doc.spreadBreaks.1 = doc := by
  cases holds <;> simp [Doc.spreadBreaks, Doc.spreadBreaksAll, Doc.empty, same]

theorem spreadBreaks_trailingDocs (source : String) {comments : List Comment}
    (one_line : ∀ c ∈ comments, '\n' ∉ c.text.toList) (before : Option Trail) :
    ∀ doc ∈ Doc.plains (trailingDocs source before comments), doc.spreadBreaks.1 = doc := by
  induction comments generalizing before with
  | nil => simp [trailingDocs, Doc.plains]
  | cons c comments ih =>
    obtain ⟨first, others⟩ := List.forall_mem_cons.mp one_line
    refine List.forall_mem_cons.mpr ⟨?_, ih others _⟩
    have own := Doc.spreadBreaks_straight _ (isStraight_behindDoc first source (followsInline before))
    obtain ⟨holds, _⟩ | ⟨printed, _⟩ := plain_trailingDoc c source before
    · exact holds.spreadBreaks own
    · exact printed ▸ own

theorem toList_render_trailingDocs (settings : FormatSettings) (source text : String) {comments : List Comment}
    (one_line : ∀ c ∈ comments, '\n' ∉ c.text.toList) :
    (Doc.render settings (.concat (.text text :: trailingDocs source none comments ++ [Doc.hardLine]))).toList =
      spellLines (trailingLines source false ⟨.inl text, []⟩ comments) := by
  let docs : List Doc := .text text :: Doc.plains (trailingDocs source none comments) ++ [Doc.hardLine]
  have plain : (.concat (.text text :: trailingDocs source none comments ++ [Doc.hardLine]) : Draft).plain =
      .concat docs := by
    simp [Doc.plain, Doc.plains_eq_map, Doc.hardLine, docs]
  have same : ∀ doc ∈ docs, doc.spreadBreaks.1 = doc := by
    intro doc member
    rcases List.mem_append.mp member with early | late
    · rcases List.mem_cons.mp early with rfl | behind
      · rfl
      · exact spreadBreaks_trailingDocs source one_line none doc behind
    · rw [List.mem_singleton.mp late]
      rfl
  have unbroken : (.concat docs : Doc).spreadBreaks.1 = .concat docs := by
    have all := Doc.spreadBreaksAll_eq_self same
    exact congrArg Doc.concat all
  have written := written_trailingDocs settings source one_line none (Doc.Canvas.write {} text) rfl fun _ => rfl
  have start : (Doc.Canvas.write {} text).written.reverse = Line.text ⟨.inl text, []⟩ := by
    simp [Doc.Canvas.write, Line.text]
  have lines := drawnAll_behindDocs source one_line false [] ⟨.inl text, []⟩
  have begun : Doc.run settings {} [⟨[], .broken, .concat docs⟩] [] = Doc.run settings (Doc.Canvas.write {} text)
      (unindented (Doc.plains (trailingDocs source none comments) ++ [Doc.hardLine])) [] := by
    rw [Doc.run_step _ rfl, List.append_nil]
    exact Doc.run_step ⟨[], .broken, .text text⟩ rfl
  rw [start, ← Doc.unindented_append] at written
  rw [Doc.render, String.toList_ofList, plain, unbroken, begun]
  exact written.trans lines

/-- Comments behind a text come in their order on lines of which the first starts with the text, and nothing
    comes between an inline comment and the end of its line but spaces and tabs, which are not written. -/
theorem render_trailingDocs (settings : FormatSettings) (source text : String) {comments : List Comment}
    (one_line : ∀ c ∈ comments, '\n' ∉ c.text.toList) :
    let lines := trailingLines source false ⟨.inl text, []⟩ comments
    (Doc.render settings (.concat (.text text :: trailingDocs source none comments ++ [Doc.hardLine]))).toList =
        lines.flatMap (fun line => Doc.trimmed line.text ++ ['\n']) ∧
      (∃ more, lines.map Line.start = .inl text :: more ∧ ∀ value, .inl value ∈ more → value = "") ∧
      lines.flatMap Line.comments = comments ∧
      ∀ line ∈ lines, (∀ c ∈ line.comments.dropLast, c.isBlock) ∧
        ∀ c, line.comments.getLast? = some c → c.text.toList <:+ line.text := by
  intro lines
  refine ⟨?_, starts_trailingLines source false _ comments, comments_trailingLines source false _ comments, ?_⟩
  · exact toList_render_trailingDocs settings source text one_line
  · intro line member
    refine ⟨?_, fun c => suffix_text⟩
    exact isBlock_trailingLines source false _ comments (by simp [Line.comments]) (by simp [Line.comments]) line member

unseal Text.skip in
/-- The first comment is written at once and the other two are held back. The last one owes a blank line. -/
theorem render_trailingDocs_mixed :
    let source := "x /*a*/ // b\n/*c*/"
    let comments : List Comment :=
      [{ kind := .block, text := "/*a*/", span := ⟨2, 7⟩ }, { kind := .inline, text := "// b", span := ⟨8, 12⟩ },
        { kind := .block, text := "/*c*/", span := ⟨13, 18⟩, blankAfter := some true }]
    (∀ c ∈ comments, '\n' ∉ c.text.toList) ∧
      (Doc.render {} (.concat (.text "x" :: trailingDocs source none comments ++ [Doc.hardLine]))).toList =
        "x /*a*/ // b\n/*c*/\n\n".toList := by
  intro source comments
  have one_line : ∀ c ∈ comments, '\n' ∉ c.text.toList := by decide
  exact ⟨one_line, (render_trailingDocs {} source "x" one_line).1.trans (by decide)⟩

end Comment
end ApexLayout
