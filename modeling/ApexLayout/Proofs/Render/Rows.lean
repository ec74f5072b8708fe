import ApexLayout.Proofs.Render.Suffixes
import ApexLayout.Proofs.Text.Blank

/-!
The lines of a layout. A row keeps apart the margin of a line and what is written behind it. The text is the rows, one
under the other, of which all but the last have lost the spaces and tabs at their ends (`toList_render`).
The ends of the lines. When no text of a document holds a line feed, the lines of its layout are its rows
(`lines_render`), and every row but the last is written without the spaces and tabs at its end.
-/
namespace ApexLayout.Doc

variable {ν : Type}

/-- The characters without the spaces and tabs at their end. -/
def trimmed (cs : List Char) : List Char := (cs.reverse.dropWhile Text.isGap).reverse

def marginColumns (settings : FormatSettings) : List Char → Nat
  | [] => 0
  | c :: cs => (if c = '\t' then settings.tabWidth.toNat else 1) + marginColumns settings cs

structure Row where
  margin : List Char := []
  body : List Char := []
  /-- A line of the document is laid out flat here. -/
  flat : Bool := false
  deriving Repr, DecidableEq

namespace Row

def text (row : Row) : List Char := row.margin ++ row.body

/-- The row without the spaces and tabs at its end, which may be those of the margin. -/
def trim (row : Row) : Row :=
  if (trimmed row.body).isEmpty then { row with margin := trimmed row.margin, body := [] }
  else { row with body := trimmed row.body }

@[simp] theorem text_margin (margin : List Char) : ({ margin := margin } : Row).text = margin := List.append_nil _

def columns (settings : FormatSettings) (row : Row) : Nat := marginColumns settings row.margin + row.body.length

end Row

/-- The rows that are ended, and the one that is being written. -/
structure Page where
  ended : List Row := []
  row : Row := {}

namespace Page

def rows (page : Page) : List Row := page.ended ++ [page.row]

/-- Rows that are ended have nothing but a line feed behind their ink. -/
def text (page : Page) : List Char := (page.ended.flatMap fun row => trimmed row.text ++ ['\n']) ++ page.row.text

def write (page : Page) (cs : List Char) : Page := { page with row := { page.row with body := page.row.body ++ cs } }

def draw (settings : FormatSettings) (page : Page) : Stroke ν → Page
  | .text value _ => page.write value.toList
  | .flat soft =>
    let page := page.write (if soft then [] else [' '])
    { page with row := { page.row with flat := true } }
  | .feed indentation => ⟨page.rows, { margin := (Margin.ofIndentation settings indentation).text }⟩
  | .trim => { page with row := page.row.trim }

end Page

def rows (settings : FormatSettings) (doc : Doc ν) : List Row :=
  ((doc.strokes settings).foldl (Page.draw settings) {}).rows

def spellRows : List Row → List Char
  | [] => []
  | [row] => row.text
  | row :: rows => trimmed row.text ++ '\n' :: spellRows rows

/-- Spaces and tabs are taken away up to a line feed, and not beyond. -/
theorem trimmed_append_feed (before cs : List Char) : trimmed (before ++ '\n' :: cs) = before ++ '\n' :: trimmed cs := by
  have feed : Text.isGap '\n' = false := by decide
  have kept : (cs.reverse ++ '\n' :: before.reverse).dropWhile Text.isGap =
      cs.reverse.dropWhile Text.isGap ++ '\n' :: before.reverse := by
    rw [List.dropWhile_append]
    split
    · next nothing =>
      rw [List.isEmpty_iff] at nothing
      simp [nothing, feed]
    · rfl
  simp [trimmed, kept]

theorem trimmed_text (row : Row) : trimmed row.text = row.trim.text := by
  simp only [trimmed, Row.text, Row.trim, List.reverse_append, List.dropWhile_append, List.isEmpty_reverse]
  split <;> simp

namespace Page

theorem trimmed_text (page : Page) : trimmed page.text = { page with row := page.row.trim }.text := by
  obtain ⟨ended, row⟩ := page
  rcases List.eq_nil_or_concat ended with rfl | ⟨ended, last, rfl⟩
  · simpa [text] using Doc.trimmed_text row
  · have cut := trimmed_append_feed ((ended.flatMap fun row => trimmed row.text ++ ['\n']) ++ trimmed last.text) row.text
    simpa [text, ← Doc.trimmed_text] using cut

theorem reverse_text_draw (settings : FormatSettings) (page : Page) (stroke : Stroke ν) :
    stroke.draw settings page.text.reverse = (page.draw settings stroke).text.reverse := by
  have cut : page.text.reverse.dropWhile Text.isGap = { page with row := page.row.trim }.text.reverse := by
    rw [← page.trimmed_text, trimmed, List.reverse_reverse]
  cases stroke with
  | text value label => simp [Stroke.draw, draw, write, text, Row.text]
  | flat soft => cases soft <;> simp [Stroke.draw, draw, write, text, Row.text]
  | feed indentation =>
    rw [Stroke.draw, cut]
    simp [draw, rows, text, Doc.trimmed_text]
  | trim => exact cut

theorem reverse_text_foldl (settings : FormatSettings) (page : Page) (strokes : List (Stroke ν)) :
    strokes.foldl (Stroke.draw settings) page.text.reverse = (strokes.foldl (draw settings) page).text.reverse := by
  induction strokes generalizing page with
  | nil => rfl
  | cons stroke strokes ih => rw [List.foldl_cons, reverse_text_draw, ih, List.foldl_cons]

theorem text_eq_spellRows (page : Page) : page.text = spellRows page.rows := by
  obtain ⟨ended, row⟩ := page
  induction ended with
  | nil => simp [text, rows, spellRows]
  | cons first ended ih =>
    have more : spellRows (first :: (ended ++ [row])) = trimmed first.text ++ '\n' :: spellRows (ended ++ [row]) := by
      cases ended <;> rfl
    simpa [text, rows, more] using ih

end Page

section
variable (settings : FormatSettings)

/-- The text of a document is made of its rows. -/
theorem toList_render (doc : Doc ν) :
    (render settings doc).toList = spellRows (doc.rows settings) := by
  have drawn := Page.reverse_text_foldl settings {} (doc.strokes settings)
  rw [render_eq_spell, Stroke.spell, String.toList_ofList, rows, ← Page.text_eq_spellRows]
  rw [← List.reverse_inj, List.reverse_reverse]
  exact drawn

theorem marginColumns_append (first rest : List Char) :
    marginColumns settings (first ++ rest) = marginColumns settings first + marginColumns settings rest := by
  induction first with
  | nil => simp [marginColumns]
  | cons c cs ih => simp [marginColumns, ih, Nat.add_assoc]

theorem marginColumns_spaces (n : Nat) :
    marginColumns settings (List.replicate n ' ') = n := by
  induction n with
  | zero => rfl
  | succ n ih => simp [List.replicate_succ, marginColumns, ih, Nat.add_comm]

theorem marginColumns_tabs (n : Nat) :
    marginColumns settings (List.replicate n '\t') = settings.tabWidth.toNat * n := by
  induction n with
  | zero => rfl
  | succ n ih => simp [List.replicate_succ, marginColumns, ih, Nat.mul_succ, Nat.add_comm]

end

namespace Margin

def Measured (settings : FormatSettings) (m : Margin) : Prop := m.width = marginColumns settings m.text

variable {settings : FormatSettings} {m : Margin}

theorem Measured.spaces (measured : m.Measured settings) (n : Nat) : (m.spaces n).Measured settings := by
  simp only [Measured, Margin.spaces, marginColumns_append, marginColumns_spaces, Nat.add_right_cancel_iff]
  exact measured

theorem Measured.tabs (measured : m.Measured settings) (n : Nat) : (m.tabs settings n).Measured settings := by
  simp only [Measured, Margin.tabs, marginColumns_append, marginColumns_tabs, Nat.add_right_cancel_iff]
  exact measured

theorem Measured.step (measured : m.Measured settings) (step : Step) : (m.step settings step).Measured settings := by
  cases step with
  | level =>
    unfold Margin.step
    by_cases tabs : settings.useTabs
    · simp only [tabs, ↓reduceIte]
      exact (measured.tabs _).tabs _
    · simp only [tabs]
      exact (measured.spaces _).spaces _
  | columns n => exact measured

theorem width_ofIndentation (settings : FormatSettings) (steps : Indentation) :
    (ofIndentation settings steps).width = marginColumns settings (ofIndentation settings steps).text := by
  have folded : ∀ (steps : List Step) (m : Margin), m.Measured settings →
      (steps.foldl (Margin.step settings) m).Measured settings := by
    intro steps
    induction steps with
    | nil => exact fun m measured => measured
    | cons step steps ih => exact fun m measured => ih _ (measured.step step)
  exact (folded steps.reverse ⟨[], 0, 0, 0⟩ rfl).spaces _

end Margin

theorem mem_of_mem_trimmed {c : Char} {cs : List Char} (member : c ∈ trimmed cs) : c ∈ cs :=
  List.mem_reverse.mp ((List.dropWhile_suffix _).subset (List.mem_reverse.mp member))

theorem isGap_getLast?_trimmed {c : Char} {cs : List Char} (last : c ∈ (trimmed cs).getLast?) : Text.isGap c = false := by
  have first := List.head?_dropWhile_not Text.isGap cs.reverse
  rw [trimmed, List.getLast?_reverse] at last
  rw [last] at first
  exact Bool.not_eq_true _ ▸ by simpa using first

namespace Page

/-- Line feeds stand only between the rows. -/
structure Unbroken (page : Page) : Prop where
  ended : ∀ row ∈ page.ended, '\n' ∉ row.text
  row : '\n' ∉ page.row.text

variable {page : Page}

theorem Unbroken.write (unbroken : page.Unbroken) {cs : List Char} (none_there : '\n' ∉ cs) : (page.write cs).Unbroken :=
  ⟨unbroken.ended, by simpa [Page.write, Row.text, none_there] using unbroken.row⟩

theorem Unbroken.draw (unbroken : page.Unbroken) (settings : FormatSettings) {stroke : Stroke ν}
    (one_line : ∀ value ∈ stroke.text?, '\n' ∉ value.toList) : (page.draw settings stroke).Unbroken := by
  cases stroke with
  | text value label => exact unbroken.write (one_line value rfl)
  | flat soft =>
    have blank : '\n' ∉ if soft then [] else [' '] := by cases soft <;> simp
    have written := unbroken.write blank
    exact ⟨written.ended, written.row⟩
  | feed indentation =>
    refine ⟨fun row member => ?_, fun member => ?_⟩
    · rcases List.mem_append.mp member with before | here
      · exact unbroken.ended row before
      · rw [List.mem_singleton.mp here]
        exact unbroken.row
    · rw [Page.draw, Row.text_margin] at member
      exact absurd (Margin.ofIndentation_gaps settings indentation '\n' member) (by decide)
  | trim =>
    refine ⟨unbroken.ended, fun member => unbroken.row (mem_of_mem_trimmed ?_)⟩
    rwa [Doc.trimmed_text]

theorem Unbroken.foldl (unbroken : page.Unbroken) (settings : FormatSettings) {strokes : List (Stroke ν)}
    (one_line : ∀ value ∈ strokes.filterMap Stroke.text?, '\n' ∉ value.toList) :
    (strokes.foldl (Page.draw settings) page).Unbroken := by
  induction strokes generalizing page with
  | nil => exact unbroken
  | cons stroke strokes ih =>
    refine ih (unbroken.draw settings fun value here => one_line value ?_) fun value later => one_line value ?_
    · exact List.mem_filterMap.mpr ⟨stroke, List.mem_cons_self, here⟩
    · obtain ⟨stroke, member, is_value⟩ := List.mem_filterMap.mp later
      exact List.mem_filterMap.mpr ⟨stroke, List.mem_cons_of_mem _ member, is_value⟩

theorem Unbroken.pieces_text (unbroken : page.Unbroken) :
    Text.pieces '\n' page.text = page.ended.map (trimmed ·.text) ++ [page.row.text] := by
  obtain ⟨ended, row⟩ := page
  induction ended with
  | nil => simpa [text] using Text.pieces_of_not_mem unbroken.row
  | cons first ended ih =>
    have alone : '\n' ∉ trimmed first.text := fun member =>
      unbroken.ended first List.mem_cons_self (mem_of_mem_trimmed member)
    have later := ih ⟨fun row member => unbroken.ended row (List.mem_cons_of_mem _ member), unbroken.row⟩
    have split : text ⟨first :: ended, row⟩ = trimmed first.text ++ '\n' :: text ⟨ended, row⟩ := by simp [text]
    rw [split, Text.pieces_append, Text.pieces_of_not_mem alone, later]
    rfl

end Page

variable {doc : Doc ν}

theorem mem_texts_of_strokes (settings : FormatSettings) {value : String}
    (member : value ∈ (doc.strokes settings).filterMap Stroke.text?) : value ∈ doc.texts := by
  have kept := texts_trace settings {} [] [⟨[], .broken, doc.marked, (none : Option ν)⟩]
  simp only [jobTexts_cons, jobTexts_nil, List.append_nil, texts_marked] at kept
  exact kept.subset (List.mem_append_left _ member)

theorem lines_render (settings : FormatSettings) (one_line : ∀ value ∈ doc.texts, '\n' ∉ value.toList) :
    ∃ (ended : List Row) (row : Row), doc.rows settings = ended ++ [row] ∧
      Text.lines (render settings doc) = (ended.map (trimmed ·.text) ++ [row.text]).map String.ofList := by
  have unbroken : Page.Unbroken ((doc.strokes settings).foldl (Page.draw settings) {}) :=
    Page.Unbroken.foldl ⟨by simp, by simp [Row.text]⟩ settings fun value member =>
      one_line value (mem_texts_of_strokes settings member)
  refine ⟨_, _, rfl, ?_⟩
  rw [Text.lines, toList_render, rows, ← Page.text_eq_spellRows, unbroken.pieces_text]

/-- Whatever the texts end in, however lines are indented and whenever suffixes are written: no line that is ended has a
    space or a tab at its end. -/
theorem render_ends_in_ink (settings : FormatSettings) (doc : Doc ν) (one_line : ∀ value ∈ doc.texts, '\n' ∉ value.toList) :
    ∀ line ∈ (Text.lines (render settings doc)).dropLast, ∀ c ∈ line.toList.getLast?, c ≠ ' ' ∧ c ≠ '\t' := by
  obtain ⟨ended, row, -, lines⟩ := lines_render settings one_line
  intro line member c last
  simp only [lines, List.map_append, List.map_cons, List.map_nil, List.dropLast_concat, List.map_map, List.mem_map] at member
  obtain ⟨before, -, rfl⟩ := member
  have ink : Text.isGap c = false := isGap_getLast?_trimmed (by simpa using last)
  simpa [Text.isGap] using ink

theorem render_ends_in_ink_suffix :
    let doc : Doc := .indent (.concat ["a \t", .lineSuffix " ", hardLine, hardLine, "b "])
    (∀ value ∈ doc.texts, '\n' ∉ value.toList) ∧ Text.lines (render {} doc) = ["a", "", "  b "] ∧
      ∀ c ∈ "a".toList.getLast?, c ≠ ' ' ∧ c ≠ '\t' := by
  intro doc
  have one_line : ∀ value ∈ doc.texts, '\n' ∉ value.toList := by decide
  have lines : Text.lines (render {} doc) = ["a", "", "  b "] := by cbv
  exact ⟨one_line, lines, render_ends_in_ink {} doc one_line "a" (by simp [lines])⟩

end ApexLayout.Doc
