import ApexLayout.Proofs.Render.Guard
import ApexLayout.Comment.Basic
import ApexLayout.Proofs.Render.Texts

/-!
Documents that can be put together freely under a guard. A tame document leaves no alarm behind and holds nothing back
that may not be written behind one. Other documents go astray, and are tame only together with a line end behind them.
Comments under guard. Behind an inline comment there may be white space and comments that are exposed: some held back to
the end of the line, some at an annotation, and some that follow another one in an empty body.
-/
namespace ApexLayout

namespace Doc

variable {ν : Type} {docs : List (Doc ν)}

/-- A document that heeds the guard and leaves no alarm and nothing that an alarm could meet. -/
def Tame (guard : Guard ν) (doc : Doc ν) : Prop := doc.heeds guard .flat none .calm (· ≤ .calm)

def TameAll (guard : Guard ν) (docs : List (Doc ν)) : Prop := ∀ doc ∈ docs, Tame guard doc

/-- Documents that are tame together. -/
def Settles (guard : Guard ν) (docs : List (Doc ν)) : Prop := heedsAll guard .flat none .calm (· ≤ .calm) docs

/-- Documents that heed the guard from here, whatever they leave. -/
def Strays (guard : Guard ν) (s : Watch) (docs : List (Doc ν)) : Prop :=
  heedsAll guard .flat none s (fun _ => True) docs

/-- A document that ends the line before it does anything else. -/
def Resets (guard : Guard ν) (doc : Doc ν) : Prop := ∀ s, doc.heeds guard .flat none s (· ≤ .calm)

section
variable {guard : Guard ν} {mode : Mode} {label : Option ν} {s : Watch} {k : Watch → Prop}

theorem heedsAll_append (first rest : List (Doc ν)) :
    heedsAll guard mode label s k (first ++ rest) ↔
      heedsAll guard mode label s (fun t => heedsAll guard mode label t k rest) first := by
  induction first generalizing s with
  | nil => rfl
  | cons doc first ih => simp only [List.cons_append, heedsAll, ih]

theorem heedsAll_tame (tame : TameAll guard docs) (calm : s ≤ .calm) :
    heedsAll guard .flat none s (· ≤ .calm) docs := by
  induction docs generalizing s with
  | nil => exact calm
  | cons doc docs ih =>
    refine heeds_mono calm id ?_ doc (tame doc List.mem_cons_self)
    intro s t below calm
    exact ih (fun doc member => tame doc (List.mem_cons_of_mem _ member)) (Watch.le_trans below calm)

end

section
variable {guard : Guard ν}

@[simp] theorem tameAll_nil : TameAll guard [] := nofun

@[simp] theorem tameAll_cons (doc : Doc ν) (docs : List (Doc ν)) :
    TameAll guard (doc :: docs) ↔ Tame guard doc ∧ TameAll guard docs := List.forall_mem_cons

@[simp] theorem tameAll_append (first rest : List (Doc ν)) :
    TameAll guard (first ++ rest) ↔ TameAll guard first ∧ TameAll guard rest := List.forall_mem_append

@[simp] theorem tameAll_ite (p : Prop) [Decidable p] (first second : List (Doc ν)) :
    TameAll guard (if p then first else second) ↔ if p then TameAll guard first else TameAll guard second := by
  split <;> rfl

@[simp] theorem tame_ite (p : Prop) [Decidable p] (first second : Doc ν) :
    Tame guard (if p then first else second) ↔ if p then Tame guard first else Tame guard second := by
  split <;> rfl

theorem TameAll.filter (tame : TameAll guard docs) (keep : Doc ν → Bool) :
    TameAll guard (docs.filter keep) := fun doc member => tame doc (List.mem_filter.mp member).1

@[simp] theorem tame_text (value : String) : Tame guard (.text value) := by
  simp [Tame, heeds, Guard.sounds]

@[simp] theorem tame_empty : Tame guard empty := tame_text ""

@[simp] theorem tame_line : Tame guard .line := Watch.le_rfl _

@[simp] theorem tame_softLine : Tame guard .softLine := Watch.le_rfl _

@[simp] theorem tame_breakParent : Tame guard .breakParent := Watch.le_rfl _

theorem TameAll.settles (tame : TameAll guard docs) : Settles guard docs :=
  heedsAll_tame tame (Watch.le_rfl _)

theorem TameAll.strays (tame : TameAll guard docs) : Strays guard .calm docs :=
  heedsAll_mono (Watch.le_rfl _) id (fun _ _ _ _ => trivial) docs tame.settles

/-- Documents one after the other are tame if each is. The other way to see it is stated with it, so
    that this is an equivalence. -/
@[simp] theorem tame_concat (docs : List (Doc ν)) :
    Tame guard (.concat docs) ↔ TameAll guard docs ∨ Settles guard docs :=
  ⟨.inr, fun either => either.elim TameAll.settles id⟩

@[simp] theorem resets_hardLine : Resets guard hardLine := fun _ => Watch.fresh_le _

theorem resets_concat (tame : TameAll guard docs) :
    Resets guard (.concat (hardLine :: docs)) := by
  intro s
  have behind : heedsAll guard .flat none .fresh (· ≤ .calm) docs := heedsAll_tame tame (Watch.fresh_le _)
  exact behind

theorem Resets.tame {doc : Doc ν} (resets : Resets guard doc) : Tame guard doc := resets .calm

@[simp] theorem tame_hardLine : Tame guard hardLine := resets_hardLine.tame

@[simp] theorem tame_fill (contents : Doc ν) : Tame guard (fill contents) ↔ Tame guard contents := Iff.rfl

@[simp] theorem tame_indent (contents : Doc ν) : Tame guard (.indent contents) ↔ Tame guard contents := Iff.rfl

@[simp] theorem tame_indentGroup (contents : Doc ν) : Tame guard (indentGroup contents) ↔ Tame guard contents := Iff.rfl

@[simp] theorem tame_dedent (contents : Doc ν) : Tame guard (.dedent contents) ↔ Tame guard contents := Iff.rfl

@[simp] theorem tame_align (columns : Nat) (contents : Doc ν) :
    Tame guard (.align columns contents) ↔ Tame guard contents := Iff.rfl

@[simp] theorem tame_parts (lists : List (List (Doc ν))) :
    Tame guard (parts lists) ↔ TameAll guard lists.flatten ∨ Settles guard lists.flatten := tame_concat _

theorem TameAll.joinParts {separator : Doc ν} (between : Tame guard separator)
    (tame : TameAll guard docs) : TameAll guard (joinParts separator docs) := by
  induction docs with
  | nil => exact nofun
  | cons doc docs ih =>
    rw [tameAll_cons] at tame
    cases docs with
    | nil => simp [Doc.joinParts, tame.1]
    | cons next docs => simp [Doc.joinParts, tame.1, between, ih tame.2]

@[simp] theorem tame_join (separator : Doc ν) (docs : List (Doc ν)) :
    Tame guard (join separator docs) ↔
      Tame guard separator ∧ TameAll guard docs ∨ Settles guard (joinParts separator docs) :=
  ⟨.inr, fun either => either.elim (fun tame => (tame.2.joinParts tame.1).settles) id⟩

theorem TameAll.spread (tame : TameAll guard docs) :
    TameAll guard (docs.flatMap fun doc => [.text " ", doc]) := by
  induction docs with
  | nil => exact nofun
  | cons doc docs ih => simp_all

@[simp] theorem tame_commaLine : Tame guard commaLine := by simp [commaLine]

/-- What may be written behind an alarm can be held back. -/
theorem tame_lineSuffix {contents : Doc ν} (follows : contents.heeds guard .flat none .alarmed (· ≠ .pending)) :
    Tame guard (.lineSuffix contents) := .inr ⟨follows, Watch.le_rfl _⟩

/-- What goes astray is tamed by a line end behind it. -/
theorem settles_reset {before astray : List (Doc ν)} {ending : Doc ν} {after : List (Doc ν)}
    (tame : TameAll guard before) (strays : Strays guard .calm astray) (resets : Resets guard ending)
    (calm : TameAll guard after) : Settles guard (before ++ (astray ++ ending :: after)) := by
  have reset : ∀ t, heedsAll guard .flat none t (· ≤ .calm) (ending :: after) := by
    intro t
    refine heeds_mono (Watch.le_rfl _) id ?_ ending (resets t)
    intro s t below later
    exact heedsAll_tame calm (Watch.le_trans below later)
  refine (heedsAll_append before _).mpr ?_
  refine heedsAll_mono (Watch.le_rfl _) id ?_ before (heedsAll_tame tame (Watch.le_rfl _))
  intro s t below later
  refine (heedsAll_append astray _).mpr ?_
  exact heedsAll_mono (Watch.le_trans below later) id (fun t _ _ _ => reset t) astray strays

end

end Doc

open Doc

/-- Inline comments give an alarm; white space and exposed comments may follow. -/
def Comment.guard (exposed : Comment → Prop) : Guard Comment where
  alarm c := !c.isBlock
  admits label value := (label = none → value.toList.all isSpacing) ∧ ∀ c ∈ label, exposed c

namespace Comment

variable {exposed : Comment → Prop} {source : String} {s : Watch}

def watchAfter (c : Comment) (s : Watch) : Watch := if c.isBlock then s else .alarmed

theorem sounds_guard (c : Comment) : (guard exposed).sounds (some c) = !c.isBlock := rfl

section
variable {mode : Mode} {label : Option Comment} {s : Watch} {k : Watch → Prop} (c : Comment)

section
variable (shown : s = .alarmed → exposed c) (early : c.isBlock = false → s ≠ .pending)
include shown early

/-- A text of the comment may be written unless it is behind an alarm and not exposed. -/
theorem heeds_text (value : String)
    (behind : k (c.watchAfter s)) : (Doc.text value).heeds (guard exposed) mode (some c) s k := by
  refine ⟨fun alarmed => ⟨nofun, ?_⟩, ?_, ?_⟩
  · rintro _ ⟨⟩
    exact shown alarmed
  · intro sounds
    exact early (by simpa [sounds_guard] using sounds)
  · rw [sounds_guard]
    cases block : c.isBlock with
    | true | false => simpa [watchAfter, block] using behind

/-- The lines of the comment heed the guard if the first one does. -/
theorem heeds_lines (after : ∀ t, t = s ∨ t = .fresh → k t ∧ k (c.watchAfter t)) (lines : List String) :
    heedsAll (guard exposed) mode (some c) s k (joinParts hardLine (lines.map Doc.text)) := by
  induction lines generalizing s with
  | nil => exact (after s (.inl rfl)).1
  | cons line lines ih =>
    cases lines with
    | nil => exact c.heeds_text shown early line (after s (.inl rfl)).2
    | cons next lines =>
      refine c.heeds_text shown early line ?_
      exact ih nofun (fun _ => nofun) fun t fresh => after t (.inr (by simpa using fresh))

theorem heeds_doc (after : ∀ t, t = s ∨ t = .fresh → k t ∧ k (c.watchAfter t)) :
    c.doc.heeds (guard exposed) mode label s k := by
  have printed (k : Watch → Prop) (after : ∀ t, t = s ∨ t = .fresh → k t ∧ k (c.watchAfter t)) :
      (if c.isDoc then Doc.join hardLine ((docLines (Text.lines c.text)).map Doc.text) else .text c.text :
        Draft).heeds (guard exposed) mode (some c) s k := by
    split
    · exact c.heeds_lines shown early after _
    · exact c.heeds_text shown early _ (after s (.inl rfl)).2
  unfold doc
  dsimp only
  rw [heeds]
  split
  · -- The line end behind the comment leaves nothing of it.
    refine printed _ fun t _ => ?_
    have fresh := (after .fresh (.inr rfl)).1
    exact ⟨fresh, fresh⟩
  · exact printed k after

end

theorem tame_doc_of_isBlock (block : c.isBlock) : Tame (guard exposed) c.doc := by
  refine c.heeds_doc nofun (by simp [block]) fun t place => ?_
  rw [watchAfter, if_pos block]
  rcases place with rfl | rfl
  · exact ⟨Watch.le_rfl _, Watch.le_rfl _⟩
  · exact ⟨Watch.fresh_le _, Watch.fresh_le _⟩

/-- Any comment goes no further than the end of its line. -/
theorem heeds_doc_free (shown : s = .alarmed → exposed c) (settled : s ≠ .pending) :
    c.doc.heeds (guard exposed) mode label s (· ≠ .pending) := by
  refine c.heeds_doc shown (fun _ => settled) fun t place => ?_
  have still : t ≠ .pending := by
    rcases place with rfl | rfl
    · exact settled
    · decide
  refine ⟨still, ?_⟩
  unfold watchAfter
  split
  · exact still
  · decide

end

/-! ### Comments beside a node -/

section
variable (c : Comment) (source : String)

theorem tame_leadingDoc : Tame (guard exposed) (c.leadingDoc source) := by
  unfold leadingDoc
  cases block : c.isBlock with
  | true => simp [c.tame_doc_of_isBlock block]
  | false =>
    have astray : c.doc.heeds (guard exposed) .flat none .calm fun _ => True :=
      c.heeds_doc nofun (fun _ => by decide) fun _ _ => ⟨trivial, trivial⟩
    have strays : Strays (guard exposed) .calm [c.doc] := astray
    have nothing : TameAll (guard exposed) [] := tameAll_nil
    exact settles_reset nothing strays resets_hardLine (by simp)

/-- A trailing comment can stand anywhere, but if it is held back without a line end of its own it may
    come behind an inline comment. -/
theorem tame_trailingDoc (before : Option Trail)
    (shown : (before.map fun trail => trail.isSuffix && !trail.isBlock).getD false = false →
      Text.startsLine source c.span.start = false →
        c.isBlock = false ∨ (before.map Trail.isSuffix).getD false → exposed c) :
    Tame (guard exposed) (c.trailingDoc source before).1 := by
  unfold trailingDoc
  dsimp only
  split
  · -- The line end comes first.
    have free : c.doc.heeds (guard exposed) .flat none .fresh (· ≠ .pending) := c.heeds_doc_free nofun (by decide)
    refine tame_lineSuffix ?_
    by_cases empty : Text.followsEmptyLine source c.span.start
    · rw [if_pos empty]
      exact free
    · rw [if_neg empty]
      exact ⟨nofun, nofun, free⟩
  · next apart =>
    simp only [Bool.or_eq_true, not_or, Bool.not_eq_true] at apart
    split
    · next held =>
      have behind : exposed c := shown apart.1 apart.2 (by simpa using held)
      have free : c.doc.heeds (guard exposed) .flat none .alarmed (· ≠ .pending) :=
        c.heeds_doc_free (fun _ => behind) (by decide)
      have space : (guard exposed).admits none " " := ⟨fun _ => by decide, nofun⟩
      have suffix : Tame (guard exposed) (.lineSuffix (.concat [" ", c.doc])) :=
        tame_lineSuffix ⟨fun _ => space, nofun, free⟩
      simp [suffix]
    · next held =>
      have block : c.isBlock := by
        cases block : c.isBlock with
        | true => rfl
        | false => simp [block] at held
      simp [c.tame_doc_of_isBlock block]

end

theorem isBlock_trailingDoc (c : Comment) (source : String) (before : Option Trail) :
    (c.trailingDoc source before).2.isBlock = c.isBlock := by
  unfold trailingDoc
  dsimp only
  split
  · rfl
  · split <;> rfl

theorem isSuffix_trailingDoc (c : Comment) (source : String) (before : Option Trail) :
    (c.trailingDoc source before).2.isSuffix =
      (!c.isBlock || Text.startsLine source c.span.start || (before.map Trail.isSuffix).getD false) := by
  unfold trailingDoc
  generalize c.isBlock = block
  generalize Text.startsLine source c.span.start = starts
  cases before with
  | none => cases block <;> cases starts <;> rfl
  | some trail =>
    obtain ⟨isBlock, isSuffix⟩ := trail
    cases block <;> cases starts <;> cases isBlock <;> cases isSuffix <;> rfl

/-- The trail of the comments before says which of them is the last one, and that one of them is held
    back if it is. -/
structure Tracks (source : String) (earlier : List Comment) (before : Option Trail) : Prop where
  first : before = none → earlier = []
  last : ∀ trail ∈ before, ∃ c, earlier.getLast? = some c ∧ trail.isBlock = c.isBlock ∧
    (c.isBlock = false → trail.isSuffix)
  held : ∀ trail ∈ before, trail.isSuffix →
    ∃ c ∈ earlier, c.isBlock = false ∨ Text.startsLine source c.span.start

theorem Tracks.next {source : String} {earlier : List Comment} {before : Option Trail}
    (tracks : Tracks source earlier before) (c : Comment) :
    Tracks source (earlier ++ [c]) (some (c.trailingDoc source before).2) := by
  refine ⟨nofun, ?_, ?_⟩
  · rintro trail ⟨⟩
    refine ⟨c, by simp, c.isBlock_trailingDoc source before, fun inline => ?_⟩
    simp [isSuffix_trailingDoc, inline]
  · rintro trail ⟨⟩ suffix
    rw [isSuffix_trailingDoc, Bool.or_eq_true, Bool.or_eq_true] at suffix
    rcases suffix with (inline | starts) | after
    · exact ⟨c, by simp, .inl (by simpa using inline)⟩
    · exact ⟨c, by simp, .inr starts⟩
    · cases before with
      | none => cases after
      | some trail =>
        obtain ⟨d, member, reason⟩ := tracks.held trail rfl after
        exact ⟨d, by simp [member], reason⟩

/-- A comment behind a node that is held back to the end of the line and not set off from what stands
    there: it does not start its line, the one before it is a block comment if there is one, and it is
    an inline comment or comes after one that is held back. -/
structure HeldBack (source : String) (earlier : List Comment) (c : Comment) : Prop where
  sameLine : Text.startsLine source c.span.start = false
  afterBlock : ∀ last ∈ earlier.getLast?, last.isBlock
  reason : c.isBlock = false ∨ ∃ d ∈ earlier, d.isBlock = false ∨ Text.startsLine source d.span.start

theorem tameAll_trailingDocs {earlier : List Comment} {before : Option Trail}
    (comments : List Comment) (tracks : Tracks source earlier before)
    (shown : ∀ first c rest, comments = first ++ c :: rest → HeldBack source (earlier ++ first) c → exposed c) :
    TameAll (guard exposed) (trailingDocs source before comments) := by
  induction comments generalizing earlier before with
  | nil => exact nofun
  | cons c comments ih =>
    rw [trailingDocs, tameAll_cons]
    refine ⟨c.tame_trailingDoc source before fun after_block same_line reason => ?_, ?_⟩
    · refine shown [] c comments rfl ⟨same_line, ?_, ?_⟩
      · intro last is_last
        rw [List.append_nil] at is_last
        cases before with
        | none => simp [tracks.first rfl] at is_last
        | some trail =>
          obtain ⟨d, same, block, suffix⟩ := tracks.last trail rfl
          obtain rfl : d = last := Option.some.inj (same.symm.trans is_last)
          cases is_block : d.isBlock with
          | true => rfl
          | false => simp [suffix is_block, block, is_block] at after_block
      · refine reason.imp id fun after => ?_
        cases before with
        | none => cases after
        | some trail => simpa using tracks.held trail rfl after
    · refine ih (tracks.next c) fun first d rest split held => ?_
      refine shown (c :: first) d rest (by rw [split]; rfl) ?_
      simpa using held

/-- The comments behind an annotation stand on its line; those behind an inline one are exposed. -/
theorem strays_behind (earlier comments : List Comment) (settled : s ≠ .pending)
    (alarm : s = .alarmed → ∃ d ∈ earlier, d.isBlock = false)
    (shown : ∀ first c rest, comments = first ++ c :: rest → (∃ d ∈ earlier ++ first, d.isBlock = false) → exposed c) :
    Strays (guard exposed) s (comments.flatMap fun c => [Doc.text " ", c.doc]) := by
  induction comments generalizing s earlier with
  | nil => trivial
  | cons c comments ih =>
    have later (t : Watch) (settled : t ≠ .pending) (alarm : t = .alarmed → ∃ d ∈ earlier ++ [c], d.isBlock = false) :
        Strays (guard exposed) t (comments.flatMap fun c => [Doc.text " ", c.doc]) := by
      refine ih (earlier ++ [c]) settled alarm fun first d rest split inline => ?_
      refine shown (c :: first) d rest (by rw [split]; rfl) ?_
      simpa using inline
    have space : (guard exposed).admits none " " := ⟨fun _ => by decide, nofun⟩
    have whole : c.doc.heeds (guard exposed) .flat none s fun t =>
        Strays (guard exposed) t (comments.flatMap fun c => [Doc.text " ", c.doc]) := by
      refine c.heeds_doc (fun alarmed => ?_) (fun _ => settled) fun t place => ?_
      · exact shown [] c comments rfl (by simpa using alarm alarmed)
      · have still : t ≠ .pending ∧ (t = .alarmed → ∃ d ∈ earlier ++ [c], d.isBlock = false) := by
          rcases place with rfl | rfl
          · refine ⟨settled, fun alarmed => ?_⟩
            obtain ⟨d, member, inline⟩ := alarm alarmed
            exact ⟨d, List.mem_append_left _ member, inline⟩
          · exact ⟨nofun, nofun⟩
        refine ⟨later t still.1 still.2, ?_⟩
        cases block : c.isBlock with
        | true => simpa [watchAfter, block] using later t still.1 still.2
        | false => simpa [watchAfter, block] using later .alarmed nofun fun _ => ⟨c, by simp, block⟩
    exact ⟨fun _ => space, nofun, whole⟩

/-! ### Comments in an empty body -/

theorem heedsAll_hardLines {guard : Guard Comment} {k : Watch → Prop} (lines : Nat) (docs : List Draft) :
    heedsAll guard .flat none s k (List.replicate lines hardLine ++ docs) ↔
      heedsAll guard .flat none (if lines = 0 then s else .fresh) k docs := by
  induction lines generalizing s with
  | zero => rfl
  | succ lines ih =>
    have first : heedsAll guard .flat none s k (List.replicate (lines + 1) hardLine ++ docs) ↔
        heedsAll guard .flat none .fresh k (List.replicate lines hardLine ++ docs) := Iff.rfl
    rw [first, ih]
    simp

/-- A comment in a body is the first that is held back on its line, or else it is exposed. -/
theorem heeds_danglingDoc {k : Watch → Prop} (c : Comment) (source : String) (isFirst : Bool)
    (quiet : s ≠ .alarmed) (first : isFirst → s = .fresh)
    (shown : isFirst = false → c.isBlock = false → Text.lineFeedsBefore? source c.span.start = some 0 → exposed c)
    (later : ∀ t ≠ .alarmed, k t) : (c.danglingDoc source isFirst).heeds (guard exposed) .flat none s k := by
  unfold danglingDoc
  split
  · exact ⟨fun alarmed => absurd alarmed quiet, by rintro ⟨⟩, later s quiet⟩
  · next feeds found =>
    generalize count : (if isFirst then 0 else min feeds 2) = lines
    refine (heedsAll_hardLines lines _).mpr ?_
    generalize start : (if lines = 0 then s else .fresh) = t
    have still : t ≠ .alarmed := by
      rw [← start]
      split
      · exact quiet
      · decide
    cases block : c.isBlock with
    | true =>
      refine c.heeds_doc (fun alarmed => absurd alarmed still) (by simp [block]) fun u place => ?_
      have calm : u ≠ .alarmed := by
        rcases place with rfl | rfl
        · exact still
        · decide
      refine ⟨later u calm, ?_⟩
      rw [watchAfter, if_pos block]
      exact later u calm
    | false =>
      by_cases fresh : t = .fresh
      · exact .inl ⟨fresh, c.heeds_doc_free (by simp) (by decide), later _ (by decide)⟩
      · -- Nothing ended the line, so this is not the first comment, and it follows on the same line.
        have none_between : lines = 0 := by
          by_cases none_between : lines = 0
          · exact none_between
          · rw [if_neg none_between] at start
            exact absurd start.symm fresh
        rw [if_pos none_between] at start
        have not_first : isFirst = false := by
          cases isFirst with
          | false => rfl
          | true => exact absurd (start.symm.trans (first rfl)) fresh
        have same_line : feeds = 0 := by
          rw [not_first, none_between] at count
          simp only [Bool.false_eq_true, ↓reduceIte] at count
          omega
        have behind : exposed c := shown not_first block (by rw [found, same_line])
        refine .inr ⟨c.heeds_doc_free (fun _ => behind) (by decide), later _ ?_⟩
        cases t with
        | alarmed => exact absurd rfl still
        | _ => decide

theorem strays_zipIdx (comments : List Comment) (index : Nat) (quiet : s ≠ .alarmed)
    (first : index = 0 → s = .fresh)
    (shown : ∀ earlier c rest, comments = earlier ++ c :: rest → index + earlier.length ≠ 0 → c.isBlock = false →
      Text.lineFeedsBefore? source c.span.start = some 0 → exposed c) :
    Strays (guard exposed) s ((comments.zipIdx index).map fun entry => entry.1.danglingDoc source (entry.2 == 0)) := by
  induction comments generalizing s index with
  | nil => trivial
  | cons c comments ih =>
    refine c.heeds_danglingDoc source _ quiet (fun zero => first (by simpa using zero)) ?_ fun t quiet => ?_
    · intro later inline same_line
      exact shown [] c comments rfl (by simpa using later) inline same_line
    · refine ih (index + 1) quiet nofun fun earlier d rest split _ inline same_line => ?_
      exact shown (c :: earlier) d rest (by rw [split]; rfl) (by simp) inline same_line

/-- The comments in a body go astray, from a line of their own. -/
theorem strays_danglingDocs (comments : List Comment)
    (shown : ∀ earlier c rest, comments = earlier ++ c :: rest → earlier ≠ [] → c.isBlock = false →
      Text.lineFeedsBefore? source c.span.start = some 0 → exposed c) :
    Strays (guard exposed) .fresh (danglingDocs source comments) := by
  refine strays_zipIdx comments 0 (by decide) (fun _ => rfl) fun earlier c rest split later => ?_
  exact shown earlier c rest split (by simpa using later)

end Comment
end ApexLayout
