import ApexLayout.Proofs.Render.Suffixes

/-!
The leaves of a document: its texts and lines, in order, without groups and indentation. A document without line ends,
suffixes and trims is level: its layout writes its leaves and nothing else.
The text of a level document, leaf by leaf. Every text stands there as it is, and every line is
white space. Spaces and tabs before a line end are taken away, and so a text before a line must not
end in one (`isSteady`); then nothing of a text is lost (`render_typeset`).
-/
namespace ApexLayout.Doc

variable {ν : Type}

inductive Leaf where
  | text (value : String)
  | line
  | softLine
  deriving Repr, DecidableEq

def textLeaf (value : String) : List Leaf := if value = "" then [] else [.text value]

mutual
@[simp] def leaves : Doc ν → List Leaf
  | .text value => textLeaf value
  | .concat parts => leavesOf parts
  | .group contents _ => contents.leaves
  | .indent contents => contents.leaves
  | .dedent contents => contents.leaves
  | .align _ contents => contents.leaves
  | .line => [.line]
  | .softLine => [.softLine]
  | .lineEnd | .breakParent | .trim => []
  | .lineSuffix contents => contents.leaves
  | .note _ contents => contents.leaves
@[simp] def leavesOf : List (Doc ν) → List Leaf
  | [] => []
  | doc :: docs => doc.leaves ++ leavesOf docs
end

mutual
/-- The layout of the document writes its leaves and nothing else. -/
@[simp] def isLevel : Doc ν → Bool
  | .text _ | .line | .softLine | .breakParent => true
  | .concat parts => areLevel parts
  | .group contents _ => contents.isLevel
  | .indent contents => contents.isLevel
  | .dedent contents => contents.isLevel
  | .align _ contents => contents.isLevel
  | .lineEnd | .lineSuffix _ | .trim => false
  | .note _ contents => contents.isLevel
@[simp] def areLevel : List (Doc ν) → Bool
  | [] => true
  | doc :: docs => doc.isLevel && areLevel docs
end

def Leaf.text? : Leaf → Option String
  | .text value => some value
  | _ => none

section
variable (doc : Doc ν) (first rest : List (Doc ν))

@[simp] theorem leaves_empty : (empty : Doc ν).leaves = [] := rfl
@[simp] theorem leaves_fill : doc.fill.leaves = doc.leaves := rfl
@[simp] theorem leaves_indentGroup : doc.indentGroup.leaves = doc.leaves := rfl
@[simp] theorem leaves_hardLine : (hardLine : Doc ν).leaves = [] := rfl

@[simp] theorem leavesOf_append : leavesOf (first ++ rest) = leavesOf first ++ leavesOf rest := by
  induction first with
  | nil => rfl
  | cons doc first ih => simp [ih]

@[simp] theorem isLevel_fill : doc.fill.isLevel = doc.isLevel := rfl
@[simp] theorem isLevel_indentGroup : doc.indentGroup.isLevel = doc.isLevel := rfl

@[simp] theorem areLevel_append : areLevel (first ++ rest) = (areLevel first && areLevel rest) := by
  induction first with
  | nil => rfl
  | cons doc first ih => simp [ih, Bool.and_assoc]

end

def joinLeaves (separator : List Leaf) : List (List Leaf) → List Leaf
  | [] => []
  | [first] => first
  | first :: second :: rest => first ++ separator ++ joinLeaves separator (second :: rest)

@[simp] theorem leavesOf_joinParts (separator : Doc ν) (docs : List (Doc ν)) :
    leavesOf (joinParts separator docs) = joinLeaves separator.leaves (docs.map leaves) := by
  induction docs with
  | nil => rfl
  | cons doc docs ih =>
    cases docs with
    | nil => simp [joinParts, joinLeaves]
    | cons second docs => simp_all [joinParts, joinLeaves]

@[simp] theorem leaves_join (separator : Doc ν) (docs : List (Doc ν)) :
    (join separator docs).leaves = joinLeaves separator.leaves (docs.map leaves) := by
  simp [join]

theorem areLevel_joinParts {separator : Doc ν} {docs : List (Doc ν)} (between : separator.isLevel)
    (level : ∀ doc ∈ docs, doc.isLevel) : areLevel (joinParts separator docs) := by
  induction docs with
  | nil => rfl
  | cons doc docs ih =>
    cases docs with
    | nil => simp_all [joinParts]
    | cons second docs => simp_all [joinParts]

mutual
theorem inked_leaves (doc : Doc ν) : (doc.leaves.filterMap Leaf.text?).flatMap inked = doc.texts.flatMap inked := by
  cases doc with
  | text value =>
    by_cases none_there : value = ""
    · simp [texts, textLeaf, none_there, inked]
    · simp [texts, textLeaf, none_there, Leaf.text?]
  | concat parts => exact inked_leavesOf parts
  | group contents broken | indent contents | dedent contents | align columns contents | lineSuffix contents
  | note label contents => exact inked_leaves contents
  | _ => rfl
theorem inked_leavesOf (docs : List (Doc ν)) :
    ((leavesOf docs).filterMap Leaf.text?).flatMap inked = (textsOf docs).flatMap inked := by
  cases docs with
  | nil => rfl
  | cons doc docs =>
    rw [textsOf, leavesOf, List.filterMap_append, List.flatMap_append, List.flatMap_append, inked_leaves doc,
      inked_leavesOf docs]
end

/-- The characters are the texts of the leaves as they are, with white space for every line. Only that
    of a soft line may be nothing. -/
inductive Typeset : List Leaf → List Char → Prop where
  | done : Typeset [] []
  | text {value : String} {leaves : List Leaf} {cs : List Char} (later : Typeset leaves cs) :
    Typeset (.text value :: leaves) (value.toList ++ cs)
  | line {blanks : List Char} {leaves : List Leaf} {cs : List Char} (some_there : blanks ≠ [])
      (spacing : ∀ c ∈ blanks, isSpacing c) (later : Typeset leaves cs) : Typeset (.line :: leaves) (blanks ++ cs)
  | softLine {blanks : List Char} {leaves : List Leaf} {cs : List Char} (spacing : ∀ c ∈ blanks, isSpacing c)
      (later : Typeset leaves cs) : Typeset (.softLine :: leaves) (blanks ++ cs)

namespace Typeset

theorem append {first second : List Leaf} {cs ds : List Char} (here : Typeset first cs) (later : Typeset second ds) :
    Typeset (first ++ second) (cs ++ ds) := by
  induction here with
  | done => exact later
  | text _ ih =>
    rw [List.append_assoc]
    exact .text ih
  | line some_there spacing _ ih =>
    rw [List.append_assoc]
    exact .line some_there spacing ih
  | softLine spacing _ ih =>
    rw [List.append_assoc]
    exact .softLine spacing ih

/-- What is set for leaves one after the other comes apart into what is set for them. -/
theorem split {first second : List Leaf} {all : List Char} (typeset : Typeset (first ++ second) all) :
    ∃ cs ds, all = cs ++ ds ∧ Typeset first cs ∧ Typeset second ds := by
  induction first generalizing all with
  | nil => exact ⟨[], all, rfl, .done, typeset⟩
  | cons leaf first ih =>
    cases typeset with
    | text later =>
      obtain ⟨cs, ds, rfl, here, rest⟩ := ih later
      exact ⟨_, ds, (List.append_assoc ..).symm, .text here, rest⟩
    | line some_there spacing later =>
      obtain ⟨cs, ds, rfl, here, rest⟩ := ih later
      exact ⟨_, ds, (List.append_assoc ..).symm, .line some_there spacing here, rest⟩
    | softLine spacing later =>
      obtain ⟨cs, ds, rfl, here, rest⟩ := ih later
      exact ⟨_, ds, (List.append_assoc ..).symm, .softLine spacing here, rest⟩

theorem text_iff {value : String} {cs : List Char} : Typeset [.text value] cs ↔ cs = value.toList := by
  constructor
  · intro typeset
    cases typeset with
    | text later =>
      cases later
      exact List.append_nil _
  · rintro rfl
    have typeset : Typeset [.text value] (value.toList ++ []) := .text .done
    simpa using typeset

end Typeset

/-- A text that does not end in a space or a tab. -/
def Leaf.isFirm : Leaf → Bool
  | .text value => value.toList.getLast?.any (!Text.isGap ·)
  | _ => false

/-- A text that does not end in a space or a tab stands before every line. `firm` says whether one stands
    before the leaves. -/
def isSteady (firm : Bool) : List Leaf → Bool
  | [] => true
  | .text value :: leaves => isSteady (Leaf.isFirm (.text value)) leaves
  | _ :: leaves => firm && isSteady false leaves

def Sign.leaves : Sign → List Leaf
  | .text value => textLeaf value
  | .line soft => [if soft then .softLine else .line]
  | _ => []

def Sign.isLevel : Sign → Bool
  | .text _ | .line _ => true
  | _ => false

mutual
theorem leaves_eq (doc : Doc ν) : doc.leaves = doc.signs.flatMap Sign.leaves := by
  cases doc with
  | text value => simp [signs, Sign.leaves]
  | concat parts => exact leavesOf_eq parts
  | group contents broken | indent contents | dedent contents | align columns contents | lineSuffix contents
  | note label contents => exact leaves_eq contents
  | _ => rfl
theorem leavesOf_eq (docs : List (Doc ν)) : leavesOf docs = (signsOf docs).flatMap Sign.leaves := by
  cases docs with
  | nil => rfl
  | cons doc docs => rw [leavesOf, signsOf, List.flatMap_append, leaves_eq doc, leavesOf_eq docs]
end

mutual
theorem isLevel_eq (doc : Doc ν) : doc.isLevel = (doc.suffixFree && doc.signs.all Sign.isLevel) := by
  cases doc with
  | concat parts => exact areLevel_eq parts
  | group contents broken | indent contents | dedent contents | align columns contents | note label contents =>
    exact isLevel_eq contents
  | _ => rfl
theorem areLevel_eq (docs : List (Doc ν)) :
    areLevel docs = (suffixFreeAll docs && (signsOf docs).all Sign.isLevel) := by
  cases docs with
  | nil => rfl
  | cons doc docs =>
    rw [areLevel, suffixFreeAll, signsOf, List.all_append, isLevel_eq doc, areLevel_eq docs]
    ac_rfl
end

/-- Leaves are set by what is written, which does not end in a space or a tab where a line comes next. -/
structure Sets (before : List Leaf) (written : List Char) (later : List Leaf) : Prop where
  typeset : Typeset before written.reverse
  steady : ∃ firm, isSteady firm later ∧ (firm → ∀ c ∈ written.head?, Text.isGap c = false)

section
variable {before later : List Leaf} {written : List Char}

theorem Sets.text {value : String} (sets : Sets before written (textLeaf value ++ later)) :
    Sets (before ++ textLeaf value) (value.toList.reverse ++ written) later := by
  by_cases none_there : value = ""
  · simpa [textLeaf, none_there] using sets
  have leaf : textLeaf value = [.text value] := by simp [textLeaf, none_there]
  rw [leaf] at sets ⊢
  obtain ⟨typeset, firm, steady, -⟩ := sets
  refine ⟨?_, Leaf.isFirm (.text value), steady, fun is_firm c last => ?_⟩
  · simpa using typeset.append (Typeset.text_iff.2 rfl)
  · have head : value.toList.getLast? = some c := by
      simpa [List.head?_append, List.head?_reverse, Option.or_eq_some_iff, none_there] using last
    simpa [Leaf.isFirm, head] using is_firm

theorem Sets.line {soft : Bool} (sets : Sets before written (Sign.leaves (.line soft) ++ later)) (blanks : List Char)
    (spacing : ∀ c ∈ blanks, isSpacing c) (some_there : soft = false → blanks ≠ []) :
    Sets (before ++ Sign.leaves (.line soft)) (blanks.reverse ++ written) later := by
  obtain ⟨typeset, firm, steady, -⟩ := sets
  have here : Typeset (Sign.leaves (.line soft)) blanks := by
    cases soft with
    | false => simpa [Sign.leaves] using Typeset.line (some_there rfl) spacing .done
    | true => simpa [Sign.leaves] using Typeset.softLine spacing .done
  refine ⟨by simpa using typeset.append here, false, ?_, by simp⟩
  cases soft with
  | false | true => exact (Bool.and_eq_true_iff.1 steady).2

/-- A line that breaks takes nothing of the text before it away. -/
theorem Sets.dropWhile {soft : Bool} (sets : Sets before written (Sign.leaves (.line soft) ++ later)) :
    written.dropWhile Text.isGap = written := by
  obtain ⟨-, firm, steady, at_end⟩ := sets
  have is_firm : firm = true := by
    cases soft with
    | false | true => exact (Bool.and_eq_true_iff.1 steady).1
  cases written with
  | nil => rfl
  | cons c cs =>
    rw [List.dropWhile_cons, at_end is_firm c rfl]
    rfl

theorem Sets.draw {sign : Sign} {stroke : Stroke ν} (sets : Sets before written (sign.leaves ++ later))
    (drawn : sign.Drawn stroke) (level : sign.isLevel) (settings : FormatSettings) :
    Sets (before ++ sign.leaves) (stroke.draw settings written) later := by
  cases drawn with
  | text value label => exact sets.text
  | flat soft =>
    cases soft with
    | false => exact sets.line [' '] (by simp [isSpacing, Text.isGap]) (by simp)
    | true => exact sets.line [] (by simp) (by simp)
  | feed soft indentation =>
    have broken := sets.line _ (fun c => isSpacing_of_mem_feed settings indentation) fun _ => List.cons_ne_nil _ _
    simpa [Stroke.draw, sets.dropWhile] using broken
  | lineEnd indentation => cases level
  | trim => cases level

theorem Sets.spell {signs : List Sign} {strokes : List (Stroke ν)} (drawn : List.Forall₂ Sign.Drawn signs strokes)
    (level : signs.all Sign.isLevel) (sets : Sets before written (signs.flatMap Sign.leaves))
    (settings : FormatSettings) :
    Typeset (before ++ signs.flatMap Sign.leaves) (strokes.foldl (Stroke.draw settings) written).reverse := by
  induction drawn generalizing before written with
  | nil => simpa using sets.typeset
  | cons here _ ih =>
    rw [List.flatMap_cons] at sets ⊢
    rw [List.all_cons, Bool.and_eq_true] at level
    rw [← List.append_assoc]
    exact ih level.2 (sets.draw here level.1 settings)

end

/-- The text of a level document with steady leaves is what is set for its leaves. -/
theorem render_typeset (doc : Doc ν) (level : doc.isLevel) (steady : isSteady true doc.leaves) (settings : FormatSettings) :
    Typeset doc.leaves (render settings doc).toList := by
  rw [isLevel_eq, Bool.and_eq_true] at level
  rw [leaves_eq] at steady ⊢
  rw [render_eq_spell, Stroke.spell, String.toList_ofList]
  have sets : Sets [] [] (doc.signs.flatMap Sign.leaves) := ⟨.done, true, steady, by simp⟩
  exact sets.spell (strokes_of_signs settings doc level.1) level.2 settings

end ApexLayout.Doc
