import ApexLayout.Comment.Basic
import ApexLayout.Proofs.Outcome

/-!
The code of a document: its texts outside the notes, in order, each without the white space around it. Two documents
are alike if they have the same code and either both print nothing or neither does.
-/
namespace ApexLayout

theorem isEmpty_eq_of_forall₂ {α β : Type} {related : α → β → Prop} {xs : List α} {ys : List β}
    (each : List.Forall₂ related xs ys) : xs.isEmpty = ys.isEmpty := by
  cases each with
  | nil => rfl
  | cons => rfl

@[simp] theorem flatten_intersperse_nil {α : Type} (lists : List (List α)) :
    (lists.intersperse []).flatten = lists.flatten := by
  induction lists with
  | nil => rfl
  | cons first rest ih =>
    cases rest with
    | nil => rfl
    | cons second rest => simpa using ih

namespace Doc

variable {ν : Type}

/-- A text without the white space around it, if anything is left. -/
def textCode (value : String) : List String :=
  let word := Text.trim value
  if word.isEmpty then [] else [word]

mutual
/-- The texts of a document that are not noted. -/
@[simp] def code : Doc ν → List String
  | .text value => textCode value
  | .concat parts => codeOf parts
  | .group contents _ => contents.code
  | .indent contents => contents.code
  | .dedent contents => contents.code
  | .align _ contents => contents.code
  | .lineSuffix contents => contents.code
  | .line | .softLine | .lineEnd | .breakParent | .trim | .note _ _ => []
def codeOf : List (Doc ν) → List String
  | [] => []
  | doc :: docs => doc.code ++ codeOf docs
end

section
variable (doc : Doc ν) (docs : List (Doc ν))

@[simp] theorem codeOf_eq_flatten : codeOf docs = (docs.map code).flatten := by
  induction docs with
  | nil => rfl
  | cons doc docs ih => simp [codeOf, ih]

theorem code_concat : (concat docs).code = (docs.map code).flatten := codeOf_eq_flatten docs
@[simp] theorem code_parts (lists : List (List (Doc ν))) : (parts lists).code = (lists.flatten.map code).flatten :=
  codeOf_eq_flatten lists.flatten
@[simp] theorem code_empty : (empty : Doc ν).code = [] := rfl
@[simp] theorem textCode_space : textCode " " = [] := rfl
@[simp] theorem code_fill : doc.fill.code = doc.code := rfl
@[simp] theorem code_indentGroup : doc.indentGroup.code = doc.code := rfl
@[simp] theorem code_hardLine : (hardLine : Doc ν).code = [] := rfl

@[simp] theorem code_join (separator : Doc ν) :
    (join separator docs).code = ((docs.map code).intersperse separator.code).flatten := by
  rw [join, code_concat]
  induction docs with
  | nil => rfl
  | cons doc docs ih =>
    cases docs with
    | nil => rfl
    | cons next docs => simp [joinParts, ih]

@[simp] theorem code_ite (c : Prop) [Decidable c] (first second : Doc ν) :
    (if c then first else second).code = if c then first.code else second.code :=
  apply_ite code c first second

@[simp] theorem flatten_map_code_ite (c : Prop) [Decidable c] (first second : List (Doc ν)) :
    ((if c then first else second).map code).flatten =
      if c then (first.map code).flatten else (second.map code).flatten :=
  apply_ite (fun docs => (docs.map code).flatten) c first second

@[simp] theorem isEmpty_concat : (concat docs).isEmpty = false := rfl
@[simp] theorem isEmpty_parts (lists : List (List (Doc ν))) : (parts lists).isEmpty = false := rfl
@[simp] theorem isEmpty_join (separator : Doc ν) : (join separator docs).isEmpty = false := rfl
@[simp] theorem isEmpty_indent : doc.indent.isEmpty = false := rfl
@[simp] theorem isEmpty_fill : doc.fill.isEmpty = false := rfl
@[simp] theorem isEmpty_indentGroup : doc.indentGroup.isEmpty = false := rfl

@[simp] theorem isEmpty_ite (c : Prop) [Decidable c] (first second : Doc ν) :
    (if c then first else second).isEmpty = if c then first.isEmpty else second.isEmpty :=
  apply_ite isEmpty c first second

theorem code_of_isEmpty {doc : Doc ν} (nothing : doc.isEmpty) : doc.code = [] := by
  cases doc with
  | text value =>
    obtain rfl : value = "" := by simpa [isEmpty] using nothing
    rfl
  | _ => cases nothing

theorem flatten_filter_isEmpty : ((docs.filter (!·.isEmpty)).map code).flatten = (docs.map code).flatten := by
  induction docs with
  | nil => rfl
  | cons doc docs ih =>
    rw [List.filter_cons]
    split
    · simp [ih]
    · next nothing => simp [ih, code_of_isEmpty (by simpa using nothing : doc.isEmpty = true)]

end

/-- The documents have the same code, and both print nothing or neither does. -/
structure Alike (doc twin : Doc ν) : Prop where
  code : doc.code = twin.code
  isEmpty : doc.isEmpty = twin.isEmpty

theorem Alike.refl (doc : Doc ν) : Alike doc doc := ⟨rfl, rfl⟩

abbrev AlikeAll (docs twins : List (Doc ν)) : Prop := List.Forall₂ Alike docs twins

namespace AlikeAll

variable {docs twins : List (Doc ν)}

theorem codes (alike : AlikeAll docs twins) : docs.map Doc.code = twins.map Doc.code := by
  induction alike with
  | nil => rfl
  | cons first _ ih => simp [first.code, ih]

theorem isEmpty (alike : AlikeAll docs twins) : docs.isEmpty = twins.isEmpty := isEmpty_eq_of_forall₂ alike

theorem map_fill (alike : AlikeAll docs twins) : AlikeAll (docs.map fill) (twins.map fill) := by
  induction alike with
  | nil => exact .nil
  | cons first _ ih => exact .cons ⟨first.code, rfl⟩ ih

theorem filter_isEmpty (alike : AlikeAll docs twins) :
    AlikeAll (docs.filter (!·.isEmpty)) (twins.filter (!·.isEmpty)) := by
  induction alike with
  | nil => exact .nil
  | cons first _ ih =>
    simp only [List.filter_cons, first.isEmpty]
    split
    · exact .cons first ih
    · exact ih

end AlikeAll
end Doc

namespace Comment

@[simp] theorem code_doc (c : Comment) : c.doc.code = [] := rfl

@[simp] theorem code_leadingDoc (c : Comment) (source : String) : (c.leadingDoc source).code = [] := by
  have blank : ∀ empty : Bool, ((if empty then [Doc.hardLine] else [] : List Draft).map Doc.code).flatten = [] := by
    decide
  have separator : ∀ first second third : Bool, Doc.code (if first then Doc.hardLine
      else if second then " " else if third then Doc.hardLine else Doc.line : Draft) = [] := by
    decide
  simp only [leadingDoc, Doc.code_concat, List.map_append, List.flatten_append, List.map_cons, List.map_nil,
    List.flatten_cons, List.flatten_nil, code_doc, blank, separator, List.append_nil]

theorem code_trailingDoc (c : Comment) (source : String) (before : Option Trail) :
    (c.trailingDoc source before).1.code = [] := by
  unfold trailingDoc
  simp only
  split
  · split <;> simp
  · split
    · split <;> simp
    · simp

@[simp] theorem code_trailingDocs (source : String) (before : Option Trail) (comments : List Comment) :
    ((trailingDocs source before comments).map Doc.code).flatten = [] := by
  induction comments generalizing before with
  | nil => rfl
  | cons c rest ih => simp [trailingDocs, code_trailingDoc, ih]

theorem code_danglingDoc (c : Comment) (source : String) (isFirst : Bool) :
    (c.danglingDoc source isFirst).code = [] := by
  unfold danglingDoc
  split
  · rfl
  · split <;> simp

@[simp] theorem code_danglingDocs (source : String) (comments : List Comment) :
    ((danglingDocs source comments).map Doc.code).flatten = [] := by
  simp [danglingDocs, code_danglingDoc]

end Comment

/-- Should both outcomes be results, then the results are related. -/
def Agree {α β : Type} (related : α → β → Prop) (first : Outcome α) (second : Outcome β) : Prop :=
  ∀ a b, first = .ok a → second = .ok b → related a b

namespace Agree

variable {α β γ δ : Type} {related : α → β → Prop} {further : γ → δ → Prop} {first : Outcome α} {second : Outcome β}

theorem ok {a : α} {b : β} (here : related a b) : Agree related (.ok a) (.ok b) := by
  intro a' b' one other
  cases one
  cases other
  exact here

theorem pure {a : α} {b : β} (here : related a b) : Agree related (pure a) (pure b) := ok here

theorem refl (outcome : Outcome α) : Agree (· = ·) outcome outcome := by
  intro a b one other
  exact Except.ok.inj (one.symm.trans other)

theorem error {e : FormatError} : Agree related (.error e) second := nofun

theorem bind {f : α → Outcome γ} {g : β → Outcome δ} (agree : Agree related first second)
    (next : ∀ a b, related a b → Agree further (f a) (g b)) : Agree further (first >>= f) (second >>= g) := by
  intro c d one other
  obtain ⟨a, at_first, then_first⟩ := bind_eq_ok.mp one
  obtain ⟨b, at_second, then_second⟩ := bind_eq_ok.mp other
  exact next a b (agree a b at_first at_second) c d then_first then_second

theorem map {f : α → γ} {g : β → δ} (agree : Agree related first second)
    (next : ∀ a b, related a b → further (f a) (g b)) : Agree further (f <$> first) (g <$> second) := by
  intro c d one other
  obtain ⟨a, at_first, rfl⟩ := map_eq_ok.mp one
  obtain ⟨b, at_second, rfl⟩ := map_eq_ok.mp other
  exact next a b (agree a b at_first at_second)

theorem mono {weaker : α → β → Prop} (agree : Agree related first second)
    (implies : ∀ a b, related a b → weaker a b) : Agree weaker first second :=
  fun a b one other => implies a b (agree a b one other)

/-- What a document is used for depends on its code and on whether it prints nothing. -/
theorem doc {o o' : Outcome Draft} {f : Draft → Outcome γ} {g : Draft → Outcome δ} (agree : Agree Doc.Alike o o')
    (next : ∀ doc doc', doc.code = doc'.code → doc.isEmpty = doc'.isEmpty → Agree further (f doc) (g doc')) :
    Agree further (o >>= f) (o' >>= g) := agree.bind fun doc doc' alike => next doc doc' alike.code alike.isEmpty

theorem docs {o o' : Outcome (List Draft)} {f : List Draft → Outcome γ} {g : List Draft → Outcome δ}
    (agree : Agree Doc.AlikeAll o o') (next : ∀ docs docs', docs.map Doc.code = docs'.map Doc.code →
      docs.isEmpty = docs'.isEmpty → Agree further (f docs) (g docs')) : Agree further (o >>= f) (o' >>= g) :=
  agree.bind fun docs docs' alike => next docs docs' (Doc.AlikeAll.codes alike) (Doc.AlikeAll.isEmpty alike)

theorem mapM {f : α → Outcome γ} {g : β → Outcome δ} {xs : List α} {ys : List β}
    (pairs : List.Forall₂ (fun a b => Agree further (f a) (g b)) xs ys) :
    Agree (List.Forall₂ further) (xs.mapM f) (ys.mapM g) := by
  induction pairs with
  | nil => exact pure .nil
  | cons here _ ih =>
    rw [List.mapM_cons, List.mapM_cons]
    exact here.bind fun _ _ now => ih.bind fun _ _ later => pure (.cons now later)

end Agree
end ApexLayout
