import ApexLayout.Proofs.Render.Group
import ApexLayout.Proofs.Text.Quoted

/-!
The dump of a document is unambiguous. It begins with the word of its constructor, and what may stand behind a dump
cannot continue a word. So equal dumps are those of one document (`dumpPlain_inj`).
-/
namespace ApexLayout.Doc

variable {a b : Doc} {s t : List Char}

/-- The word that a dump begins with. Texts and lists have none. -/
def word : Doc → String
  | .concat [.lineEnd, .breakParent] => "hardline"
  | .group .. => "group"
  | .indent _ => "indent"
  | .dedent _ => "dedent"
  | .align .. => "align"
  | .line => "line"
  | .softLine => "softline"
  | .lineEnd => "hardlineWithoutBreakParent"
  | .lineSuffix _ => "lineSuffix"
  | .breakParent => "breakParent"
  | .trim => "trim"
  | _ => ""

/-- What may stand behind a dump. -/
def Closes (s : List Char) : Prop := ∀ c ∈ s.head?, c = ',' ∨ c = ')' ∨ c = ']'

theorem dumpPlain_concat {parts : List Doc} (listed : parts ≠ [.lineEnd, .breakParent]) :
    (concat parts).dumpPlain = "[" ++ dumpsPlain parts ++ "]" ∧ (concat parts).word = "" := by
  rw [dumpPlain, word]
  all_goals simp_all

theorem dumpPlain_group (contents : Doc) (broken : Bool) :
    (group contents broken).dumpPlain = "group(" ++ contents.dumpPlain ++ if broken then ", break)" else ")" := by
  cases broken <;> rfl

theorem word_letters (doc : Doc) : ∀ c ∈ doc.word.toList, c.isAlpha := by
  have all : doc.word.toList.all Char.isAlpha := by
    unfold word
    split
    all_goals decide
  exact List.all_eq_true.mp all

/-- Behind its word a dump goes on with a character that is no letter. -/
theorem exists_behind_word (doc : Doc) :
    ∃ behind, doc.dumpPlain.toList = doc.word.toList ++ behind ∧ (∀ c ∈ behind.head?, c = '"' ∨ c = '[' ∨ c = '(') ∧
      (doc.word = "" → behind ≠ []) := by
  have opened (w text : String) (closed : String) : ∃ behind, (w ++ "(" ++ text ++ closed).toList = w.toList ++ behind ∧
      (∀ c ∈ behind.head?, c = '"' ∨ c = '[' ∨ c = '(') ∧ (w = "" → behind ≠ []) :=
    ⟨'(' :: (text.toList ++ closed.toList), by simp, by simp, by simp⟩
  have alone (w : String) (is_word : w ≠ "") : ∃ behind, w.toList = w.toList ++ behind ∧
      (∀ c ∈ behind.head?, c = '"' ∨ c = '[' ∨ c = '(') ∧ (w = "" → behind ≠ []) :=
    ⟨[], by simp, by simp, fun none_there => absurd none_there is_word⟩
  cases doc with
  | text value => exact ⟨(Text.quoted value).toList, by simp [dumpPlain, word], by simp [Text.quoted], by simp [Text.quoted]⟩
  | concat parts =>
    by_cases pair : parts = [.lineEnd, .breakParent]
    · subst pair
      exact alone "hardline" (by decide)
    · obtain ⟨shown, no_word⟩ := dumpPlain_concat pair
      exact ⟨'[' :: ((dumpsPlain parts).toList ++ [']']), by simp [shown, no_word], by simp, by simp⟩
  | group contents broken =>
    cases broken with
    | true => exact opened "group" contents.dumpPlain ", break)"
    | false => exact opened "group" contents.dumpPlain ")"
  | indent contents => exact opened "indent" contents.dumpPlain ")"
  | dedent contents => exact opened "dedent" contents.dumpPlain ")"
  | align columns contents =>
    obtain ⟨behind, shown⟩ := opened "align" (toString columns) (", " ++ contents.dumpPlain ++ ")")
    exact ⟨behind, by simpa [dumpPlain, word] using shown⟩
  | lineSuffix contents => exact opened "lineSuffix" contents.dumpPlain ")"
  | line | softLine | lineEnd | breakParent | trim => exact alone _ (by decide)
  | note label _ => exact label.elim

theorem word_eq (closes : Closes s) (closes' : Closes t) (same : a.dumpPlain.toList ++ s = b.dumpPlain.toList ++ t) :
    a.word = b.word := by
  obtain ⟨behind, shown, opens, -⟩ := exists_behind_word a
  obtain ⟨behind', shown', opens', -⟩ := exists_behind_word b
  have stops {behind s : List Char} (opens : ∀ c ∈ behind.head?, c = '"' ∨ c = '[' ∨ c = '(') (closes : Closes s) :
      ∀ c ∈ (behind ++ s).head?, c.isAlpha = false := by
    intro c first
    cases behind with
    | nil => rcases closes c first with rfl | rfl | rfl <;> decide
    | cons d behind =>
      rcases opens c first with rfl | rfl | rfl <;> decide
  rw [shown, shown', List.append_assoc, List.append_assoc] at same
  exact String.toList_inj.mp
    (Text.append_inj_of_class (word_letters a) (word_letters b) (stops opens closes) (stops opens' closes') same).1

theorem head?_dumpPlain (doc : Doc) (s : List Char) : ∃ c, (doc.dumpPlain.toList ++ s).head? = some c ∧ c ≠ ']' := by
  obtain ⟨behind, shown, opens, nonempty⟩ := exists_behind_word doc
  have letters := word_letters doc
  rw [shown]
  cases word : doc.word.toList with
  | cons c cs =>
    refine ⟨c, rfl, ?_⟩
    rintro rfl
    exact absurd (letters ']' (by simp [word])) (by decide)
  | nil =>
    obtain ⟨c, cs, rfl⟩ := List.exists_cons_of_ne_nil (nonempty (String.toList_inj.mp word))
    refine ⟨c, rfl, ?_⟩
    rcases opens c rfl with rfl | rfl | rfl <;> decide

/-- What stands behind the first document of a list. -/
def listEnd (docs : List Doc) (s : List Char) : List Char :=
  if docs.isEmpty then ']' :: s else ',' :: ' ' :: ((dumpsPlain docs).toList ++ ']' :: s)

theorem closes_listEnd (docs : List Doc) (s : List Char) : Closes (listEnd docs s) := by
  unfold listEnd
  split <;> simp [Closes]

theorem dumpsPlain_cons (doc : Doc) (docs : List Doc) (s : List Char) :
    (dumpsPlain (doc :: docs)).toList ++ ']' :: s = doc.dumpPlain.toList ++ listEnd docs s := by
  cases docs <;> simp [dumpsPlain, listEnd]

theorem word_concat_cases (parts : List Doc) :
    (concat parts).word = "" ∧ parts ≠ [.lineEnd, .breakParent] ∨ parts = [.lineEnd, .breakParent] := by
  by_cases pair : parts = [.lineEnd, .breakParent]
  · exact .inr pair
  · exact .inl ⟨(dumpPlain_concat pair).2, pair⟩

/-- The word tells the constructor, but for a text and a list, which the character behind it tells apart. -/
theorem ctorIdx_eq (closes : Closes s) (closes' : Closes t) (same : a.dumpPlain.toList ++ s = b.dumpPlain.toList ++ t) :
    a.ctorIdx = b.ctorIdx := by
  have words := word_eq closes closes' same
  cases a with
  | note label _ => exact label.elim
  | concat parts =>
    rcases word_concat_cases parts with ⟨unnamed, listed⟩ | rfl
    · rw [unnamed] at words
      cases b with
      | concat => rfl
      | note label _ => exact label.elim
      | text other => simp [dumpPlain, dumpPlain_concat listed, Text.quoted] at same
      | _ => simp [word] at words
    · cases b with
      | concat => rfl
      | note label _ => exact label.elim
      | _ => simp [word] at words
  | text value =>
    cases b with
    | concat parts =>
      rcases word_concat_cases parts with ⟨-, listed⟩ | rfl
      · simp [dumpPlain, dumpPlain_concat listed, Text.quoted] at same
      · simp [word] at words
    | note label _ => exact label.elim
    | text => rfl
    | _ => simp [word] at words
  | _ =>
    cases b with
    | concat parts =>
      rcases word_concat_cases parts with ⟨unnamed, -⟩ | rfl
      · rw [unnamed] at words
        simp [word] at words
      · simp [word] at words
    | note label _ => exact label.elim
    | _ => first | rfl | simp [word] at words

theorem closes_group (broken : Bool) (s : List Char) :
    Closes ((if broken then ", break)" else ")").toList ++ s) := by
  cases broken <;> simp [Closes]

theorem closes_bracket (s : List Char) : Closes (')' :: s) := by simp [Closes]

mutual
/-- A dump ends at the same place whatever comes behind it, and tells the document. -/
theorem dumpPlain_append_inj (a b : Doc) (s t : List Char) (closes : Closes s) (closes' : Closes t)
    (same : a.dumpPlain.toList ++ s = b.dumpPlain.toList ++ t) : a = b ∧ s = t := by
  have maker := ctorIdx_eq closes closes' same
  cases a with
  | note label _ => exact label.elim
  | text value =>
    cases b with
    | text other =>
      obtain ⟨rfl, rest⟩ := Text.quoted_append_inj same
      exact ⟨rfl, rest⟩
    | _ => cases maker
  | concat parts =>
    cases b with
    | concat others =>
      have words := word_eq closes closes' same
      rcases word_concat_cases parts with ⟨unnamed, listed⟩ | rfl <;>
        rcases word_concat_cases others with ⟨unnamed', listed'⟩ | rfl
      · simp only [dumpPlain_concat listed, dumpPlain_concat listed'] at same
        obtain ⟨rfl, rest⟩ := dumpsPlain_append_inj parts others s t (by simpa using same)
        exact ⟨rfl, rest⟩
      · rw [unnamed] at words
        simp [word] at words
      · rw [unnamed'] at words
        simp [word] at words
      · exact ⟨rfl, List.append_cancel_left same⟩
    | _ => cases maker
  | group contents broken =>
    cases b with
    | group other broken' =>
      obtain ⟨rfl, rest⟩ := dumpPlain_append_inj contents other _ _ (closes_group broken s) (closes_group broken' t)
        (by simpa [dumpPlain_group] using same)
      cases broken <;> cases broken' <;> simp_all
    | _ => cases maker
  | indent contents | dedent contents | lineSuffix contents =>
    cases b <;> cases maker
    next other =>
      obtain ⟨rfl, rest⟩ := dumpPlain_append_inj contents other _ _ (closes_bracket s) (closes_bracket t)
        (by simpa [dumpPlain] using same)
      exact ⟨rfl, (List.cons.inj rest).2⟩
  | align columns contents =>
    cases b with
    | align columns' other =>
      have digits : Nat.toDigits 10 columns ++ ',' :: (' ' :: (contents.dumpPlain.toList ++ ')' :: s)) =
          Nat.toDigits 10 columns' ++ ',' :: (' ' :: (other.dumpPlain.toList ++ ')' :: t)) := by
        simpa [dumpPlain, Nat.toString_eq_ofList_toDigits] using same
      obtain ⟨rfl, behind⟩ := Text.toDigits_append_inj (by decide) (by decide) (by decide) digits
      obtain ⟨rfl, rest⟩ := dumpPlain_append_inj contents other _ _ (closes_bracket s) (closes_bracket t)
        (List.cons.inj behind).2
      exact ⟨rfl, (List.cons.inj rest).2⟩
    | _ => cases maker
  | _ =>
    cases b <;> cases maker
    all_goals exact ⟨rfl, List.append_cancel_left same⟩

theorem dumpsPlain_append_inj (docs others : List Doc) (s t : List Char)
    (same : (dumpsPlain docs).toList ++ ']' :: s = (dumpsPlain others).toList ++ ']' :: t) : docs = others ∧ s = t := by
  cases docs with
  | nil =>
    cases others with
    | nil => exact ⟨rfl, (List.cons.inj same).2⟩
    | cons other others =>
      obtain ⟨c, first, differs⟩ := head?_dumpPlain other (listEnd others t)
      rw [← dumpsPlain_cons, ← same] at first
      exact absurd (Option.some.inj first).symm differs
  | cons doc docs =>
    cases others with
    | nil =>
      obtain ⟨c, first, differs⟩ := head?_dumpPlain doc (listEnd docs s)
      rw [← dumpsPlain_cons, same] at first
      exact absurd (Option.some.inj first).symm differs
    | cons other others =>
      rw [dumpsPlain_cons, dumpsPlain_cons] at same
      obtain ⟨rfl, ends⟩ := dumpPlain_append_inj doc other _ _ (closes_listEnd docs s) (closes_listEnd others t) same
      cases docs with
      | nil =>
        cases others with
        | nil => exact ⟨rfl, (List.cons.inj ends).2⟩
        | cons other others => simp [listEnd] at ends
      | cons doc' docs =>
        cases others with
        | nil => simp [listEnd] at ends
        | cons other others =>
          obtain ⟨behind, rest⟩ := dumpsPlain_append_inj (doc' :: docs) (other :: others) s t (by simpa [listEnd] using ends)
          exact ⟨by rw [behind], rest⟩
end

theorem dumpPlain_inj (same : a.dumpPlain = b.dumpPlain) : a = b :=
  (dumpPlain_append_inj a b [] [] (by simp [Closes]) (by simp [Closes]) (by rw [same])).1

/-- Two documents have one dump only if they are the same document: quotes, brackets and line ends in their texts
included. -/
theorem dump_eq_iff (a b : Doc) : a.dump = b.dump ↔ a = b := by
  rw [dump, dump, plain_eq_self, plain_eq_self]
  exact ⟨dumpPlain_inj, congrArg dumpPlain⟩

end ApexLayout.Doc
