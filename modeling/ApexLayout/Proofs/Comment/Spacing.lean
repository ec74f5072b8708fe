import ApexLayout.Comment.Basic
import ApexLayout.Proofs.Text.Offset

/-!
Comments in an empty body, and the line ends before them: at most two, as long as the characters before the comment
and before the blanks that end there are one byte wide. Otherwise the comment or its line ends are lost
(`danglingDocs_spacing`).
-/
namespace ApexLayout

namespace Text

def isNarrow (c : Option Char) : Bool := c.all (·.utf8Size == 1)

theorem isNarrow_iff (c : Option Char) : isNarrow c ↔ (c.map Char.utf8Size).getD 1 = 1 := by
  cases c with
  | none => simp [isNarrow]
  | some c => simp [isNarrow]

namespace Opening

def last? (o : Opening) : Option Char := o.behind.head?

def lastInk? (o : Opening) : Option Char := (o.behind.dropWhile isBlank).head?

/-- The line feeds in the run of blanks that ends at the opening. -/
def feeds (o : Opening) : Nat := (o.behind.takeWhile isBlank).count '\n'

end Opening

theorem lineFeedsBefore?_of_splitAt? {s : String} {offset : Nat} {o : Opening} (opens : splitAt? s offset = some o) :
    lineFeedsBefore? s offset =
      if isNarrow o.last? then some (if isNarrow o.lastInk? then o.feeds else 0) else none := by
  obtain ⟨behind, ahead⟩ := o
  cases behind with
  | nil =>
    obtain ⟨rfl, -⟩ := splitAt?_eq_some_iff.mp opens
    rfl
  | cons c earlier =>
    obtain ⟨fits, first⟩ := splitAt?_before opens
    have positive := c.utf8Size_pos
    obtain ⟨before, rfl⟩ : ∃ before, offset = before + 1 := ⟨offset - 1, by omega⟩
    by_cases narrow : c.utf8Size = 1
    · rw [narrow, Nat.add_sub_cancel] at first
      have head : isNarrow (some c) := by simp [isNarrow, narrow]
      simp only [lineFeedsBefore?, first, narrow, Opening.last?, Opening.lastInk?, Opening.feeds, List.head?_cons, head,
        decide_true, Bool.true_and, if_true, decide_eq_true_eq, ← isNarrow_iff]
      exact (apply_ite some _ _ _).symm
    · -- The byte before the offset lies inside the character.
      have inside : splitAt? s before = none := splitAt?_inside opens (by omega) (by omega)
      simp [lineFeedsBefore?, inside, Opening.last?, isNarrow, narrow]

end Text

namespace Comment

/-- A comment after so many line ends. An inline comment is held back to the end of its line. -/
def spaced (c : Comment) (lines : Nat) : Draft :=
  .concat (List.replicate lines Doc.hardLine ++ [if c.isBlock then c.doc else .lineSuffix c.doc])

theorem spaced_ne_empty (c : Comment) (lines : Nat) : c.spaced lines ≠ Doc.empty := by
  rintro ⟨⟩

theorem spaced_inj {c : Comment} {lines others : Nat} : c.spaced lines = c.spaced others ↔ lines = others := by
  constructor
  · intro same
    rw [spaced, spaced, Doc.concat.injEq] at same
    simpa using congrArg List.length same
  · rintro rfl
    rfl

variable {source : String} {c : Comment} {o : Text.Opening}

section
variable (opens : Text.splitAt? source c.span.start = some o) (isFirst : Bool)
include opens

/-- What is printed of a comment in an empty body, by the two characters that decide on it. -/
theorem danglingDoc_of_splitAt? :
    c.danglingDoc source isFirst =
      if Text.isNarrow o.last? then c.spaced (if isFirst || !Text.isNarrow o.lastInk? then 0 else min o.feeds 2)
      else Doc.empty := by
  rw [danglingDoc, Text.lineFeedsBefore?_of_splitAt? opens]
  by_cases seen : Text.isNarrow o.last?
  · by_cases kept : Text.isNarrow o.lastInk?
    · simp [seen, kept, spaced]
    · simp [seen, kept, spaced]
  · simp [seen]

theorem danglingDoc_eq_empty_iff :
    c.danglingDoc source isFirst = Doc.empty ↔ ¬ Text.isNarrow o.last? := by
  rw [danglingDoc_of_splitAt? opens]
  by_cases seen : Text.isNarrow o.last?
  · simp [seen, spaced_ne_empty]
  · simp [seen]

theorem danglingDoc_eq_spaced_iff (lines : Nat) :
    c.danglingDoc source isFirst = c.spaced lines ↔
      Text.isNarrow o.last? ∧ lines = if isFirst || !Text.isNarrow o.lastInk? then 0 else min o.feeds 2 := by
  rw [danglingDoc_of_splitAt? opens]
  by_cases seen : Text.isNarrow o.last?
  · rw [if_pos seen, spaced_inj]
    exact ⟨fun counted => ⟨seen, counted.symm⟩, fun both => both.2.symm⟩
  · simp [seen, (spaced_ne_empty c lines).symm]

end

theorem getElem?_danglingDocs (source : String) (earlier later : List Comment) (c : Comment) :
    (danglingDocs source (earlier ++ c :: later))[earlier.length]? = some (c.danglingDoc source (earlier.length == 0)) := by
  simp [danglingDocs]

end Comment

namespace Text

/-- After a run of blanks, the last character that is not blank is that before the run. -/
theorem lastInk?_of_blank {o : Opening} {gap : List Char} (blank : ∀ c ∈ gap, isBlank c) (rest : List Char) :
    (Opening.mk (gap.reverse ++ o.behind) rest).lastInk? = o.lastInk? := by
  have all : ∀ c ∈ gap.reverse, isBlank c := fun c member => blank c (List.mem_reverse.mp member)
  simp only [Opening.lastInk?, List.dropWhile_append_of_pos all]

theorem feeds_pos_of_blank {o : Opening} {gap : List Char} (blank : ∀ c ∈ gap, isBlank c) (feed : '\n' ∈ gap)
    (rest : List Char) : 1 ≤ (Opening.mk (gap.reverse ++ o.behind) rest).feeds := by
  have all : ∀ c ∈ gap.reverse, isBlank c := fun c member => blank c (List.mem_reverse.mp member)
  simp only [Opening.feeds, List.takeWhile_append_of_pos all, List.count_append]
  have counted : 0 < gap.reverse.count '\n' := List.count_pos_iff.mpr (List.mem_reverse.mpr feed)
  omega

end Text

namespace Comment

/-- Each comment in an empty body is printed after the line ends that stand before it in the source, at
    most two, and none before the first, if and only if the characters that decide on it are narrow; a wide
    character right before a comment makes it vanish, and a wide one before the blanks loses the line ends.
    So two comments on different lines stay on different lines just if the last character of the first
    comment (blanks apart) and the last of the blanks between them are narrow. -/
theorem danglingDocs_spacing (source : String) :
    (∀ (c : Comment) (o : Text.Opening) (isFirst : Bool), Text.splitAt? source c.span.start = some o →
      (c.danglingDoc source isFirst = Doc.empty ↔ ¬ Text.isNarrow o.last?) ∧
      (c.danglingDoc source isFirst = c.spaced (if isFirst then 0 else min o.feeds 2) ↔
        Text.isNarrow o.last? ∧ (isFirst ∨ o.feeds = 0 ∨ Text.isNarrow o.lastInk?)) ∧
      (Text.isNarrow o.last? → ¬ Text.isNarrow o.lastInk? → c.danglingDoc source isFirst = c.spaced 0)) ∧
    ∀ (earlier later : List Comment) (c d : Comment) (o : Text.Opening) (gap : String),
      Text.splitAt? source c.span.stop = some o → Text.slice? source c.span.stop d.span.start = some gap →
      (∀ char ∈ gap.toList, Text.isBlank char) → '\n' ∈ gap.toList →
      ((∃ lines, 1 ≤ lines ∧ lines ≤ 2 ∧
          (danglingDocs source (earlier ++ c :: d :: later))[earlier.length + 1]? = some (d.spaced lines)) ↔
        Text.isNarrow gap.toList.getLast? ∧ Text.isNarrow o.lastInk?) := by
  refine ⟨?_, ?_⟩
  · intro c o isFirst opens
    refine ⟨danglingDoc_eq_empty_iff opens isFirst, ?_, ?_⟩
    · have none_kept : min o.feeds 2 = 0 ↔ o.feeds = 0 := by omega
      rw [danglingDoc_eq_spaced_iff opens]
      cases isFirst <;> cases Text.isNarrow o.lastInk? <;> simp [none_kept]
    · intro seen lost
      exact (danglingDoc_eq_spaced_iff opens isFirst 0).mpr ⟨seen, by simp [lost]⟩
  · intro earlier later c d o gap opens between blank feed
    obtain ⟨o', rest, also, behind⟩ := Text.splitAt?_of_slice? between
    obtain rfl : o = o' := Option.some.inj (opens.symm.trans also)
    have last : (Text.Opening.mk (gap.toList.reverse ++ o.behind) rest).last? = gap.toList.getLast? := by
      have ends := List.getLast?_eq_some_getLast (List.ne_nil_of_mem feed)
      simp [Text.Opening.last?, ends]
    have second : (danglingDocs source (earlier ++ c :: d :: later))[earlier.length + 1]? =
        some (d.danglingDoc source false) := by
      have := getElem?_danglingDocs source (earlier ++ [c]) later d
      simpa using this
    have ink := Text.lastInk?_of_blank (o := o) blank rest
    have some_feed := Text.feeds_pos_of_blank (o := o) blank feed rest
    simp only [second, Option.some.injEq, danglingDoc_eq_spaced_iff behind, last, ink]
    constructor
    · rintro ⟨lines, least, -, seen, counted⟩
      refine ⟨seen, ?_⟩
      cases kept : Text.isNarrow o.lastInk? with
      | true => rfl
      | false =>
        rw [kept] at counted
        simp only [Bool.not_false, Bool.or_true, if_true] at counted
        omega
    · rintro ⟨seen, kept⟩
      refine ⟨_, ?_, ?_, seen, rfl⟩
      · simp only [kept, Bool.not_true, Bool.or_false, Bool.false_eq_true, if_false]
        omega
      · simp only [kept, Bool.not_true, Bool.or_false, Bool.false_eq_true, if_false]
        omega

/-- Of two notes on different lines, the second one joins the first if that ends with a wide letter. -/
theorem danglingDocs_spacing_accented :
    let first : Comment := { kind := .inline, text := "// caf\u00e9", span := ⟨0, 8⟩ }
    let second : Comment := { kind := .inline, text := "// tea", span := ⟨9, 15⟩ }
    Text.slice? "// caf\u00e9\n// tea" 8 9 = some "\n" ∧
    ¬ ∃ lines, 1 ≤ lines ∧ lines ≤ 2 ∧
      (danglingDocs "// caf\u00e9\n// tea" [first, second])[1]? = some (second.spaced lines) := by
  intro first second
  have opens : Text.splitAt? "// caf\u00e9\n// tea" 8 =
      some ⟨['\u00e9', 'f', 'a', 'c', ' ', '/', '/'], ['\n', '/', '/', ' ', 't', 'e', 'a']⟩ := by decide
  have between : Text.slice? "// caf\u00e9\n// tea" 8 9 = some "\n" := by decide
  refine ⟨between, fun apart => ?_⟩
  have narrow := ((danglingDocs_spacing _).2 [] [] first second _ _ opens between (by simp [Text.isBlank]) (by simp)).mp apart
  exact absurd narrow.2 (by decide)

end Comment
end ApexLayout
