import ApexLayout.Text.Blank
import Mathlib.Data.List.DropRight

/-!
Pieces of texts, and texts without the blanks at their ends.
-/
namespace ApexLayout.Text

variable {c : Char} {s : String}

theorem pieces_ne_nil (sep : Char) (cs : List Char) : pieces sep cs ≠ [] := by
  fun_cases pieces sep cs with
  | _ => simp [*]

theorem lines_ne_nil (s : String) : lines s ≠ [] := by
  simp [lines, pieces_ne_nil]

/-- The pieces before a separator and those behind it are the pieces of the whole. -/
theorem pieces_append (sep : Char) (before behind : List Char) :
    pieces sep (before ++ sep :: behind) = pieces sep before ++ pieces sep behind := by
  induction before with
  | nil => simp [pieces]
  | cons c before ih =>
    by_cases ends : c = sep
    · simp [pieces, ends, ih]
    · obtain ⟨piece, rest, first⟩ := List.exists_cons_of_ne_nil (pieces_ne_nil sep before)
      simp [pieces, ends, ih, first]

theorem pieces_of_not_mem {sep : Char} {cs : List Char} (absent : sep ∉ cs) : pieces sep cs = [cs] := by
  induction cs with
  | nil => rfl
  | cons c cs ih =>
    obtain ⟨other, later⟩ := not_or.mp (mt List.mem_cons.mpr absent)
    rw [pieces, if_neg (Ne.symm other), ih later]

theorem not_mem_of_mem_pieces {sep : Char} {cs piece : List Char} (member : piece ∈ pieces sep cs) : sep ∉ piece := by
  induction cs generalizing piece with
  | nil =>
    obtain rfl : piece = [] := by simpa [pieces] using member
    simp
  | cons c cs ih =>
    by_cases ends : c = sep
    · simp only [pieces, ends, if_true, List.mem_cons] at member
      rcases member with rfl | later
      · simp
      · exact ih later
    · obtain ⟨first, rest, split⟩ := List.exists_cons_of_ne_nil (pieces_ne_nil sep cs)
      simp only [pieces, ends, if_false, split, List.mem_cons] at member ih
      rcases member with rfl | later
      · simpa using ⟨Ne.symm ends, ih (.inl rfl)⟩
      · exact ih (.inr later)

theorem isBlank_of_isGap (gap : isGap c) : isBlank c := by
  simp only [isGap, Bool.or_eq_true, beq_iff_eq] at gap
  rcases gap with rfl | rfl <;> decide

section
variable {gap : List Char} (blank : ∀ c ∈ gap, isBlank c) (s : String)
include blank

theorem trimStart_append : trimStart (String.ofList gap ++ s) = trimStart s := by
  rw [trimStart, String.toList_append, String.toList_ofList, List.dropWhile_append_of_pos blank, trimStart]

theorem trim_append : trim (String.ofList gap ++ s) = trim s := by
  rw [trim, String.toList_append, String.toList_ofList, List.dropWhile_append_of_pos blank, trim]

end

theorem isBlank_space : ∀ c ∈ [' '], isBlank c := List.forall_mem_singleton.mpr (by decide)

theorem trimStart_space (s : String) : trimStart (" " ++ s) = trimStart s := trimStart_append isBlank_space s

theorem trim_space (s : String) : trim (" " ++ s) = trim s := trim_append isBlank_space s

theorem trimStart_trimStart (s : String) : trimStart (trimStart s) = trimStart s := by
  rw [trimStart, trimStart, String.toList_ofList, List.dropWhile_idempotent]

theorem trimStart_trim (s : String) : trimStart (trim s) = trim s := by
  rw [trimStart, trim, String.toList_ofList]
  congr 1
  obtain ⟨rest, whole⟩ : dropWhileEnd isBlank (s.toList.dropWhile isBlank) <+: s.toList.dropWhile isBlank :=
    List.rdropWhile_prefix isBlank _
  cases kept : dropWhileEnd isBlank (s.toList.dropWhile isBlank) with
  | nil => rfl
  | cons c cs =>
    have first : (s.toList.dropWhile isBlank).head? = some c := by rw [← whole, kept]; rfl
    exact List.dropWhile_cons_of_neg (by simpa [first] using List.head?_dropWhile_not isBlank s.toList)

theorem trim_trim (s : String) : trim (trim s) = trim s := by
  have inner := congrArg String.toList (trimStart_trim s)
  rw [trimStart, String.toList_ofList] at inner
  rw [trim, inner, trim, String.toList_ofList]
  exact congrArg String.ofList (List.rdropWhile_idempotent isBlank _)

theorem exists_getLast?_trim (filled : trim s ≠ "") :
    ∃ c, (trim s).toList.getLast? = some c ∧ isGap c = false := by
  have kept : (s.toList.dropWhile isBlank).rdropWhile isBlank ≠ [] := by
    rintro nothing
    exact filled (congrArg String.ofList nothing)
  refine ⟨_, by rw [trim, String.toList_ofList]; exact List.getLast?_eq_some_getLast kept, ?_⟩
  have ink := List.rdropWhile_last_not isBlank (s.toList.dropWhile isBlank) kept
  exact Bool.eq_false_iff.mpr fun gap => ink (isBlank_of_isGap gap)

/-- A text with something on it that is no blank starts alike when the blanks at its end are dropped. -/
theorem head?_trim (ink : isBlank c = false) (first : (trimStart s).toList.head? = some c) :
    (trim s).toList.head? = some c := by
  rw [trimStart, String.toList_ofList] at first
  obtain ⟨rest, split⟩ := List.head?_eq_some_iff.mp first
  rw [trim, String.toList_ofList, split]
  obtain ⟨tail, whole⟩ : dropWhileEnd isBlank (c :: rest) <+: c :: rest := List.rdropWhile_prefix isBlank _
  cases kept : dropWhileEnd isBlank (c :: rest) with
  | nil =>
    have all := List.rdropWhile_eq_nil_iff.mp kept c List.mem_cons_self
    rw [ink] at all
    cases all
  | cons d ds =>
    rw [kept] at whole
    obtain ⟨rfl, -⟩ := List.cons.inj whole
    rfl

theorem mem_of_mem_trimStart (member : c ∈ (trimStart s).toList) : c ∈ s.toList := by
  rw [trimStart, String.toList_ofList] at member
  exact (List.dropWhile_sublist _).mem member

theorem mem_of_mem_trim (member : c ∈ (trim s).toList) : c ∈ s.toList := by
  rw [trim, String.toList_ofList] at member
  exact (List.dropWhile_sublist _).mem ((List.rdropWhile_prefix isBlank _).mem member)

end ApexLayout.Text
