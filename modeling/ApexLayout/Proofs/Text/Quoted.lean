import ApexLayout.Text.Quoted
import Mathlib.Data.List.TakeWhile

/-!
Quoted texts can be told apart: no quoted character is the beginning of another one, and none begins with a quote
(`quoted_append_inj`).
-/
namespace ApexLayout.Text

/-- Characters of one class end where the first other one stands. -/
theorem append_inj_of_class {p : Char → Bool} {xs ys s t : List Char} (left : ∀ c ∈ xs, p c) (right : ∀ c ∈ ys, p c)
    (stops : ∀ c ∈ s.head?, p c = false) (stops' : ∀ c ∈ t.head?, p c = false) (same : xs ++ s = ys ++ t) :
    xs = ys ∧ s = t := by
  have cut : ∀ {xs s : List Char}, (∀ c ∈ xs, p c) → (∀ c ∈ s.head?, p c = false) → (xs ++ s).takeWhile p = xs := by
    intro xs s all stops
    rw [List.takeWhile_append_of_pos all]
    cases s with
    | nil => simp
    | cons c s => simp [stops c rfl]
  obtain rfl : xs = ys := by rw [← cut left stops, same, cut right stops']
  exact ⟨rfl, List.append_cancel_left same⟩

/-! ### Numbers -/

theorem exists_digit_of_mem_toDigits {b n : Nat} {c : Char} (base : 1 < b) (member : c ∈ Nat.toDigits b n) :
    ∃ d < b, c = d.digitChar := by
  induction n using Nat.strongRecOn with
  | ind n ih =>
    by_cases small : n < b
    · rw [Nat.toDigits_of_lt_base small, List.mem_singleton] at member
      exact ⟨n, small, member⟩
    · rw [Nat.toDigits_of_base_le base (by omega), List.mem_append, List.mem_singleton] at member
      rcases member with front | last
      · exact ih (n / b) (Nat.div_lt_self (by omega) base) front
      · exact ⟨n % b, Nat.mod_lt n (by omega), last⟩

theorem digitChar_inj : ∀ d < 16, ∀ e < 16, Nat.digitChar d = Nat.digitChar e → d = e := by decide

/-- A number is given by its digits. -/
theorem toDigits_inj {b : Nat} (base : 1 < b) (most : b ≤ 16) {m n : Nat} (same : Nat.toDigits b m = Nat.toDigits b n) :
    m = n := by
  induction m using Nat.strongRecOn generalizing n with
  | ind m ih =>
    have long {k : Nat} (large : ¬k < b) : 2 ≤ (Nat.toDigits b k).length := by
      have some_digit := Nat.length_toDigits_pos (b := b) (n := k / b)
      rw [Nat.toDigits_of_base_le base (by omega), List.length_append, List.length_singleton]
      omega
    by_cases small : m < b <;> by_cases small' : n < b
    · rw [Nat.toDigits_of_lt_base small, Nat.toDigits_of_lt_base small', List.singleton_inj] at same
      exact digitChar_inj m (by omega) n (by omega) same
    · have short := long small'
      simp [← same, Nat.toDigits_of_lt_base small] at short
    · have short := long small
      simp [same, Nat.toDigits_of_lt_base small'] at short
    · rw [Nat.toDigits_of_base_le base (Nat.le_of_not_lt small), Nat.toDigits_of_base_le base (Nat.le_of_not_lt small')] at same
      obtain ⟨front, last⟩ := List.append_inj' same rfl
      have high := ih (m / b) (Nat.div_lt_self (by omega) base) front
      have less (k : Nat) : k % b < 16 := Nat.lt_of_lt_of_le (Nat.mod_lt k (by omega)) most
      have low := digitChar_inj _ (less m) _ (less n) (List.singleton_inj.mp last)
      rw [← Nat.div_add_mod m b, ← Nat.div_add_mod n b, high, low]

/-- Digits end before a character that is none. -/
theorem toDigits_append_inj {b : Nat} (base : 1 < b) (most : b ≤ 16) {m n : Nat} {c : Char} {s t : List Char}
    (stops : ∀ d < 16, c ≠ Nat.digitChar d) (same : Nat.toDigits b m ++ c :: s = Nat.toDigits b n ++ c :: t) :
    m = n ∧ s = t := by
  have differs {k : Nat} : ∀ d ∈ Nat.toDigits b k, (d != c) = true := by
    intro d member
    obtain ⟨digit, less, rfl⟩ := exists_digit_of_mem_toDigits base member
    simpa using (stops digit (by omega)).symm
  obtain ⟨digits, rest⟩ := append_inj_of_class differs differs (by simp) (by simp) same
  exact ⟨toDigits_inj base most digits, (List.cons.inj rest).2⟩

/-! ### Characters -/

/-- The characters that have a short escape, with its letter. -/
def shortEscapes : List (Char × Char) :=
  [('"', '"'), ('\\', '\\'), ('\n', 'n'), ('\r', 'r'), ('\t', 't'), (Char.ofNat 0, '0')]

theorem quotedChar_cases (c : Char) :
    (∃ x, (c, x) ∈ shortEscapes ∧ quotedChar c = ['\\', x]) ∨
      quotedChar c = '\\' :: 'u' :: '\x7b' :: hexDigits c.toNat ++ ['\x7d'] ∨
      c ≠ '\\' ∧ c ≠ '"' ∧ quotedChar c = [c] := by
  unfold quotedChar
  split
  · next same => exact .inl ⟨'"', by simp [shortEscapes, same], rfl⟩
  split
  · next same => exact .inl ⟨'\\', by simp [shortEscapes, same], rfl⟩
  split
  · next same => exact .inl ⟨'n', by simp [shortEscapes, same], rfl⟩
  split
  · next same => exact .inl ⟨'r', by simp [shortEscapes, same], rfl⟩
  split
  · next same => exact .inl ⟨'t', by simp [shortEscapes, same], rfl⟩
  split
  · next zero => exact .inl ⟨'0', by simp [shortEscapes, ← Char.toNat_inj, zero], rfl⟩
  split
  · exact .inr (.inl rfl)
  · next no_quote no_backslash _ _ _ _ _ => exact .inr (.inr ⟨no_backslash, no_quote, rfl⟩)

theorem shortEscapes_inj {c d x : Char} (here : (c, x) ∈ shortEscapes) (there : (d, x) ∈ shortEscapes) :
    c = d ∧ x ≠ 'u' := by
  simp only [shortEscapes, List.mem_cons, Prod.mk.injEq, List.not_mem_nil, or_false] at here there
  grind

/-- No quoted character is the beginning of another one. -/
theorem quotedChar_append_inj {c d : Char} {s t : List Char} (same : quotedChar c ++ s = quotedChar d ++ t) :
    c = d ∧ s = t := by
  rcases quotedChar_cases c with ⟨x, short, shown⟩ | shown | ⟨no_backslash, -, shown⟩ <;>
    rcases quotedChar_cases d with ⟨y, short', shown'⟩ | shown' | ⟨no_backslash', -, shown'⟩ <;>
    rw [shown, shown'] at same <;>
    simp only [List.cons_append, List.nil_append, List.append_assoc, List.cons.injEq, true_and] at same
  · obtain ⟨rfl, rest⟩ := same
    exact ⟨(shortEscapes_inj short short').1, rest⟩
  · exact absurd same.1 (shortEscapes_inj short short).2
  · exact absurd same.1.symm no_backslash'
  · exact absurd same.1.symm (shortEscapes_inj short' short').2
  · obtain ⟨number, rest⟩ := toDigits_append_inj (by decide) (by decide) (by decide) same
    exact ⟨Char.toNat_inj.mp number, rest⟩
  · exact absurd same.1.symm no_backslash'
  · exact absurd same.1 no_backslash
  · exact absurd same.1 no_backslash
  · exact same

theorem head?_quotedChar (c : Char) (s : List Char) : (quotedChar c ++ s).head? ≠ some '"' := by
  rcases quotedChar_cases c with ⟨x, -, shown⟩ | shown | ⟨-, no_quote, shown⟩
  · simp [shown]
  · simp [shown]
  · simpa [shown] using no_quote

theorem flatMap_quotedChar_inj {cs ds s t : List Char}
    (same : cs.flatMap quotedChar ++ '"' :: s = ds.flatMap quotedChar ++ '"' :: t) : cs = ds ∧ s = t := by
  induction cs generalizing ds with
  | nil =>
    cases ds with
    | nil => simpa using same
    | cons d ds =>
      have first := head?_quotedChar d (ds.flatMap quotedChar ++ '"' :: t)
      rw [← List.append_assoc, ← List.flatMap_cons, ← same] at first
      exact absurd rfl first
  | cons c cs ih =>
    cases ds with
    | nil =>
      have first := head?_quotedChar c (cs.flatMap quotedChar ++ '"' :: s)
      rw [← List.append_assoc, ← List.flatMap_cons, same] at first
      exact absurd rfl first
    | cons d ds =>
      simp only [List.flatMap_cons, List.append_assoc] at same
      obtain ⟨rfl, later⟩ := quotedChar_append_inj same
      obtain ⟨rfl, rest⟩ := ih later
      exact ⟨rfl, rest⟩

/-- A quoted text ends at its closing quote, whatever comes behind it. -/
theorem quoted_append_inj {v w : String} {s t : List Char} (same : (quoted v).toList ++ s = (quoted w).toList ++ t) :
    v = w ∧ s = t := by
  simp only [quoted, String.toList_ofList, List.cons_append, List.append_assoc, List.nil_append, List.cons.injEq,
    true_and] at same
  obtain ⟨chars, rest⟩ := flatMap_quotedChar_inj same
  exact ⟨String.toList_inj.mp chars, rest⟩

end ApexLayout.Text
