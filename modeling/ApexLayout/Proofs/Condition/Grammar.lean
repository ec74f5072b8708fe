import Mathlib.Data.List.Forall2

/-!
The grammar of conditions in a query, apart from how they are printed. NOT stands before one operand; a chain of
operands has one operator between them. The parser accepts exactly the sentences of the grammar, so every sentence has
one reading.
-/
namespace ApexLayout

inductive Connective where
  | and
  | or
  deriving Repr, DecidableEq

inductive Condition (α : Type) where
  | atom (value : α)
  | not (operand : Condition α)
  | chain (op : Connective) (operands : List (Condition α))
  deriving Repr

namespace Condition

variable {α β : Type}

inductive Token (α : Type) where
  | atom (value : α)
  | opening
  | closing
  | not
  | link (op : Connective)
  deriving Repr, DecidableEq

def build (op : Connective) : List (Condition α) → Condition α
  | [operand] => operand
  | operands => .chain op operands

/-! ### The grammar -/

mutual
inductive Operand : List (Token α) → Condition α → Prop where
  | atom (a : α) : Operand [.atom a] (.atom a)
  | parentheses {ts : List (Token α)} {c : Condition α} (inner : Sentence ts c) :
      Operand (.opening :: (ts ++ [.closing])) c
inductive Operands : Connective → List (Token α) → List (Condition α) → Prop where
  | one {op : Connective} {ts : List (Token α)} {c : Condition α} (operand : Operand ts c) : Operands op ts [c]
  | more {op : Connective} {ts rest : List (Token α)} {c : Condition α} {cs : List (Condition α)}
      (operand : Operand ts c) (operands : Operands op rest cs) : Operands op (ts ++ .link op :: rest) (c :: cs)
inductive Sentence : List (Token α) → Condition α → Prop where
  | not {ts : List (Token α)} {c : Condition α} (operand : Operand ts c) : Sentence (.not :: ts) (.not c)
  | chain (op : Connective) {ts : List (Token α)} {cs : List (Condition α)} (operands : Operands op ts cs) :
      Sentence ts (build op cs)
end

theorem Operands.append {op : Connective} {ts us : List (Token α)} {cs ds : List (Condition α)}
    (left : Operands op ts cs) (right : Operands op us ds) : Operands op (ts ++ .link op :: us) (cs ++ ds) := by
  induction cs generalizing ts with
  | nil => cases left
  | cons c cs ih =>
    cases left with
    | one operand => exact .more operand right
    | more operand operands =>
      rw [List.append_assoc, List.cons_append]
      exact .more operand (ih operands)

/-! ### The parser -/

mutual
/-- Reads one operand. The fuel bounds the number of steps. -/
def readOperand : Nat → List (Token α) → Option (Condition α × List (Token α))
  | 0, _ => none
  | _ + 1, .atom a :: rest => some (.atom a, rest)
  | fuel + 1, .opening :: rest =>
    match readCondition fuel rest with
    | some (c, .closing :: rest) => some (c, rest)
    | _ => none
  | _ + 1, _ => none
/-- Reads the further operands of a chain, each behind the operator. -/
def readMore (op : Connective) : Nat → List (Token α) → Option (List (Condition α) × List (Token α))
  | 0, _ => none
  | fuel + 1, .link next :: rest =>
    if next = op then
      match readOperand fuel rest with
      | some (c, rest) => (readMore op fuel rest).map fun read => (c :: read.1, read.2)
      | none => none
    else none
  | _ + 1, rest => some ([], rest)
/-- Reads a condition. The first operator is that of the whole chain. -/
def readCondition : Nat → List (Token α) → Option (Condition α × List (Token α))
  | 0, _ => none
  | fuel + 1, .not :: rest => (readOperand fuel rest).map fun read => (.not read.1, read.2)
  | fuel + 1, ts =>
    match readOperand fuel ts with
    | some (c, .link op :: rest) =>
      (readMore op fuel (.link op :: rest)).map fun read => (build op (c :: read.1), read.2)
    | read => read
end

def parse? (ts : List (Token α)) : Option (Condition α) :=
  match readCondition (2 * ts.length + 1) ts with
  | some (c, []) => some c
  | _ => none

def Ends : List (Token α) → Prop
  | .link _ :: _ => False
  | _ => True

theorem link_of_not_ends {ts : List (Token α)} (more : ¬ Ends ts) : ∃ op rest, ts = .link op :: rest := by
  match ts, more with
  | [], more | .atom _ :: _, more | .opening :: _, more | .closing :: _, more | .not :: _, more => exact absurd trivial more
  | .link op :: rest, _ => exact ⟨op, rest, rfl⟩

theorem Operand.length_pos {ts : List (Token α)} {c : Condition α} (operand : Operand ts c) : 0 < ts.length := by
  cases operand <;> simp

theorem Operand.head_ne_not {ts rest : List (Token α)} {c : Condition α} (operand : Operand ts c) (us : List (Token α)) :
    ts ++ rest ≠ .not :: us := by
  cases operand <;> simp

theorem readCondition_eq {ts : List (Token α)} (fuel : Nat) (start : ∀ us, ts ≠ .not :: us) :
    readCondition (fuel + 1) ts =
      match readOperand fuel ts with
      | some (c, .link op :: rest) =>
        (readMore op fuel (.link op :: rest)).map fun read => (build op (c :: read.1), read.2)
      | read => read := by
  rw [readCondition]
  intro us same
  exact absurd same (start us)

theorem readMore_of_ends {rest : List (Token α)} (op : Connective) (fuel : Nat) (ends : Ends rest) :
    readMore op (fuel + 1) rest = some ([], rest) := by
  rw [readMore]
  rintro next us rfl
  exact ends

mutual
theorem readOperand_of_operand {ts : List (Token α)} {c : Condition α} (operand : Operand ts c) (fuel : Nat)
    (rest : List (Token α)) (enough : 2 * ts.length ≤ fuel) : readOperand fuel (ts ++ rest) = some (c, rest) := by
  match operand, fuel with
  | .atom a, fuel + 1 => rfl
  | @Operand.parentheses _ ts _ inner, fuel + 1 =>
    have read := readCondition_of_sentence inner fuel (.closing :: rest) (by simp at enough; omega) trivial
    rw [List.cons_append, List.append_assoc, readOperand, List.singleton_append, read]
theorem readMore_of_operands {op : Connective} {ts : List (Token α)} {cs : List (Condition α)}
    (operands : Operands op ts cs) (fuel : Nat) (rest : List (Token α)) (enough : 2 * ts.length + 1 ≤ fuel)
    (ends : Ends rest) : readMore op fuel (.link op :: (ts ++ rest)) = some (cs, rest) := by
  match operands, fuel with
  | .one operand, fuel + 1 =>
    have some := operand.length_pos
    obtain ⟨fuel, rfl⟩ : ∃ less, fuel = less + 1 := ⟨fuel - 1, by omega⟩
    rw [readMore, if_pos rfl, readOperand_of_operand operand (fuel + 1) rest (by omega)]
    simp [readMore_of_ends op fuel ends]
  | @Operands.more _ _ ts us _ _ operand operands, fuel + 1 =>
    have length : (ts ++ Token.link op :: us).length = ts.length + us.length + 1 := by simp; omega
    rw [readMore, if_pos rfl, List.append_assoc,
      readOperand_of_operand operand fuel (.link op :: us ++ rest) (by omega)]
    simp [readMore_of_operands operands fuel rest (by omega) ends]
theorem readCondition_of_sentence {ts : List (Token α)} {c : Condition α} (sentence : Sentence ts c) (fuel : Nat)
    (rest : List (Token α)) (enough : 2 * ts.length + 1 ≤ fuel) (ends : Ends rest) :
    readCondition fuel (ts ++ rest) = some (c, rest) := by
  match sentence, fuel with
  | @Sentence.not _ ts _ operand, fuel + 1 =>
    have length : (Token.not :: ts).length = ts.length + 1 := rfl
    rw [List.cons_append, readCondition, readOperand_of_operand operand fuel rest (by omega)]
    rfl
  | .chain _ (.one operand), fuel + 1 =>
    rw [readCondition_eq fuel operand.head_ne_not, readOperand_of_operand operand fuel rest (by omega)]
    match rest, ends with
    | [], _ | .atom _ :: _, _ | .opening :: _, _ | .closing :: _, _ | .not :: _, _ => rfl
  | .chain op (@Operands.more _ _ ts us _ _ operand operands), fuel + 1 =>
    have length : (ts ++ Token.link op :: us).length = ts.length + us.length + 1 := by simp; omega
    rw [List.append_assoc, readCondition_eq fuel operand.head_ne_not,
      readOperand_of_operand operand fuel (.link op :: us ++ rest) (by omega)]
    simp [readMore_of_operands operands fuel rest (by omega) ends]
end

mutual
theorem operand_of_readOperand {fuel : Nat} {ts rest : List (Token α)} {c : Condition α}
    (read : readOperand fuel ts = some (c, rest)) : ∃ us, ts = us ++ rest ∧ Operand us c := by
  match fuel, ts with
  | 0, _ => simp [readOperand] at read
  | fuel + 1, .atom a :: ts =>
    obtain ⟨rfl, rfl⟩ : .atom a = c ∧ ts = rest := by simpa [readOperand] using read
    exact ⟨[.atom a], rfl, .atom a⟩
  | fuel + 1, .opening :: ts =>
    rw [readOperand] at read
    split at read
    · next inner after within =>
      obtain ⟨rfl, rfl⟩ : inner = c ∧ after = rest := by simpa using read
      obtain ⟨us, rfl, sentence⟩ := sentence_of_readCondition within
      exact ⟨.opening :: (us ++ [.closing]), by simp, .parentheses sentence⟩
    · cases read
  | fuel + 1, [] | fuel + 1, .closing :: _ | fuel + 1, .not :: _ | fuel + 1, .link _ :: _ =>
    simp [readOperand] at read
theorem operands_of_readMore {op : Connective} {fuel : Nat} {ts rest : List (Token α)} {cs : List (Condition α)}
    (read : readMore op fuel ts = some (cs, rest)) :
    (cs = [] ∧ ts = rest ∧ Ends ts) ∨ ∃ us, ts = .link op :: (us ++ rest) ∧ Operands op us cs := by
  match fuel with
  | 0 => simp [readMore] at read
  | fuel + 1 =>
    by_cases ends : Ends ts
    · rw [readMore_of_ends op fuel ends] at read
      cases read
      exact .inl ⟨rfl, rfl, ends⟩
    · obtain ⟨next, ts, rfl⟩ := link_of_not_ends ends
      rw [readMore] at read
      split at read
      · next same =>
        subst same
        split at read
        · next c after here =>
          obtain ⟨⟨ds, last⟩, later, same⟩ := Option.map_eq_some_iff.1 read
          cases same
          obtain ⟨us, rfl, operand⟩ := operand_of_readOperand here
          rcases operands_of_readMore later with ⟨rfl, rfl, -⟩ | ⟨vs, rfl, operands⟩
          · exact .inr ⟨us, rfl, .one operand⟩
          · exact .inr ⟨us ++ .link next :: vs, by simp, .more operand operands⟩
        · cases read
      · cases read
theorem sentence_of_readCondition {fuel : Nat} {ts rest : List (Token α)} {c : Condition α}
    (read : readCondition fuel ts = some (c, rest)) : ∃ us, ts = us ++ rest ∧ Sentence us c := by
  match fuel with
  | 0 => simp [readCondition] at read
  | fuel + 1 =>
    by_cases start : ∃ us, ts = .not :: us
    · obtain ⟨ts, rfl⟩ := start
      obtain ⟨⟨d, after⟩, here, same⟩ := Option.map_eq_some_iff.1 read
      cases same
      obtain ⟨us, rfl, operand⟩ := operand_of_readOperand here
      exact ⟨.not :: us, rfl, .not operand⟩
    · rw [readCondition_eq fuel fun us same => start ⟨us, same⟩] at read
      split at read
      · next d op after here =>
        obtain ⟨⟨ds, last⟩, later, same⟩ := Option.map_eq_some_iff.1 read
        cases same
        obtain ⟨us, rfl, operand⟩ := operand_of_readOperand here
        rcases operands_of_readMore later with ⟨-, -, ends⟩ | ⟨vs, more, operands⟩
        · exact ends.elim
        · exact ⟨us ++ .link op :: vs, by simp [more], .chain op (.more operand operands)⟩
      · next here =>
        obtain ⟨us, same, operand⟩ := operand_of_readOperand read
        exact ⟨us, same, .chain .and (.one operand)⟩
end

/-- The parser accepts the sentences of the grammar, each with the condition it is a sentence for, and
    nothing else. -/
theorem parse?_eq_some_iff {ts : List (Token α)} {c : Condition α} : parse? ts = some c ↔ Sentence ts c := by
  constructor
  · intro parsed
    rw [parse?] at parsed
    split at parsed
    · next d read =>
      cases parsed
      obtain ⟨us, same, sentence⟩ := sentence_of_readCondition read
      rw [List.append_nil] at same
      rw [same]
      exact sentence
    · cases parsed
  · intro sentence
    have read := readCondition_of_sentence sentence (2 * ts.length + 1) [] (Nat.le_refl _) trivial
    rw [List.append_nil] at read
    rw [parse?, read]

theorem Sentence.unique {ts : List (Token α)} {c d : Condition α} (left : Sentence ts c) (right : Sentence ts d) :
    c = d :=
  Option.some.inj ((parse?_eq_some_iff.2 left).symm.trans (parse?_eq_some_iff.2 right))

/-! ### Meaning -/

mutual
def holds (truth : α → Bool) : Condition α → Bool
  | .atom a => truth a
  | .not c => !c.holds truth
  | .chain .and cs => holdAll truth cs
  | .chain .or cs => holdAny truth cs
def holdAll (truth : α → Bool) : List (Condition α) → Bool
  | [] => true
  | c :: cs => c.holds truth && holdAll truth cs
def holdAny (truth : α → Bool) : List (Condition α) → Bool
  | [] => false
  | c :: cs => c.holds truth || holdAny truth cs
end

/-- The conditions differ only in chains that are operands of chains with the same operator, and in
    chains of one operand. -/
inductive Alike : Condition α → Condition α → Prop where
  | refl (c : Condition α) : Alike c c
  | symm {c d : Condition α} (same : Alike c d) : Alike d c
  | trans {c d e : Condition α} (left : Alike c d) (right : Alike d e) : Alike c e
  | not {c d : Condition α} (same : Alike c d) : Alike (.not c) (.not d)
  | operand {c d : Condition α} (op : Connective) (before after : List (Condition α)) (same : Alike c d) :
      Alike (.chain op (before ++ c :: after)) (.chain op (before ++ d :: after))
  /-- The operands of a chain within a chain are operands of the outer one. -/
  | merge (op : Connective) (before within after : List (Condition α)) :
      Alike (.chain op (before ++ .chain op within :: after)) (.chain op (before ++ within ++ after))
  /-- A chain of one operand is its operand. -/
  | single (op : Connective) (c : Condition α) : Alike (.chain op [c]) c

theorem holdAll_append (truth : α → Bool) (cs ds : List (Condition α)) :
    holdAll truth (cs ++ ds) = (holdAll truth cs && holdAll truth ds) := by
  induction cs with
  | nil => simp [holdAll]
  | cons c cs ih => simp [holdAll, ih, Bool.and_assoc]

theorem holdAny_append (truth : α → Bool) (cs ds : List (Condition α)) :
    holdAny truth (cs ++ ds) = (holdAny truth cs || holdAny truth ds) := by
  induction cs with
  | nil => simp [holdAny]
  | cons c cs ih => simp [holdAny, ih, Bool.or_assoc]

/-- Merging chains keeps the truth of a condition. -/
theorem Alike.holds_eq {c d : Condition α} (alike : Alike c d) (truth : α → Bool) : c.holds truth = d.holds truth := by
  induction alike with
  | refl c => rfl
  | symm _ ih => exact ih.symm
  | trans _ _ left right => exact left.trans right
  | not _ ih => simp only [holds, ih]
  | operand op before after _ ih => cases op <;> simp only [holds, holdAll_append, holdAny_append, holdAll, holdAny, ih]
  | merge op before within after =>
    cases op <;> simp only [holds, holdAll_append, holdAny_append, holdAll, holdAny, Bool.and_assoc, Bool.or_assoc]
  | single op c => cases op <;> simp [holds, holdAll, holdAny]

end Condition
end ApexLayout
