import ApexLayout.Error
import Mathlib.Data.List.Forall2

/-!
Outcomes that are no failure: a computation of several parts succeeds if and only if each part does.
-/
namespace ApexLayout

variable {ε α β : Type} {x : Except ε α} {f : α → Except ε β} {a : α}

@[simp] theorem bind_eq_ok {b : β} :
    x >>= f = .ok b ↔ ∃ a, x = .ok a ∧ f a = .ok b := by
  cases x with
  | error e | ok a => simp [bind, Except.bind]

theorem ok_bind : Except.ok a >>= f = f a := rfl

theorem bind_eq_error {e : ε} :
    x >>= f = .error e ↔ x = .error e ∨ ∃ a, x = .ok a ∧ f a = .error e := by
  cases x with
  | error other | ok a => simp [bind, Except.bind]

theorem bind_congr_ok {g : α → Except ε β} (same : ∀ a, x = .ok a → f a = g a) : x >>= f = x >>= g := by
  cases x with
  | error e => rfl
  | ok a => exact same a rfl

@[simp] theorem map_eq_ok {f : α → β} {b : β} :
    f <$> x = .ok b ↔ ∃ a, x = .ok a ∧ f a = b := by
  cases x with
  | error e | ok a => simp [Functor.map, Except.map]

theorem exists_map_eq_ok {f : α → β} : (∃ b, f <$> x = .ok b) ↔ ∃ a, x = .ok a := by
  simp

theorem map_eq_error {f : α → β} {e : ε} : f <$> x = .error e ↔ x = .error e := by
  cases x with
  | error other | ok a => simp [Functor.map, Except.map]

@[simp] theorem pure_eq_ok {b : α} : (pure a : Except ε α) = .ok b ↔ a = b := by
  simp [pure, Except.pure]

@[simp] theorem getD_error_eq_ok {x : Option (Except ε α)} {e : ε} :
    x.getD (.error e) = .ok a ↔ x = some (.ok a) := by
  cases x with
  | none | some r => simp

theorem forall₂_of_mapM {f : α → Outcome β} {xs : List α} {ys : List β} (ok : xs.mapM f = .ok ys) :
    List.Forall₂ (fun x y => f x = .ok y) xs ys := by
  induction xs generalizing ys with
  | nil =>
    obtain rfl : [] = ys := by simpa using ok
    exact .nil
  | cons x xs ih =>
    obtain ⟨y, here, rest, later, rfl⟩ : ∃ y, f x = .ok y ∧ ∃ rest, xs.mapM f = .ok rest ∧ y :: rest = ys := by
      simpa using ok
    exact .cons here (ih later)

end ApexLayout
