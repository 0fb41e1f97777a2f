import Mathlib

/-!
# Rules for `Except` computations

What a successful `Except` computation says about its parts: a sequence succeeds when
each step does, a thrown error never succeeds, and a guarded branch succeeds only when
its guard held. Stated once, used to peel the steps of the modelled kernel functions.
-/

namespace ExceptRules

variable {ε α β : Type}

@[simp] theorem bind_eq_ok {x : Except ε α} {f : α → Except ε β} {b : β} :
    (x >>= f) = .ok b ↔ ∃ a, x = .ok a ∧ f a = .ok b := by
  cases x <;> simp [bind, Except.bind]

@[simp] theorem map_eq_ok {x : Except ε α} {f : α → β} {b : β} :
    (f <$> x) = .ok b ↔ ∃ a, x = .ok a ∧ f a = b := by
  cases x <;> simp [Functor.map, Except.map]

@[simp] theorem throw_ne_ok {e : ε} {a : α} : (throw e : Except ε α) ≠ .ok a := by
  simp [throw, throwThe, MonadExceptOf.throw]

@[simp] theorem throw_eq_ok_iff {e : ε} {a : α} : (throw e : Except ε α) = .ok a ↔ False :=
  ⟨fun h => throw_ne_ok h, False.elim⟩

@[simp] theorem pure_eq_ok {a b : α} : (pure a : Except ε α) = .ok b ↔ a = b := by
  simp [pure, Except.pure]

@[simp] theorem error_eq_ok {e : ε} {a : α} : (Except.error e : Except ε α) = .ok a ↔ False := by
  simp

@[simp] theorem throw_bind {e : ε} {f : α → Except ε β} : (throw e >>= f : Except ε β) = throw e :=
  rfl

@[simp] theorem if_throw_eq_ok {p : Prop} [Decidable p] {e : ε} {x : Except ε α} {b : α} :
    (if p then throw e else x) = .ok b ↔ ¬p ∧ x = .ok b := by
  by_cases hp : p <;> simp [hp]

@[simp] theorem ite_throw_eq_ok {p : Prop} [Decidable p] {e : ε} {x : Except ε α} {b : α} :
    (if p then x else throw e) = .ok b ↔ p ∧ x = .ok b := by
  by_cases hp : p <;> simp [hp]

/-- A body run over the elements of a list until it fails: the state before the element it
failed on, and the error. -/
def foldUntilError {σ : Type} (body : α → σ → Except ε σ) : List α → σ → σ × Option ε
  | [], st => (st, none)
  | a :: as, st =>
    match body a st with
    | .error e => (st, some e)
    | .ok st => foldUntilError body as st

end ExceptRules
