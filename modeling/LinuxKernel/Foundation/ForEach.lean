import Mathlib.Order.Basic

/-!
# Loops driven by a `next` function

`for (i = start, next(&i, &out); i != stop; next(&i, &out)) body(out);`. `Yields next stop i l`:
the loop from `i` ends, running its body on `l`. A cursor that refines a list step by step
yields it (`Yields.of_step`).
-/

namespace ForEach

variable {σ α : Type*} {next : σ → σ × Option α} {stop : σ}

inductive Yields (next : σ → σ × Option α) (stop : σ) : σ → List α → Prop
  | stop {i : σ} : (next i).1 = stop → Yields next stop i []
  | yield {i : σ} {a : α} {l : List α} : (next i).1 ≠ stop → (next i).2 = some a →
      Yields next stop (next i).1 l → Yields next stop i (a :: l)

theorem Yields.unique {i : σ} {l₁ l₂ : List α} (h₁ : Yields next stop i l₁)
    (h₂ : Yields next stop i l₂) : l₁ = l₂ := by
  induction h₁ generalizing l₂ with
  | stop ends =>
    cases h₂ with
    | stop _ => rfl
    | yield goes _ _ => exact absurd ends goes
  | yield goes wrote _ ih =>
    cases h₂ with
    | stop ends => exact absurd ends goes
    | yield _ wrote' rest =>
      rw [wrote] at wrote'
      cases wrote'
      rw [ih rest]

/-- One call from a cursor that satisfies `Inv`: the loop ends with nothing left, or the call
yields the head of what is left and moves to a cursor that satisfies `Inv` again. -/
def Step (next : σ → σ × Option α) (stop : σ) (Inv : σ → Prop) (pending : σ → List α) (i : σ) :
    Prop :=
  (next i).1 = stop ∧ pending i = [] ∨
    ∃ a, (next i).1 ≠ stop ∧ (next i).2 = some a ∧ Inv (next i).1 ∧ pending i = a :: pending (next i).1

theorem Yields.of_step {Inv : σ → Prop} {pending : σ → List α}
    (step : ∀ i, Inv i → Step next stop Inv pending i) : ∀ i, Inv i → Yields next stop i (pending i) := by
  suffices run : ∀ n i, (pending i).length = n → Inv i → Yields next stop i (pending i) from
    fun i inv => run _ i rfl inv
  intro n
  induction n with
  | zero =>
    intro i len inv
    rcases step i inv with ⟨ends, _⟩ | ⟨a, _, _, _, split⟩
    · rw [List.length_eq_zero_iff.mp len]
      exact .stop ends
    · rw [split] at len
      cases len
  | succ n ih =>
    intro i len inv
    rcases step i inv with ⟨_, empty⟩ | ⟨a, goes, wrote, inv', split⟩
    · rw [empty] at len
      cases len
    · rw [split] at len ⊢
      exact .yield goes wrote (ih _ (Nat.succ.inj len) inv')

end ForEach
