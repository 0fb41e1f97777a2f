import LinuxKernel.Foundation.Bitmap
import Mathlib.Data.Nat.Nth

/-!
# Rank and select over the positions of a predicate

`firstIn p lo hi` is the first position of `[lo, hi)` where `p` holds. How many positions below
`i` hold (the rank, `Nat.count`) and which position is the `n`-th to hold (the select,
`Nat.nth`) are Mathlib's; the positions `firstIn` skips leave the rank as it was
(`count_firstIn`).

`forEachIn` is the loop `for (i = first(lo); i < hi; i = first(i + 1)) body(i)` on fuel, and
`forEachIn_inv` its invariant rule: an invariant indexed by the position reached, kept by the
positions where `p` fails and by the body at those where it holds, holds at `hi` when the
loop ends, and the loop does end.
-/

namespace Bitmap

section Rank

variable {p : Nat → Bool} {lo hi : Nat}

theorem firstIn_le_of_true {j : Nat} (le : lo ≤ j) (holds : p j = true) :
    firstIn p lo hi ≤ j := by
  by_contra past
  rw [firstIn_false (p := p) le (show j < firstIn p lo hi by omega)] at holds
  cases holds

theorem count_eq_of_false {a b : Nat} (le : a ≤ b) (none : ∀ j, a ≤ j → j < b → p j = false) :
    Nat.count (fun i => p i) b = Nat.count (fun i => p i) a := by
  induction b, le using Nat.le_induction with
  | base => rfl
  | succ b le ih =>
    rw [Nat.count_succ, ih fun j lo hi => none j lo (by omega),
      if_neg (by simp [none b le (by omega)]), Nat.add_zero]

theorem count_firstIn (le : lo ≤ hi) :
    Nat.count (fun i => p i) (firstIn p lo hi) = Nat.count (fun i => p i) lo :=
  count_eq_of_false (le_firstIn le) fun _ below before => firstIn_false below before

theorem lt_card_of_lt_count {n k : Nat} (lt : n < Nat.count (fun i => p i) k) :
    ∀ hf : (Set.ofPred fun i => p i).Finite, n < hf.toFinset.card :=
  fun hf => lt_of_lt_of_le lt (Nat.count_le_card hf k)

theorem nth_of_lt_count {n k : Nat} (lt : n < Nat.count (fun i => p i) k) :
    p (Nat.nth (fun i => p i) n) = true ∧ Nat.nth (fun i => p i) n < k ∧
      Nat.count (fun i => p i) (Nat.nth (fun i => p i) n) = n :=
  ⟨Nat.nth_mem n (lt_card_of_lt_count lt), Nat.nth_lt_of_lt_count lt,
    Nat.count_nth (lt_card_of_lt_count lt)⟩

end Rank

/-! ### The loop over the positions -/

section Loop

variable {σ : Type*} (p : Nat → Bool) (hi : Nat) (body : Nat → σ → Option σ)

/-- `for (i = first; i < hi; i = firstIn p (i + 1) hi) body(i)` for `fuel` rounds, from the
cursor `i`: `none` when the rounds run out or the body fails. -/
def forEachIn : Nat → Nat → σ → Option σ
  | 0, _, _ => none
  | fuel + 1, i, s => if i < hi then (body i s).bind (forEachIn fuel (firstIn p (i + 1) hi)) else some s

variable {p hi body}

theorem inv_of_false {Inv : Nat → σ → Prop}
    (skip : ∀ i s, i < hi → p i = false → Inv i s → Inv (i + 1) s) {a b : Nat} {s : σ}
    (le : a ≤ b) (within : b ≤ hi) (none : ∀ j, a ≤ j → j < b → p j = false) (start : Inv a s) :
    Inv b s := by
  induction b, le using Nat.le_induction with
  | base => exact start
  | succ b le ih =>
    exact skip b s (by omega) (none b le (by omega))
      (ih (by omega) fun j lo hi => none j lo (by omega))

/-- The invariant rule of the loop: started at `firstIn p lo hi` with the invariant at `lo` and
more rounds than positions left, it ends with the invariant at `hi`. By induction on the fuel,
the cursor moving past one position where `p` holds each round. -/
theorem forEachIn_inv (Inv : Nat → σ → Prop)
    (skip : ∀ i s, i < hi → p i = false → Inv i s → Inv (i + 1) s)
    (step : ∀ i s, i < hi → p i = true → Inv i s → ∃ s', body i s = some s' ∧ Inv (i + 1) s')
    {fuel lo : Nat} {s : σ} (le : lo ≤ hi) (enough : hi - lo < fuel) (start : Inv lo s) :
    ∃ s', forEachIn p hi body fuel (firstIn p lo hi) s = some s' ∧ Inv hi s' := by
  induction fuel generalizing lo s with
  | zero => omega
  | succ fuel ih =>
    have reached : Inv (firstIn p lo hi) s :=
      inv_of_false skip (le_firstIn le) firstIn_le (fun _ below before => firstIn_false below before)
        start
    have past := le_firstIn (p := p) le
    rw [forEachIn]
    by_cases lt : firstIn p lo hi < hi
    · obtain ⟨s', ran, kept⟩ := step _ s lt (firstIn_true lt) reached
      rw [if_pos lt, ran, Option.bind_some]
      exact ih (by omega) (by omega) kept
    · have ended : firstIn p lo hi = hi := Nat.le_antisymm firstIn_le (by omega)
      rw [if_neg lt]
      exact ⟨s, rfl, ended ▸ reached⟩

end Loop

end Bitmap
