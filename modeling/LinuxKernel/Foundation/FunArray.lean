import Mathlib.Data.List.Nodup
import Mathlib.Data.List.Perm.Basic
import Mathlib.Data.List.Range
import Mathlib.Logic.Equiv.Basic

/-!
# Arrays as functions

An array of `n` cells is a function from indices to values read below `n`. Its contents are
the list of those cells, and a sort that only exchanges cells leaves them a permutation of
what they were.
-/

namespace FunArray

variable {α : Type*}

/-- The first `n` cells of `f`. -/
def cells (f : Nat → α) (n : Nat) : List α := (List.range n).map f

@[simp] theorem length_cells (f : Nat → α) (n : Nat) : (cells f n).length = n := by
  simp [cells]

theorem mem_cells {f : Nat → α} {n : Nat} {a : α} : a ∈ cells f n ↔ ∃ i < n, f i = a := by
  simp [cells]

theorem cells_congr {f g : Nat → α} {n : Nat} (same : ∀ i < n, f i = g i) :
    cells f n = cells g n := by
  apply List.map_congr_left
  intro i mem
  exact same i (List.mem_range.mp mem)

theorem cells_swap_perm (f : Nat → α) {n i j : Nat} (hi : i < n) (hj : j < n) :
    (cells (Function.update (Function.update f i (f j)) j (f i)) n).Perm (cells f n) := by
  -- the exchange is `f` after the transposition of `i` and `j`, a bijection of the indices
  have swapped : Function.update (Function.update f i (f j)) j (f i) = f ∘ Equiv.swap i j := by
    funext k
    by_cases kj : k = j
    · subst kj
      simp
    · by_cases ki : k = i
      · subst ki
        simp [kj]
      · simp [ki, kj, Equiv.swap_apply_of_ne_of_ne]
  have indices : ((List.range n).map (Equiv.swap i j)).Perm (List.range n) := by
    apply (List.perm_ext_iff_of_nodup (List.Nodup.map (Equiv.injective _) List.nodup_range)
      List.nodup_range).mpr
    intro k
    simp only [List.mem_map, List.mem_range]
    constructor
    · rintro ⟨l, lt, rfl⟩
      rw [Equiv.swap_apply_def]
      split_ifs <;> assumption
    · intro lt
      refine ⟨Equiv.swap i j k, ?_, Equiv.swap_apply_self _ _ _⟩
      rw [Equiv.swap_apply_def]
      split_ifs <;> assumption
  rw [swapped, cells, ← List.map_map]
  exact indices.map f

end FunArray
