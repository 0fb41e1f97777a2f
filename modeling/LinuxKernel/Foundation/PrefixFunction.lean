import Mathlib.Data.List.Infix
import Mathlib.Order.Bounds.Defs

/-!
# Prefix functions

The Knuth-Morris-Pratt automaton keeps the longest prefix of `P` ending the text read
(`IsLongest`); its table holds the longest proper borders (`TableSpec`). A step falls back
through the table (`Fallback`) and extends (`IsLongest.concat`); the first time the prefix is all
of `P` it marks the first occurrence (`isLeast_of_suffix`).
-/

namespace PrefixFunction

open List

variable {α : Type*}

theorem concat_suffix_concat_iff {a b : List α} {x y : α} :
    a ++ [x] <:+ b ++ [y] ↔ a <:+ b ∧ x = y := by
  rw [← reverse_prefix]
  simp [and_comm]

section Defs

variable (P : List α)

/-- `q` is the length of the longest prefix of `P` that ends `w`. -/
structure IsLongest (w : List α) (q : Nat) : Prop where
  le : q ≤ P.length
  suffix : P.take q <:+ w
  longest : ∀ k ≤ P.length, P.take k <:+ w → k ≤ q

/-- The table holds at `k - 1` the longest proper border of the first `k` elements of `P`, for
`k` from 1 to `K`. -/
def TableSpec (tbl : Nat → Nat) (K : Nat) : Prop :=
  ∀ k, 0 < k → k ≤ K → IsLongest P ((P.take k).drop 1) (tbl (k - 1))

/-- Where falling back from `q` before the element `c` stops: a border `k` of the first `q`
elements that is 0 or that `c` extends, with no longer border that `c` extends. -/
structure Fallback (q : Nat) (c : α) (k : Nat) : Prop where
  le : k ≤ q
  suffix : P.take k <:+ P.take q
  stop : k = 0 ∨ P[k]? = some c
  longest : ∀ j, k < j → j ≤ q → P.take j <:+ P.take q → P[j]? ≠ some c

/-- `P` occurs in `w` at `p`: it fits there and the elements from `p` on start with it. -/
def OccursAt (w : List α) (p : Nat) : Prop := p + P.length ≤ w.length ∧ P <+: w.drop p

/-- `P` occurs nowhere in `w`. -/
def Absent (w : List α) : Prop := ∀ p, ¬OccursAt P w p

end Defs

variable {P : List α}

theorem take_suffix_take {w : List α} {j k : Nat} (le : j ≤ k) (hj : P.take j <:+ w)
    (hk : P.take k <:+ w) : P.take j <:+ P.take k :=
  suffix_of_suffix_length_le hj hk (by simp only [length_take]; omega)

theorem take_add_one_eq {k : Nat} {c : α} (h : P[k]? = some c) :
    P.take (k + 1) = P.take k ++ [c] := by
  rw [take_add_one, h, Option.toList_some]

theorem drop_one_take_add_one {q : Nat} {c : α} (pos : 0 < q) (h : P[q]? = some c) :
    (P.take (q + 1)).drop 1 = (P.take q).drop 1 ++ [c] := by
  obtain ⟨lt, -⟩ := List.getElem?_eq_some_iff.mp h
  rw [take_add_one_eq h, drop_append_of_le_length (by simp only [length_take]; omega)]

/-! ### The longest prefix ending the text -/

theorem IsLongest.nil : IsLongest P [] 0 where
  le := Nat.zero_le _
  suffix := by simp
  longest k le h := by
    rcases take_eq_nil_iff.mp (suffix_nil.mp h) with zero | empty
    · omega
    · simpa [empty] using le

section Concat

variable [DecidableEq α]

/-- Reading `c`: from the longest prefix `q` ending `w`, fall back to `k`; the longest prefix
ending `w ++ [c]` is then `k + 1` when `c` extends `k`, and `k`, which is 0, when not. -/
theorem IsLongest.concat {w : List α} {q k : Nat} {c : α} (h : IsLongest P w q)
    (lt : q < P.length) (fb : Fallback P q c k) :
    IsLongest P (w ++ [c]) (if P[k]? = some c then k + 1 else k) where
  le := by
    have := fb.le
    split <;> omega
  suffix := by
    split
    · next grows =>
      rw [take_add_one_eq grows]
      exact concat_suffix_concat_iff.mpr ⟨fb.suffix.trans h.suffix, rfl⟩
    · next stuck =>
      simp [fb.stop.resolve_right stuck]
  longest := by
    intro j le suf
    cases j with
    | zero => exact Nat.zero_le _
    | succ j =>
      have at_j : P[j]? = some P[j] := getElem?_eq_getElem (by omega)
      rw [take_add_one_eq at_j, concat_suffix_concat_iff] at suf
      obtain ⟨suf, same⟩ := suf
      rw [same] at at_j
      have bound : j ≤ q := h.longest j (by omega) suf
      -- a border `j` of `q` that `c` extends is one the fallback did not pass over
      have below : j ≤ k := by
        by_contra above
        exact fb.longest j (by omega) bound (take_suffix_take bound suf h.suffix) at_j
      split
      · omega
      · next stuck =>
        have zero : k = 0 := fb.stop.resolve_right stuck
        subst zero
        obtain rfl : j = 0 := by omega
        exact absurd at_j stuck

end Concat

/-! ### The table -/

section Table

variable {tbl : Nat → Nat} {K : Nat}

theorem TableSpec.lt (spec : TableSpec P tbl K) {k : Nat} (pos : 0 < k) (le : k ≤ K) :
    tbl (k - 1) < k := by
  have h := spec k pos le
  have short := h.suffix.length_le
  have := h.le
  simp only [length_drop, length_take] at short
  omega

theorem TableSpec.suffix (spec : TableSpec P tbl K) {k : Nat} (pos : 0 < k) (le : k ≤ K) :
    P.take (tbl (k - 1)) <:+ P.take k :=
  (spec k pos le).suffix.trans (drop_suffix 1 _)

theorem TableSpec.border (spec : TableSpec P tbl K) {j k : Nat} (pos : 0 < k) (le : k ≤ K)
    (hk : k ≤ P.length) (lt : j < k) (border : P.take j <:+ P.take k) :
    j ≤ tbl (k - 1) ∧ P.take j <:+ P.take (tbl (k - 1)) := by
  have h := spec k pos le
  have proper : P.take j <:+ (P.take k).drop 1 :=
    suffix_of_suffix_length_le border (drop_suffix 1 _)
      (by simp only [length_take, length_drop]; omega)
  have bound := h.longest j (by omega) proper
  exact ⟨bound, take_suffix_take bound proper h.suffix⟩

theorem TableSpec.one (zero : tbl 0 = 0) : TableSpec P tbl 1 := by
  intro k pos le
  obtain rfl : k = 1 := by omega
  have empty : (P.take 1).drop 1 = [] := by simp
  rw [empty, Nat.sub_self, zero]
  exact IsLongest.nil

theorem TableSpec.update (spec : TableSpec P tbl K) {v : Nat}
    (h : IsLongest P ((P.take (K + 1)).drop 1) v) : TableSpec P (Function.update tbl K v) (K + 1) := by
  intro k pos le
  rcases Nat.lt_or_eq_of_le le with lt | rfl
  · rw [Function.update_of_ne (by omega)]
    exact spec k pos (by omega)
  · rw [Nat.add_sub_cancel, Function.update_self]
    exact h

/-! ### Falling back -/

theorem Fallback.refl {q : Nat} {c : α} (stop : q = 0 ∨ P[q]? = some c) : Fallback P q c q where
  le := le_rfl
  suffix := suffix_rfl
  stop := stop
  longest _ above below _ := absurd below (by omega)

theorem Fallback.of_table (spec : TableSpec P tbl K) {q k : Nat} {c : α} (pos : 0 < q)
    (le : q ≤ K) (hq : q ≤ P.length) (miss : P[q]? ≠ some c) (fb : Fallback P (tbl (q - 1)) c k) :
    Fallback P q c k where
  le := by
    have := spec.lt pos le
    have := fb.le
    omega
  suffix := fb.suffix.trans (spec.suffix pos le)
  stop := fb.stop
  longest j above below border := by
    rcases Nat.lt_or_eq_of_le below with lt | rfl
    · obtain ⟨bound, border'⟩ := spec.border pos le hq lt border
      exact fb.longest j above bound border'
    · exact miss

end Table

/-! ### Occurrences -/

theorem occursAt_append_iff {w v : List α} {p : Nat} (fits : p + P.length ≤ w.length) :
    OccursAt P (w ++ v) p ↔ OccursAt P w p := by
  unfold OccursAt
  rw [drop_append_of_le_length (by omega)]
  constructor
  · rintro ⟨-, pre⟩
    exact ⟨fits, prefix_of_prefix_length_le pre (prefix_append _ _) (by simp only [length_drop]; omega)⟩
  · rintro ⟨-, pre⟩
    exact ⟨by simp only [length_append]; omega, pre.trans (prefix_append _ _)⟩

theorem OccursAt.concat_cases {w : List α} {p : Nat} {c : α} (h : OccursAt P (w ++ [c]) p) :
    OccursAt P w p ∨ P <:+ w ++ [c] := by
  by_cases fits : p + P.length ≤ w.length
  · exact .inl ((occursAt_append_iff fits).mp h)
  · obtain ⟨bound, pre⟩ := h
    have whole : P = (w ++ [c]).drop p := by
      apply IsPrefix.eq_of_length pre
      simp only [length_drop, length_append, length_singleton] at bound ⊢
      omega
    rw [whole]
    exact .inr (drop_suffix _ _)

theorem Absent.nil (nonempty : P ≠ []) : Absent P [] := by
  rintro p ⟨fits, -⟩
  exact nonempty (length_eq_zero_iff.mp (by simp only [length_nil] at fits; omega))

theorem Absent.concat {w : List α} {c : α} {q : Nat} (none : Absent P w)
    (h : IsLongest P (w ++ [c]) q) (short : q < P.length) : Absent P (w ++ [c]) := by
  intro p occ
  rcases occ.concat_cases with before | ends
  · exact none p before
  · have := h.longest P.length le_rfl (by rwa [take_length])
    omega

theorem isLeast_of_suffix {w : List α} {c : α} (none : Absent P w) (ends : P <:+ w ++ [c])
    (rest : List α) : IsLeast {p | OccursAt P (w ++ [c] ++ rest) p} (w.length + 1 - P.length) := by
  obtain ⟨t, eq⟩ := ends
  have total : t.length + P.length = w.length + 1 := by
    simpa only [length_append, length_singleton] using congrArg length eq
  have len : t.length = w.length + 1 - P.length := by omega
  constructor
  · refine ⟨by simp only [length_append, length_singleton]; omega, ?_⟩
    rw [← eq, ← len, append_assoc, drop_left]
    exact prefix_append _ _
  · intro p occ
    by_contra early
    rw [append_assoc] at occ
    exact none p ((occursAt_append_iff (by omega)).mp occ)

end PrefixFunction
