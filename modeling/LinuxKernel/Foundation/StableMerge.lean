import Mathlib.Data.List.Sort

/-!
# Stable merging

`List.mergeSort` is a stable sort for a total preorder. Merging the stable sorts of two blocks,
the first block taken first on ties, gives the stable sort of the two blocks one after the
other: so a bottom-up merge sort that always merges an older block into a newer one sorts
exactly as `List.mergeSort` does.

The proof tags every element with its position (`zipIdx`), which makes the order total and
antisymmetric, so that a sorted permutation is unique.
-/

namespace StableMerge

open List

variable {α : Type*} {le : α → α → Bool}

theorem mergeSort_eq_nil_iff {l : List α} : mergeSort l le = [] ↔ l = [] := by
  rw [← length_eq_zero_iff, length_mergeSort, length_eq_zero_iff]

theorem zipIdxLE_antisymm {xs : List α} {a b : α × Nat} (ha : a ∈ xs.zipIdx) (hb : b ∈ xs.zipIdx)
    (ab : zipIdxLE le a b = true) (ba : zipIdxLE le b a = true) : a = b := by
  have same : a.2 = b.2 := by
    unfold zipIdxLE at ab ba
    by_cases h : le a.1 b.1
    · by_cases h' : le b.1 a.1
      · simp only [h, h', if_true, decide_eq_true_eq] at ab ba
        omega
      · simp [h'] at ba
    · simp [h] at ab
  have la := mem_zipIdx ha
  have lb := mem_zipIdx hb
  have ia : a.2 < xs.length := by omega
  have ib : b.2 < xs.length := by omega
  -- the tag is the position, and a position holds one element
  have fa : a.1 = xs[a.2] := by simpa using la.2.2
  have fb : b.1 = xs[b.2] := by simpa using lb.2.2
  ext
  · rw [fa, fb]
    simp only [same]
  · exact same

theorem mergeSort_zipIdx_from (n : Nat) (l : List α) :
    (mergeSort (l.zipIdx n) (zipIdxLE le)).map (·.1) = mergeSort l le := by
  -- shifting every position by `n` keeps their order
  have shift : ∀ a ∈ l.zipIdx, ∀ b ∈ l.zipIdx,
      zipIdxLE le a b = zipIdxLE le ((fun p : α × Nat => (p.1, n + p.2)) a) ((fun p => (p.1, n + p.2)) b) := by
    intro a _ b _
    simp [zipIdxLE]
  rw [zipIdx_eq_map_add, ← map_mergeSort shift, map_map]
  exact mergeSort_zipIdx

theorem merge_mergeSort_append (trans : ∀ a b c, le a b → le b c → le a c)
    (total : ∀ a b, le a b || le b a) (xs ys : List α) :
    merge (mergeSort xs le) (mergeSort ys le) le = mergeSort (xs ++ ys) le := by
  have split : (xs ++ ys).zipIdx = xs.zipIdx ++ ys.zipIdx xs.length := by
    rw [zipIdx_append, Nat.zero_add]
  have sorted := pairwise_mergeSort (zipIdxLE_trans trans) (zipIdxLE_total total)
  -- the tagged blocks merged, and the tagged whole sorted, are one list
  have merged : merge (mergeSort xs.zipIdx (zipIdxLE le)) (mergeSort (ys.zipIdx xs.length) (zipIdxLE le))
      (zipIdxLE le) = mergeSort (xs ++ ys).zipIdx (zipIdxLE le) := by
    have perm : (merge (mergeSort xs.zipIdx (zipIdxLE le)) (mergeSort (ys.zipIdx xs.length) (zipIdxLE le))
        (zipIdxLE le)).Perm (mergeSort (xs ++ ys).zipIdx (zipIdxLE le)) := by
      refine (merge_perm_append _).trans ?_
      refine ((mergeSort_perm _ _).append (mergeSort_perm _ _)).trans ?_
      rw [← split]
      exact (mergeSort_perm _ _).symm
    have anti : ∀ a b, a ∈ merge (mergeSort xs.zipIdx (zipIdxLE le))
        (mergeSort (ys.zipIdx xs.length) (zipIdxLE le)) (zipIdxLE le) →
        b ∈ mergeSort (xs ++ ys).zipIdx (zipIdxLE le) →
        zipIdxLE le a b = true → zipIdxLE le b a = true → a = b := by
      intro a b ha hb ab ba
      exact zipIdxLE_antisymm (mem_mergeSort.mp (perm.mem_iff.mp ha)) (mem_mergeSort.mp hb) ab ba
    exact Perm.eq_of_pairwise anti
      (pairwise_merge (zipIdxLE_trans trans) (zipIdxLE_total total) _ _ (sorted _) (sorted _))
      (sorted _) perm
  -- every tag of the first block is below every tag of the second
  have before : ∀ x y, x ∈ mergeSort xs.zipIdx (zipIdxLE le) →
      y ∈ mergeSort (ys.zipIdx xs.length) (zipIdxLE le) → x.2 ≤ y.2 := by
    intro x y hx hy
    have lx := mem_zipIdx (mem_mergeSort.mp hx)
    have ly := mem_zipIdx (mem_mergeSort.mp hy)
    omega
  rw [← mergeSort_zipIdx_from 0 xs, ← mergeSort_zipIdx_from xs.length ys,
    ← merge_stable _ _ before, merged, ← mergeSort_zipIdx_from 0 (xs ++ ys)]

end StableMerge
