import Mathlib
import LinuxKernel.Foundation.FunArray

/-!
# Heapsort

`lib/sort.c`: `sort` heapsorts `num` elements of `size` bytes with byte offsets held in `int`,
mixed with `size_t` comparisons; the model computes each conversion. The array maps element
numbers to elements and each loop runs on fuel.
-/

namespace LinuxKernel

/-- `(int)x`: the low 32 bits of `x`, read signed. -/
def int32 (x : Int) : Int := (x + 2 ^ 31) % 2 ^ 32 - 2 ^ 31

/-- `(size_t)x`: `x` modulo `2 ^ 64`. -/
def sizeT (x : Int) : Nat := (x % 2 ^ 64).toNat

variable {α : Type}

/-- The element at byte offset `off`. -/
def elemAt (a : Nat → α) (size : Nat) (off : Int) : α := a (off.toNat / size)

def swapAt (a : Nat → α) (size : Nat) (r c : Int) : Nat → α :=
  Function.update (Function.update a (r.toNat / size) (elemAt a size c)) (c.toNat / size)
    (elemAt a size r)

/-- `for (r = ...; r * 2 + size < n; r = c)` of `sort`: the element at `r` sinks below its
larger child until it is at least that child, in the heap of the first `n` bytes. -/
def sortSiftDown (cmp : α → α → Int) (size : Nat) (n : Int) : Nat → (Nat → α) → Int → Option (Nat → α)
  | 0, _, _ => none
  | fuel + 1, a, r =>
    if (sizeT (int32 (r * 2)) + size) % 2 ^ 64 < sizeT n then
      let c := int32 (r * 2 + size)
      let c := if sizeT c < sizeT (n - size) ∧ cmp (elemAt a size c) (elemAt a size (c + size)) < 0
        then int32 (c + size) else c
      if cmp (elemAt a size r) (elemAt a size c) ≥ 0 then some a
      else sortSiftDown cmp size n fuel (swapAt a size r c) c
    else some a

/-- The heapify loop `for ( ; i >= 0; i -= size)` of `sort`. -/
def sortHeapify (cmp : α → α → Int) (size : Nat) (n : Int) (siftFuel : Nat) :
    Nat → (Nat → α) → Int → Option (Nat → α)
  | 0, _, _ => none
  | fuel + 1, a, i =>
    if i ≥ 0 then
      (sortSiftDown cmp size n siftFuel a i).bind fun a =>
        sortHeapify cmp size n siftFuel fuel a (int32 (i - size))
    else some a

/-- The sort loop `for (i = n - size; i > 0; i -= size)` of `sort`: the top of the heap goes to
offset `i`, and the heap of the first `i` bytes is mended. -/
def sortExtract (cmp : α → α → Int) (size : Nat) (siftFuel : Nat) :
    Nat → (Nat → α) → Int → Option (Nat → α)
  | 0, _, _ => none
  | fuel + 1, a, i =>
    if i > 0 then
      (sortSiftDown cmp size i siftFuel (swapAt a size 0 i) 0).bind fun a =>
        sortExtract cmp size siftFuel fuel a (int32 (i - size))
    else some a

/-- `sort(base, num, size, cmp_func, NULL)`, each loop with `num + 1` rounds of fuel. -/
def sort (cmp : α → α → Int) (a : Nat → α) (num size : Nat) : Option (Nat → α) :=
  let i := int32 (((num / 2 : Nat) - 1 : Int) * size)
  let n := int32 (num * size)
  (sortHeapify cmp size n (num + 1) (num + 1) a i).bind fun a =>
    sortExtract cmp size (num + 1) (num + 1) a (int32 (n - size))

theorem sortHeapify_stuck {cmp : α → α → Int} {size : Nat} {n i : Int} (hi : 0 ≤ i)
    (leaf : ¬(sizeT (int32 (i * 2)) + size) % 2 ^ 64 < sizeT n) (back : int32 (i - size) = i)
    (a : Nat → α) (siftFuel fuel : Nat) : sortHeapify cmp size n siftFuel fuel a i = none := by
  induction fuel with
  | zero => rfl
  | succ fuel ih =>
    cases siftFuel with
    | zero => simp [sortHeapify, sortSiftDown, hi]
    | succ siftFuel =>
      rw [sortHeapify, if_pos hi, sortSiftDown, if_neg leaf, Option.bind_some, back]
      exact ih

/-- `sort` of no elements of `2^32` bytes: `num/2 - 1` wraps in `size_t`, and the low 32 bits of
`(num/2 - 1) * size` are 0, so heapify starts at `i = 0`; `i -= size` gives the low 32 bits of
`-2^32`, 0 again, and the loop never ends, for any fuel. Elements of 0 bytes do the same for
every `num`. -/
theorem sortHeapify_never_ends (cmp : α → α → Int) (a : Nat → α) (num siftFuel fuel : Nat) :
    sortHeapify cmp (2 ^ 32) (int32 ((0 * 2 ^ 32 : Nat) : Int)) siftFuel fuel a
        (int32 (((0 / 2 : Nat) - 1 : Int) * (2 ^ 32 : Nat))) = none ∧
      sortHeapify cmp 0 (int32 ((num * 0 : Nat) : Int)) siftFuel fuel a
        (int32 (((num / 2 : Nat) - 1 : Int) * (0 : Nat))) = none := by
  constructor
  · have start : int32 (((0 / 2 : Nat) - 1 : Int) * (2 ^ 32 : Nat)) = 0 := by decide
    rw [start]
    exact sortHeapify_stuck (Int.le_refl 0) (by decide) (by decide) a siftFuel fuel
  · have start : int32 (((num / 2 : Nat) - 1 : Int) * (0 : Nat)) = 0 := by simp [int32]
    rw [start, Nat.mul_zero]
    exact sortHeapify_stuck (Int.le_refl 0) (by decide) (by decide) a siftFuel fuel

end LinuxKernel
