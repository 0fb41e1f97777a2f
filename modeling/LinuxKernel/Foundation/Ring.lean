import Mathlib.Data.List.Range
import Mathlib.Data.Nat.ModEq
import Mathlib.Tactic.Ring

/-!
# Ring buffers over a flat memory

A memory is a function from addresses to cells, and `memcpy` overwrites a window of it. A
ring of `size` cells is read from an offset on, wrapping at the end: `ringRead`. Writing into
a ring, or reading out of one, at an offset takes two copies, the second one from the start
of the ring for what passed its end; the lemmas here say what those two copies do, cell by
cell, in terms of the distance from the offset.
-/

namespace Ring

variable {α : Type*}

def memcpy (dst : Nat → α) (d : Nat) (src : Nat → α) (s n : Nat) : Nat → α :=
  fun p => if d ≤ p ∧ p < d + n then src (s + (p - d)) else dst p

def memset (dst : Nat → α) (d : Nat) (c : α) (n : Nat) : Nat → α := memcpy dst d (fun _ => c) 0 n

/-- `n` cells from address `s` on. -/
def read (m : Nat → α) (s n : Nat) : List α := (List.range n).map fun j => m (s + j)

/-- `n` cells of a ring of `size` cells, from `off` on. -/
def ringRead (m : Nat → α) (size off n : Nat) : List α :=
  (List.range n).map fun j => m ((off + j) % size)

/-- `xs` written over `m` from address 0 on. -/
def store (m : Nat → α) (xs : List α) : Nat → α :=
  fun p => if h : p < xs.length then xs[p] else m p

@[simp] theorem length_read (m : Nat → α) (s n : Nat) : (read m s n).length = n := by
  simp [read]

@[simp] theorem length_ringRead (m : Nat → α) (size off n : Nat) :
    (ringRead m size off n).length = n := by
  simp [ringRead]

theorem ringRead_add (m : Nat → α) (size off a b : Nat) :
    ringRead m size off (a + b) = ringRead m size off a ++ ringRead m size (off + a) b := by
  simp only [ringRead, List.range_add, List.map_append, List.map_map]
  congr 1
  apply List.map_congr_left
  intro j _
  simp only [Function.comp_apply, Nat.add_assoc]

theorem ringRead_drop (m : Nat → α) (size off n k : Nat) :
    (ringRead m size off n).drop k = ringRead m size (off + k) (n - k) := by
  apply List.ext_getElem (by simp)
  intro i h _
  simp only [ringRead, List.getElem_drop, List.getElem_map, List.getElem_range, Nat.add_assoc]

theorem ringRead_congr {m m' : Nat → α} {size off n : Nat}
    (agree : ∀ j < n, m ((off + j) % size) = m' ((off + j) % size)) :
    ringRead m size off n = ringRead m' size off n := by
  apply List.map_congr_left
  intro j mem
  exact agree j (List.mem_range.mp mem)

theorem ringRead_eq_read {m src : Nat → α} {size off n s : Nat}
    (cells : ∀ j < n, m ((off + j) % size) = src (s + j)) :
    ringRead m size off n = read src s n := by
  apply List.map_congr_left
  intro j mem
  exact cells j (List.mem_range.mp mem)

theorem read_memcpy (dst src : Nat → α) (d s n : Nat) :
    read (memcpy dst d src s n) d n = read src s n := by
  apply List.map_congr_left
  intro j mem
  have lt := List.mem_range.mp mem
  simp only [memcpy, if_pos (show d ≤ d + j ∧ d + j < d + n by omega), Nat.add_sub_cancel_left]

theorem read_memcpy_of_disjoint (dst src : Nat → α) {d s n p k : Nat}
    (apart : d + n ≤ p ∨ p + k ≤ d) : read (memcpy dst d src s n) p k = read dst p k := by
  apply List.map_congr_left
  intro j mem
  have lt := List.mem_range.mp mem
  simp only [memcpy, if_neg (show ¬(d ≤ p + j ∧ p + j < d + n) by omega)]

/-! ### Rings of cells of `e` bytes

A ring of `size` elements of `e` cells is a ring of `size * e` cells, whose element at
position `p` starts at cell `p * e`. -/

theorem mul_add_mod_congr {a b s : Nat} (e j : Nat) (h : a % s = b % s) :
    (a * e + j) % (s * e) = (b * e + j) % (s * e) := by
  rw [← Nat.mod_add_mod (a * e), Nat.mul_mod_mul_right, h, ← Nat.mul_mod_mul_right,
    Nat.mod_add_mod]

theorem mul_add_lt_mul_iff {t j e n : Nat} (hj : j < e) : t * e + j < n * e ↔ t < n := by
  constructor
  · intro lt
    by_contra ge
    have := Nat.mul_le_mul_right e (Nat.le_of_not_lt ge)
    omega
  · intro lt
    calc t * e + j < (t + 1) * e := by rw [Nat.succ_mul]; omega
      _ ≤ n * e := Nat.mul_le_mul_right e lt

theorem flatten_ringRead (m : Nat → α) (size p e n : Nat) :
    ((List.range n).map fun i => ringRead m size ((p + i) * e) e).flatten =
      ringRead m size (p * e) (n * e) := by
  induction n with
  | zero => simp [ringRead]
  | succ n ih =>
    rw [List.range_succ, List.map_append, List.flatten_append, ih, Nat.succ_mul, ringRead_add]
    simp [Nat.add_mul]

/-! ### The two copies of a ring write and of a ring read -/

section TwoCopies

variable {size off len : Nat}

theorem min_cases (len size off : Nat) :
    (min len (size - off) = len ∧ len ≤ size - off) ∨
      (min len (size - off) = size - off ∧ size - off < len) := by
  omega

/-- Writing `len` cells at `off` of a ring as `memcpy(ring + off, src, l)` and
`memcpy(ring, src + l, len - l)` with `l = min(len, size - off)`: the cell at distance `d`
from `off` is `src[d]` for `d < len`, and is left as it was beyond. -/
theorem memcpy_ring_in (m src : Nat → α) (hoff : off < size) (hlen : len ≤ size) {d : Nat}
    (hd : d < size) :
    memcpy (memcpy m off src 0 (min len (size - off))) 0 src (min len (size - off))
        (len - min len (size - off)) ((off + d) % size) =
      if d < len then src d else m ((off + d) % size) := by
  have first := min_cases len size off
  generalize min len (size - off) = l at *
  unfold memcpy
  by_cases wrap : off + d < size
  · -- the cell lies before the end of the ring: only the first copy reaches it
    rw [Nat.mod_eq_of_lt wrap, if_neg (by omega)]
    by_cases within : d < len
    · rw [if_pos ⟨by omega, by omega⟩, if_pos within]
      congr 1
      omega
    · rw [if_neg (by omega), if_neg within]
  · -- the cell lies past the end: it is `off + d - size`, and only the second copy reaches it
    have back : (off + d) % size = off + d - size := by
      rw [Nat.mod_eq_sub_mod (by omega), Nat.mod_eq_of_lt (by omega)]
    rw [back]
    by_cases within : d < len
    · rw [if_pos ⟨by omega, by omega⟩, if_pos within]
      congr 1
      omega
    · rw [if_neg (by omega), if_neg (by omega), if_neg within]

/-- Reading `len` cells at `off` of a ring into `dst` as `memcpy(dst, ring + off, l)` and
`memcpy(dst + l, ring, len - l)`: cell `j < len` of `dst` is the ring's cell at distance `j`
from `off`. -/
theorem memcpy_ring_out (dst m : Nat → α) (hoff : off < size) (hlen : len ≤ size) {j : Nat}
    (hj : j < len) :
    memcpy (memcpy dst 0 m off (min len (size - off))) (min len (size - off)) m 0
        (len - min len (size - off)) j = m ((off + j) % size) := by
  have first := min_cases len size off
  generalize min len (size - off) = l at *
  unfold memcpy
  by_cases wrap : off + j < size
  · rw [Nat.mod_eq_of_lt wrap, if_neg (by omega), if_pos ⟨by omega, by omega⟩, Nat.sub_zero]
  · have back : (off + j) % size = off + j - size := by
      rw [Nat.mod_eq_sub_mod (by omega), Nat.mod_eq_of_lt (by omega)]
    rw [back, if_pos ⟨by omega, by omega⟩]
    congr 1
    omega

theorem memcpy_ring_out_frame (dst m : Nat → α) {p : Nat} (hp : len ≤ p) :
    memcpy (memcpy dst 0 m off (min len (size - off))) (min len (size - off)) m 0
        (len - min len (size - off)) p = dst p := by
  have first := min_cases len size off
  generalize min len (size - off) = l at *
  unfold memcpy
  rw [if_neg (by omega), if_neg (by omega)]

end TwoCopies

/-! ### Free-running counters -/

theorem toNat_min (a b : UInt32) : (min a b).toNat = min a.toNat b.toNat := by
  show (if a ≤ b then a else b).toNat = _
  by_cases le : a ≤ b
  · rw [if_pos le, Nat.min_eq_left (UInt32.le_iff_toNat_le.mp le)]
  · rw [if_neg le, Nat.min_eq_right (by rw [UInt32.le_iff_toNat_le] at le; omega)]

theorem toNat_sub_min (a b : UInt32) : (a - min a b).toNat = a.toNat - min a.toNat b.toNat := by
  have le : min a b ≤ a := by
    rw [UInt32.le_iff_toNat_le, toNat_min]
    exact Nat.min_le_left _ _
  rw [UInt32.toNat_sub_of_le _ _ le, toNat_min]

end Ring
