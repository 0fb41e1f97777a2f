import Mathlib.Data.Nat.Sqrt
import Mathlib.Tactic.Ring

/-!
# Integer square root (`lib/int_sqrt.c`)

`int_sqrt` finds the root two bits of the square at a time, `one` running down the powers
`4^k`; it returns `Nat.sqrt x` for every `x` (`intSqrt_eq_sqrt`). The invariant `RootInv` halves
the bracket of the root each round (`rootInv_take`, `rootInv_keep`).
-/

namespace LinuxKernel.IntSqrt

/-- `while (one > op) one >>= 2;` for `fuel` rounds. -/
def shrinkOne : Nat → UInt64 → UInt64 → Option UInt64
  | 0, _, _ => none
  | fuel + 1, op, one => if one > op then shrinkOne fuel op (one >>> 2) else some one

/-- The digit loop `while (one != 0)` for `fuel` rounds, returning `res`. -/
def digitLoop : Nat → UInt64 → UInt64 → UInt64 → Option UInt64
  | 0, _, _, _ => none
  | fuel + 1, op, res, one =>
    if one ≠ 0 then
      let (op, res) := if op ≥ res + one then (op - (res + one), res + 2 * one) else (op, res)
      digitLoop fuel op (res / 2) (one / 4)
    else some res

/-- `int_sqrt(x)` with `one = 1UL << (BITS_PER_LONG - 2)`. Both loops take at most 33 rounds. -/
def intSqrt (x : UInt64) : Option UInt64 := do
  let one ← shrinkOne 33 x ((1 : UInt64) <<< 62)
  digitLoop 33 x 0 one

/-! ### The invariant of the digit loop, over `Nat` -/

/-- At `one = 4^j / 4`: `res` is the root found so far, `r`, scaled by `2^j`; `r` is a multiple of
`2^j`, `op` is what `r * r` leaves of `x`, and the root of `x` is below `r + 2^j`. -/
def RootInv (x j op res : Nat) : Prop :=
  ∃ r, 2 ^ j ∣ r ∧ res = r * 2 ^ j ∧ op + r * r = x ∧ x < (r + 2 ^ j) * (r + 2 ^ j)

theorem rootInv_start {x j : Nat} (below : x < 4 ^ j) : RootInv x j x 0 := by
  refine ⟨0, Nat.dvd_zero _, by rw [Nat.zero_mul], by rw [Nat.mul_zero, Nat.add_zero], ?_⟩
  rw [Nat.zero_add, ← Nat.mul_pow]
  exact below

theorem four_pow_eq (k : Nat) : 4 ^ k = 2 ^ k * 2 ^ k := by
  rw [← Nat.mul_pow]

theorem square_add_digit (r k : Nat) :
    (r + 2 ^ k) * (r + 2 ^ k) = r * r + (r * 2 ^ (k + 1) + 4 ^ k) := by
  rw [four_pow_eq, Nat.pow_succ]
  ring

theorem rootInv_take {x k op res : Nat} (inv : RootInv x (k + 1) op res)
    (take : res + 4 ^ k ≤ op) :
    RootInv x k (op - (res + 4 ^ k)) ((res + 2 * 4 ^ k) / 2) := by
  obtain ⟨r, dvd, scaled, rest, bracket⟩ := inv
  have square := square_add_digit r k
  refine ⟨r + 2 ^ k, ?_, ?_, ?_, ?_⟩
  · exact Nat.dvd_add (Nat.dvd_trans (Nat.pow_dvd_pow 2 (Nat.le_succ k)) dvd) (Nat.dvd_refl _)
  · have doubled : res + 2 * 4 ^ k = 2 * ((r + 2 ^ k) * 2 ^ k) := by
      rw [scaled, four_pow_eq, Nat.pow_succ]
      ring
    rw [doubled, Nat.mul_div_cancel_left _ (by decide)]
  · omega
  · have wider : r + 2 ^ k + 2 ^ k = r + 2 ^ (k + 1) := by rw [Nat.pow_succ]; ring
    rw [wider]
    exact bracket

theorem rootInv_keep {x k op res : Nat} (inv : RootInv x (k + 1) op res)
    (keep : op < res + 4 ^ k) : RootInv x k op (res / 2) := by
  obtain ⟨r, dvd, scaled, rest, bracket⟩ := inv
  have square := square_add_digit r k
  refine ⟨r, Nat.dvd_trans (Nat.pow_dvd_pow 2 (Nat.le_succ k)) dvd, ?_, rest, by omega⟩
  have halved : res = 2 * (r * 2 ^ k) := by rw [scaled, Nat.pow_succ]; ring
  rw [halved, Nat.mul_div_cancel_left _ (by decide)]

theorem rootInv_zero {x op res : Nat} (inv : RootInv x 0 op res) : res = Nat.sqrt x := by
  obtain ⟨r, _, scaled, rest, bracket⟩ := inv
  rw [Nat.pow_zero, Nat.mul_one] at scaled
  rw [scaled, Nat.eq_sqrt]
  exact ⟨by omega, bracket⟩

/-- Nothing wraps: the root found so far is below `2^32` and a multiple of `2^(k+1)`, so it is at
most `2^32 - 2^(k+1)`, and `res + 2 * one` stays below `2^(k+1) · 2^32`. -/
theorem rootInv_fits {x k op res : Nat} (inv : RootInv x (k + 1) op res) (fits : x < 2 ^ 64)
    (small : k < 32) : res + 2 * 4 ^ k < 2 ^ 64 := by
  obtain ⟨r, ⟨a, multiple⟩, scaled, rest, _⟩ := inv
  have root : r < 2 ^ 32 := by
    by_contra big
    have : 2 ^ 32 * 2 ^ 32 ≤ r * r := Nat.mul_le_mul (by omega) (by omega)
    omega
  obtain ⟨b, whole⟩ : 2 ^ (k + 1) ∣ 2 ^ 32 := Nat.pow_dvd_pow 2 (by omega)
  have pos : 0 < 2 ^ (k + 1) := Nat.two_pow_pos _
  have fewer : a + 1 ≤ b := by
    rw [multiple, whole] at root
    exact Nat.lt_of_mul_lt_mul_left root
  have room : r + 2 ^ (k + 1) ≤ 2 ^ 32 := by
    calc r + 2 ^ (k + 1) = 2 ^ (k + 1) * (a + 1) := by rw [multiple]; ring
      _ ≤ 2 ^ (k + 1) * b := Nat.mul_le_mul_left _ fewer
      _ = 2 ^ 32 := whole.symm
  have total : res + 2 * 4 ^ k = 2 ^ (k + 1) * (r + 2 ^ k) := by
    rw [scaled, four_pow_eq, Nat.pow_succ]
    ring
  have half : 2 ^ k < 2 ^ (k + 1) := Nat.pow_lt_pow_succ (by decide)
  calc res + 2 * 4 ^ k = 2 ^ (k + 1) * (r + 2 ^ k) := total
    _ < 2 ^ (k + 1) * 2 ^ 32 := Nat.mul_lt_mul_of_pos_left (by omega) pos
    _ ≤ 2 ^ 32 * 2 ^ 32 := Nat.mul_le_mul_right _ (Nat.pow_le_pow_right (by decide) (by omega))
    _ = 2 ^ 64 := by norm_num

/-! ### The loops -/

theorem toNat_quarter (one : UInt64) : (one / 4).toNat = one.toNat / 4 := UInt64.toNat_div _ _

theorem digit_step {x k : Nat} {op res one : UInt64} (inv : RootInv x (k + 1) op.toNat res.toNat)
    (fits : x < 2 ^ 64) (small : k < 32) (power : one.toNat = 4 ^ k) :
    let next := if op ≥ res + one then (op - (res + one), res + 2 * one) else (op, res)
    RootInv x k next.1.toNat (next.2 / 2).toNat := by
  intro next
  have two : (2 : UInt64).toNat = 2 := rfl
  have room := rootInv_fits inv fits small
  have sum : (res + one).toNat = res.toNat + 4 ^ k := by
    rw [UInt64.toNat_add, power, Nat.mod_eq_of_lt (by omega)]
  by_cases take : op ≥ res + one
  · have covered : res.toNat + 4 ^ k ≤ op.toNat := by
      rw [← sum]
      exact UInt64.le_iff_toNat_le.mp take
    have doubled : (res + 2 * one).toNat = res.toNat + 2 * 4 ^ k := by
      rw [UInt64.toNat_add, UInt64.toNat_mul, power, two,
        Nat.mod_eq_of_lt (show 2 * 4 ^ k < 2 ^ 64 by omega), Nat.mod_eq_of_lt (by omega)]
    have taken := rootInv_take inv covered
    rw [← sum, ← doubled, ← UInt64.toNat_sub_of_le _ _ take] at taken
    simpa only [next, if_pos take, UInt64.toNat_div, two] using taken
  · have short : op.toNat < res.toNat + 4 ^ k := by
      rw [← sum]
      exact Nat.lt_of_not_le fun le => take (UInt64.le_iff_toNat_le.mpr le)
    simpa only [next, if_neg take, UInt64.toNat_div, two] using rootInv_keep inv short

theorem digitLoop_eq {x : Nat} (fits : x < 2 ^ 64) : ∀ (j fuel : Nat) (op res one : UInt64),
    j ≤ 32 → j < fuel → one.toNat = 4 ^ j / 4 → RootInv x j op.toNat res.toNat →
    (digitLoop fuel op res one).map UInt64.toNat = some (Nat.sqrt x) := by
  intro j
  induction j with
  | zero =>
    intro fuel op res one _ enough power inv
    obtain ⟨fuel, rfl⟩ : ∃ f, fuel = f + 1 := ⟨fuel - 1, by omega⟩
    have zero : one = 0 := UInt64.toNat_inj.mp (by rw [power]; rfl)
    rw [digitLoop, if_neg (not_not.mpr zero), Option.map_some, rootInv_zero inv]
  | succ k ih =>
    intro fuel op res one within enough power inv
    obtain ⟨fuel, rfl⟩ : ∃ f, fuel = f + 1 := ⟨fuel - 1, by omega⟩
    have digit : one.toNat = 4 ^ k := by
      rw [power, Nat.pow_succ, Nat.mul_div_cancel _ (by decide)]
    have nonzero : one ≠ 0 := fun zero => by
      rw [zero] at digit
      exact absurd digit (Nat.pow_pos (show 0 < 4 by decide)).ne
    rw [digitLoop, if_pos nonzero]
    exact ih fuel _ _ (one / 4) (by omega) (by omega) (by rw [toNat_quarter, digit])
      (digit_step inv fits (by omega) digit)

theorem shrinkOne_spec (x : UInt64) : ∀ (j fuel : Nat) (one : UInt64),
    j < fuel → one.toNat = 4 ^ j / 4 → x.toNat < 4 ^ j →
    ∃ j' one', shrinkOne fuel x one = some one' ∧ j' ≤ j ∧ one'.toNat = 4 ^ j' / 4 ∧
      x.toNat < 4 ^ j' := by
  intro j
  induction j with
  | zero =>
    intro fuel one enough power below
    obtain ⟨fuel, rfl⟩ : ∃ f, fuel = f + 1 := ⟨fuel - 1, by omega⟩
    have notAbove : ¬one > x := fun above => by
      rw [GT.gt, UInt64.lt_iff_toNat_lt, power] at above
      exact Nat.not_lt_zero _ above
    rw [shrinkOne, if_neg notAbove]
    exact ⟨0, one, rfl, le_refl 0, power, below⟩
  | succ k ih =>
    intro fuel one enough power below
    obtain ⟨fuel, rfl⟩ : ∃ f, fuel = f + 1 := ⟨fuel - 1, by omega⟩
    have digit : one.toNat = 4 ^ k := by
      rw [power, Nat.pow_succ, Nat.mul_div_cancel _ (by decide)]
    rw [shrinkOne]
    by_cases above : one > x
    · have lower : x.toNat < 4 ^ k := by
        rw [GT.gt, UInt64.lt_iff_toNat_lt, digit] at above
        exact above
      have quarter : (one >>> 2).toNat = 4 ^ k / 4 := by
        rw [UInt64.toNat_shiftRight, digit, Nat.shiftRight_eq_div_pow]
        rfl
      obtain ⟨j', one', found, le, power', below'⟩ := ih fuel (one >>> 2) (by omega) quarter lower
      rw [if_pos above]
      exact ⟨j', one', found, by omega, power', below'⟩
    · rw [if_neg above]
      exact ⟨k + 1, one, rfl, le_refl _, power, below⟩

/-- `int_sqrt(x)` is the integer square root of `x`, the largest `r` with `r * r ≤ x`, for every
`x`. -/
theorem intSqrt_eq_sqrt (x : UInt64) : (intSqrt x).map UInt64.toNat = some (Nat.sqrt x.toNat) := by
  have fits := UInt64.toNat_lt x
  obtain ⟨j, one, found, le, power, below⟩ :=
    shrinkOne_spec x 32 33 ((1 : UInt64) <<< 62) (by decide) (by decide) (by norm_num; omega)
  have start : RootInv x.toNat j x.toNat (0 : UInt64).toNat := rootInv_start below
  rw [intSqrt, found]
  exact digitLoop_eq fits j 33 x 0 one le (by omega) power start

end LinuxKernel.IntSqrt
