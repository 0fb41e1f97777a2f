import Mathlib.Algebra.Order.Field.Rat
import Mathlib.Tactic.NormNum
import Mathlib.Tactic.Ring

/-!
# Rational approximation (`lib/rational.c`)

`rational_best_approximation` runs Euclid's algorithm with the convergents beside it (`LoopInv`)
and stops at the first convergent past the bounds: it ends within the bounds
(`rationalBestApproximation_bounded`), but not always at the best
(`rationalBestApproximation_not_best`).
-/

namespace LinuxKernel.Rational

/-- The `for (;;)` loop of `rational_best_approximation` for `fuel` rounds, at the remainders
`n`, `d` and the last two convergents `n0/d0` and `n1/d1`: the fraction it stores. -/
def approximationLoop (maxNumerator maxDenominator : UInt64) :
    Nat → UInt64 → UInt64 → UInt64 → UInt64 → UInt64 → UInt64 → Option (UInt64 × UInt64)
  | 0, _, _, _, _, _, _ => none
  | fuel + 1, n, d, n0, d0, n1, d1 =>
    if n1 > maxNumerator ∨ d1 > maxDenominator then some (n0, d0)
    else if d = 0 then some (n1, d1)
    else
      let a := n / d
      approximationLoop maxNumerator maxDenominator fuel d (n % d) n1 d1 (n0 + a * n1) (d0 + a * d1)

/-- `rational_best_approximation(given_numerator, given_denominator, max_numerator,
max_denominator, &n, &d)`: `*best_numerator` and `*best_denominator`. The remainder `d` falls at
each round, so `given_denominator + 2` rounds are enough. -/
def rationalBestApproximation (givenNumerator givenDenominator maxNumerator maxDenominator : UInt64) :
    Option (UInt64 × UInt64) :=
  approximationLoop maxNumerator maxDenominator (givenDenominator.toNat + 2) givenNumerator
    givenDenominator 0 1 1 0

/-! ### The loop invariant -/

/-- What holds at each round, for the given fraction `gn / gd`: the remainders `n`, `d` and the last
two convergents rebuild it, `n1 * n + n0 * d = gn` and `d1 * n + d0 * d = gd`, and the older
convergent `n0 / d0` is within the bounds. -/
def LoopInv (gn gd maxN maxD : Nat) (n d n0 d0 n1 d1 : UInt64) : Prop :=
  n1.toNat * n.toNat + n0.toNat * d.toNat = gn ∧ d1.toNat * n.toNat + d0.toNat * d.toNat = gd ∧
    n0.toNat ≤ maxN ∧ d0.toNat ≤ maxD

theorem next_convergent {g : Nat} {n d c0 c1 : UInt64} (nonzero : d ≠ 0) (fits : g < 2 ^ 64)
    (rebuild : c1.toNat * n.toNat + c0.toNat * d.toNat = g) :
    (c0 + n / d * c1).toNat = c0.toNat + n.toNat / d.toNat * c1.toNat ∧
      (c0.toNat + n.toNat / d.toNat * c1.toNat) * d.toNat + c1.toNat * (n.toNat % d.toNat) = g := by
  have pos : 0 < d.toNat := Nat.pos_of_ne_zero fun zero => nonzero (UInt64.toNat_inj.mp zero)
  -- `n = d * (n / d) + n % d`
  have split := Nat.div_add_mod n.toNat d.toNat
  have rebuilt : (c0.toNat + n.toNat / d.toNat * c1.toNat) * d.toNat + c1.toNat * (n.toNat % d.toNat) = g := by
    calc (c0.toNat + n.toNat / d.toNat * c1.toNat) * d.toNat + c1.toNat * (n.toNat % d.toNat) =
          c1.toNat * (d.toNat * (n.toNat / d.toNat) + n.toNat % d.toNat) + c0.toNat * d.toNat := by ring
      _ = g := by rw [split, rebuild]
  have bound : c0.toNat + n.toNat / d.toNat * c1.toNat < 2 ^ 64 := by
    have := Nat.le_mul_of_pos_right (c0.toNat + n.toNat / d.toNat * c1.toNat) pos
    omega
  have product : (n / d * c1).toNat = n.toNat / d.toNat * c1.toNat := by
    rw [UInt64.toNat_mul, UInt64.toNat_div, Nat.mod_eq_of_lt (by omega)]
  refine ⟨?_, rebuilt⟩
  rw [UInt64.toNat_add, product, Nat.mod_eq_of_lt bound]

/-- A round that goes on keeps the invariant: the next convergents rebuild the fraction with the
next remainders, and the convergent that becomes the older one passed the bounds. -/
theorem LoopInv.step {gn gd maxN maxD : Nat} {n d n0 d0 n1 d1 : UInt64}
    (inv : LoopInv gn gd maxN maxD n d n0 d0 n1 d1) (fitsN : gn < 2 ^ 64) (fitsD : gd < 2 ^ 64)
    (withinN : n1.toNat ≤ maxN) (withinD : d1.toNat ≤ maxD) (nonzero : d ≠ 0) :
    LoopInv gn gd maxN maxD d (n % d) n1 d1 (n0 + n / d * n1) (d0 + n / d * d1) := by
  obtain ⟨rebuildN, rebuildD, -, -⟩ := inv
  obtain ⟨valueN, nextN⟩ := next_convergent nonzero fitsN rebuildN
  obtain ⟨valueD, nextD⟩ := next_convergent nonzero fitsD rebuildD
  refine ⟨?_, ?_, withinN, withinD⟩
  · rw [valueN, UInt64.toNat_mod]
    exact nextN
  · rw [valueD, UInt64.toNat_mod]
    exact nextD

/-- From the invariant, with more rounds than the remainder `d`, the loop stores a fraction within
the bounds: the older convergent when the newer one is past them, the newer one when `d` reaches
0. By induction on the fuel, each round taking `d` to `n % d < d`. -/
theorem approximationLoop_bounded {gn gd : Nat} (maxN maxD : UInt64) (fitsN : gn < 2 ^ 64)
    (fitsD : gd < 2 ^ 64) :
    ∀ (fuel : Nat) (n d n0 d0 n1 d1 : UInt64), LoopInv gn gd maxN.toNat maxD.toNat n d n0 d0 n1 d1 →
      d.toNat < fuel → ∃ p q, approximationLoop maxN maxD fuel n d n0 d0 n1 d1 = some (p, q) ∧
        p ≤ maxN ∧ q ≤ maxD := by
  intro fuel
  induction fuel with
  | zero => intro n d n0 d0 n1 d1 _ enough; omega
  | succ fuel ih =>
    intro n d n0 d0 n1 d1 inv enough
    rw [approximationLoop]
    by_cases past : n1 > maxN ∨ d1 > maxD
    · -- the newer convergent is past the bounds: the older one is kept
      rw [if_pos past]
      exact ⟨n0, d0, rfl, UInt64.le_iff_toNat_le.mpr inv.2.2.1, UInt64.le_iff_toNat_le.mpr inv.2.2.2⟩
    rw [if_neg past]
    rw [not_or, gt_iff_lt, gt_iff_lt, UInt64.not_lt, UInt64.not_lt] at past
    obtain ⟨withinN, withinD⟩ := past
    by_cases zero : d = 0
    · rw [if_pos zero]
      exact ⟨n1, d1, rfl, withinN, withinD⟩
    rw [if_neg zero]
    have smaller : (n % d).toNat < d.toNat := by
      rw [UInt64.toNat_mod]
      exact Nat.mod_lt _ (Nat.pos_of_ne_zero fun h => zero (UInt64.toNat_inj.mp h))
    exact ih d (n % d) n1 d1 _ _ (inv.step fitsN fitsD (UInt64.le_iff_toNat_le.mp withinN)
      (UInt64.le_iff_toNat_le.mp withinD) zero) (by omega)

/-- For every given fraction and bounds with `max_denominator ≥ 1`, the loop ends, and the fraction
it stores is within the bounds. -/
theorem rationalBestApproximation_bounded (gn gd maxN maxD : UInt64) (denominators : 1 ≤ maxD.toNat) :
    ∃ p q, rationalBestApproximation gn gd maxN maxD = some (p, q) ∧ p ≤ maxN ∧ q ≤ maxD := by
  have start : LoopInv gn.toNat gd.toNat maxN.toNat maxD.toNat gn gd 0 1 1 0 := by
    refine ⟨?_, ?_, Nat.zero_le _, denominators⟩
    · show 1 * gn.toNat + 0 * gd.toNat = gn.toNat
      omega
    · show 0 * gn.toNat + 1 * gd.toNat = gd.toNat
      omega
  exact approximationLoop_bounded maxN maxD gn.toNat_lt gd.toNat_lt _ gn gd 0 1 1 0 start (by omega)

/-- Pi to seven decimals, with both bounds 1000. -/
theorem rationalBestApproximation_bounded_pi :
    1 ≤ (1000 : UInt64).toNat ∧
      ∃ p q, rationalBestApproximation 31415926 10000000 1000 1000 = some (p, q) ∧ p ≤ 1000 ∧ q ≤ 1000 :=
  ⟨by decide, rationalBestApproximation_bounded 31415926 10000000 1000 1000 (by decide)⟩

/-- For `1/3` with numerators up to 1 and denominators up to 2, the convergents are `0/1` and `1/3`;
the loop keeps `0/1`, though `1/2`, within the bounds, is closer. And for `2/1` with both bounds 1
it stores the denominator 0. -/
theorem rationalBestApproximation_not_best :
    rationalBestApproximation 1 3 1 2 = some (0, 1) ∧
      |(1 : ℚ) / 3 - 1 / 2| < |(1 : ℚ) / 3 - 0 / 1| ∧
      rationalBestApproximation 2 1 1 1 = some (1, 0) :=
  ⟨by decide, by norm_num [abs_of_pos, abs_of_neg], by decide⟩

end LinuxKernel.Rational
