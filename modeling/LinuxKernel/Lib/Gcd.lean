import Mathlib

/-!
# Greatest common divisor and least common multiple (`lib/gcd.c`, `lib/lcm.c`)

Euclid's loop on `UInt64`, a division by zero giving `none`. `gcd` is `Nat.gcd` on nonzero
values (`gcd_eq_of_pos`) and `lcm` is `Nat.lcm` when the product fits (`lcm_eq_of_fits`), but
not with a zero or a wrapped product (`gcd_zero_divides_lcm_wraps`).
-/

namespace LinuxKernel.Gcd

/-- The loop `while ((r = a % b) != 0) { a = b; b = r; }` of `gcd` for `fuel` rounds. -/
def gcdLoop : Nat → UInt64 → UInt64 → Option UInt64
  | 0, _, _ => none
  | fuel + 1, a, b =>
    -- `a % b` with `b == 0` divides by zero
    if b = 0 then none
    else if a % b ≠ 0 then gcdLoop fuel b (a % b) else some b

/-- `gcd(a, b)`. Each round makes `b` smaller, so `b + 1` rounds are enough. -/
def gcd (a b : UInt64) : Option UInt64 :=
  -- `swap(a, b)` when `a < b`
  let (a, b) := if a < b then (b, a) else (a, b)
  gcdLoop (b.toNat + 1) a b

def lcm (a b : UInt64) : Option UInt64 :=
  if a ≠ 0 ∧ b ≠ 0 then
    (gcd a b).bind fun g => if g = 0 then none else some (a * b / g)
  else if b ≠ 0 then some b
  else some a

/-! ### Euclid's loop -/

/-- With `b` nonzero and more rounds than `b`, the loop ends with the gcd. By induction on the
fuel: a round replaces `(a, b)` by `(b, a % b)`, which has the same gcd and a smaller `b`. -/
theorem gcdLoop_eq : ∀ (fuel : Nat) (a b : UInt64), b ≠ 0 → b.toNat < fuel →
    (gcdLoop fuel a b).map UInt64.toNat = some (Nat.gcd a.toNat b.toNat) := by
  intro fuel
  induction fuel with
  | zero => intro a b _ enough; omega
  | succ fuel ih =>
    intro a b nonzero enough
    have pos : 0 < b.toNat := by
      rw [Nat.pos_iff_ne_zero, Ne, ← UInt64.toNat_zero, UInt64.toNat_inj]
      exact nonzero
    have rem : (a % b).toNat = a.toNat % b.toNat := UInt64.toNat_mod a b
    rw [gcdLoop, if_neg nonzero]
    by_cases divides : a % b = 0
    · -- `b` divides `a`: the gcd is `b`
      have zero : a.toNat % b.toNat = 0 := by rw [← rem, divides]; rfl
      rw [if_neg (not_not.mpr divides), Option.map_some,
        Nat.gcd_eq_right (Nat.dvd_of_mod_eq_zero zero)]
    · have smaller : (a % b).toNat < b.toNat := by rw [rem]; exact Nat.mod_lt _ pos
      rw [if_pos divides, ih b (a % b) divides (by omega), rem, Nat.gcd_comm b.toNat,
        ← Nat.gcd_rec, Nat.gcd_comm]

theorem gcd_eq_loop (a b : UInt64) :
    gcd a b = if a < b then gcdLoop (a.toNat + 1) b a else gcdLoop (b.toNat + 1) a b := by
  unfold gcd
  by_cases lt : a < b
  · rw [if_pos lt, if_pos lt]
  · rw [if_neg lt, if_neg lt]

theorem gcd_eq_of_pos {a b : UInt64} (ha : a ≠ 0) (hb : b ≠ 0) :
    (gcd a b).map UInt64.toNat = some (Nat.gcd a.toNat b.toNat) := by
  rw [gcd_eq_loop]
  by_cases lt : a < b
  · rw [if_pos lt, gcdLoop_eq _ b a ha (Nat.lt_succ_self _), Nat.gcd_comm]
  · rw [if_neg lt, gcdLoop_eq _ a b hb (Nat.lt_succ_self _)]

theorem gcd_zero_right (a : UInt64) : gcd a 0 = none := by
  have notLt : ¬a < 0 := by
    rw [UInt64.lt_iff_toNat_lt, UInt64.toNat_zero]
    exact Nat.not_lt_zero _
  rw [gcd_eq_loop, if_neg notLt]
  rfl

theorem gcd_zero_left (b : UInt64) : gcd 0 b = none := by
  by_cases zero : b = 0
  · rw [zero]
    exact gcd_zero_right 0
  · have lt : (0 : UInt64) < b := by
      rw [UInt64.lt_iff_toNat_lt, UInt64.toNat_zero, Nat.pos_iff_ne_zero, Ne,
        ← UInt64.toNat_zero, UInt64.toNat_inj]
      exact zero
    rw [gcd_eq_loop, if_pos lt]
    rfl

/-! ### `lcm` -/

/-- On two nonzero values whose product fits in 64 bits, `lcm` is the least common multiple. -/
theorem lcm_eq_of_fits {a b : UInt64} (ha : a ≠ 0) (hb : b ≠ 0)
    (fits : a.toNat * b.toNat < 2 ^ 64) :
    (lcm a b).map UInt64.toNat = some (Nat.lcm a.toNat b.toNat) := by
  obtain ⟨g, found, value⟩ : ∃ g, gcd a b = some g ∧ g.toNat = Nat.gcd a.toNat b.toNat := by
    have := gcd_eq_of_pos ha hb
    rw [Option.map_eq_some_iff] at this
    exact this
  have product : (a * b).toNat = a.toNat * b.toNat := by
    rw [UInt64.toNat_mul, Nat.mod_eq_of_lt fits]
  have nonzero : g ≠ 0 := by
    intro zero
    have pos : 0 < Nat.gcd a.toNat b.toNat :=
      Nat.gcd_pos_of_pos_left _ (Nat.pos_of_ne_zero fun h => ha (UInt64.toNat_inj.mp h))
    rw [← value, zero] at pos
    exact absurd pos (Nat.lt_irrefl 0)
  rw [lcm, if_pos ⟨ha, hb⟩, found, Option.bind_some, if_neg nonzero, Option.map_some,
    UInt64.toNat_div, product, value]
  rfl

theorem lcm_eq_of_fits_small :
    (4 : UInt64) ≠ 0 ∧ (6 : UInt64) ≠ 0 ∧ (4 : UInt64).toNat * (6 : UInt64).toNat < 2 ^ 64 ∧
      (lcm 4 6).map UInt64.toNat = some (Nat.lcm (4 : UInt64).toNat (6 : UInt64).toNat) :=
  ⟨by decide, by decide, by decide, lcm_eq_of_fits (by decide) (by decide) (by decide)⟩

/-- `gcd` divides by zero on a zero argument, for every other argument. `lcm(2^32, 2^32)`
returns 0: the product wraps to 0, though the least common multiple, `2^32`, fits. And
`lcm(5, 0)` returns 5 where the least common multiple is 0. -/
theorem gcd_zero_divides_lcm_wraps :
    (∀ a : UInt64, gcd a 0 = none ∧ gcd 0 a = none) ∧
      lcm (2 ^ 32) (2 ^ 32) = some 0 ∧ Nat.lcm (2 ^ 32) (2 ^ 32) = 2 ^ 32 ∧
      lcm 5 0 = some 5 ∧ Nat.lcm 5 0 = 0 :=
  ⟨fun a => ⟨gcd_zero_right a, gcd_zero_left a⟩, by decide, by decide, by decide, by decide⟩

end LinuxKernel.Gcd
