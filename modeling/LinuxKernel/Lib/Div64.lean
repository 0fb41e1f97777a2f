import Mathlib.Tactic.Ring

/-!
# 64-bit division on 32-bit machines (`lib/div64.c`, `include/asm-generic/div64.h`)

`__div64_32`, `do_div` and `div_u64_rem` are exact (`div64_32_eq`, `doDiv_eq`). `div64_u64`
is exact when its estimate from the shifted operands is at most one too big
(`div64U64_eq_iff`), and not otherwise (`div64U64_overestimates`); `div_s64_rem` is C's
truncating division but for `S64_MIN / -1` (`divS64Rem_eq`).
-/

namespace LinuxKernel.Div64

/-- `fls(x)`: the position of the highest set bit, counting from 1; `0` for `0`. -/
def fls (x : UInt32) : Nat := if x = 0 then 0 else Nat.log2 x.toNat + 1

/-! ### `__div64_32` -/

/-- The loop `while ((int64_t)b > 0 && b < rem) { b = b+b; d = d+d; }` for `fuel` rounds:
`b` and `d` after it. -/
def doubleLoop : Nat → UInt64 → UInt64 → UInt64 → Option (UInt64 × UInt64)
  | 0, _, _, _ => none
  | fuel + 1, rem, b, d =>
    if 0 < b.toInt64 ∧ b < rem then doubleLoop fuel rem (b + b) (d + d) else some (b, d)

/-- The body `if (rem >= b) { rem -= b; res += d; }` of the subtracting loop: `rem` and `res`
after it. -/
def subtractStep (rem res b d : UInt64) : UInt64 × UInt64 :=
  if rem ≥ b then (rem - b, res + d) else (rem, res)

/-- The loop `do { ...; b >>= 1; d >>= 1; } while (d);` for `fuel` rounds: `res` and `rem`
after it. -/
def subtractLoop : Nat → UInt64 → UInt64 → UInt64 → UInt64 → Option (UInt64 × UInt64)
  | 0, _, _, _, _ => none
  | fuel + 1, rem, res, b, d =>
    let (rem, res) := subtractStep rem res b d
    let b := b >>> 1
    let d := d >>> 1
    if d ≠ 0 then subtractLoop fuel rem res b d else some (res, rem)

/-- The start of `__div64_32`, which reduces the thing a bit first: `res` and `rem` after it,
taking `high / base` whole times `base` off the high word; `none` for `base == 0`, where
`high /= base` divides by zero. -/
def reduceHigh (rem : UInt64) (base : UInt32) : Option (UInt64 × UInt64) :=
  let high := (rem >>> 32).toUInt32
  if high ≥ base then
    if base = 0 then none
    else
      let high := high / base
      -- `high*base` is a `u32` product
      some (high.toUInt64 <<< 32, rem - ((high * base).toUInt64 <<< 32))
  else some (0, rem)

/-- `__div64_32(&n, base)`: the quotient it leaves in `*n` and the remainder it returns. -/
def div64_32 (n : UInt64) (base : UInt32) : Option (UInt64 × UInt32) := do
  let (res, rem) ← reduceHigh n base
  let (b, d) ← doubleLoop 64 rem base.toUInt64 1
  let (res, rem) ← subtractLoop 64 rem res b d
  some (res, rem.toUInt32)

/-- `do_div(n, base)` on a 32-bit machine: the quotient it leaves in `n` and the remainder. -/
def doDiv (n : UInt64) (base : UInt32) : Option (UInt64 × UInt32) :=
  if n >>> 32 = 0 then
    if base = 0 then none else some ((n.toUInt32 / base).toUInt64, n.toUInt32 % base)
  else div64_32 n base

/-- `div_u64_rem(dividend, divisor, &remainder)`: the quotient and the remainder. -/
def divU64Rem (dividend : UInt64) (divisor : UInt32) : Option (UInt64 × UInt32) :=
  doDiv dividend divisor

def divU64 (dividend : UInt64) (divisor : UInt32) : Option UInt64 :=
  (divU64Rem dividend divisor).map Prod.fst

/-! ### `div64_u64` and the signed divisions -/

/-- The correction of `div64_u64`'s estimate `quot`: one off unless it is 0, then one back if
`dividend - quot * divisor` is still at least `divisor`. -/
def fixQuot (dividend divisor quot : UInt64) : UInt64 :=
  let quot := if quot ≠ 0 then quot - 1 else quot
  if dividend - quot * divisor ≥ divisor then quot + 1 else quot

/-- `div64_u64(dividend, divisor)`. The `u64` `divisor >> n` is passed as the `u32` divisor of
`div_u64`. -/
def div64U64 (dividend divisor : UInt64) : Option UInt64 :=
  let high := (divisor >>> 32).toUInt32
  if high = 0 then divU64 dividend divisor.toUInt32
  else
    let n := 1 + fls high
    (divU64 (dividend >>> n.toUInt64) (divisor >>> n.toUInt64).toUInt32).map
      (fixQuot dividend divisor)

/-- `abs64(x)`: the negation wraps for `S64_MIN`, as signed overflow does under
`-fno-strict-overflow`. -/
def abs64 (x : Int64) : Int64 := if x < 0 then -x else x

/-- `div64_s64(dividend, divisor)`: the quotient of the magnitudes, negated through
`t = (dividend ^ divisor) >> 63`, which is `-1` when the signs differ and `0` otherwise. -/
def div64S64 (dividend divisor : Int64) : Option Int64 := do
  let quot ← div64U64 (abs64 dividend).toUInt64 (abs64 divisor).toUInt64
  let t := (dividend ^^^ divisor) >>> 63
  some ((quot.toInt64 ^^^ t) - t)

/-- `abs(divisor)` of an `int`, a `long` on a 32-bit machine, passed as a `u32`. -/
def absInt (x : Int32) : UInt32 := (if x < 0 then -x else x).toUInt32

/-- `div_s64_rem(dividend, divisor, &remainder)`: the quotient and the remainder, which
`div_u64_rem` writes through a `u32 *` into the `s32`. -/
def divS64Rem (dividend : Int64) (divisor : Int32) : Option (Int64 × Int32) :=
  if dividend < 0 then
    (divU64Rem (-dividend).toUInt64 (absInt divisor)).map fun (quotient, remainder) =>
      let quotient := if divisor > 0 then -quotient else quotient
      (quotient.toInt64, -remainder.toInt32)
  else
    (divU64Rem dividend.toUInt64 (absInt divisor)).map fun (quotient, remainder) =>
      let quotient := if divisor < 0 then -quotient else quotient
      (quotient.toInt64, remainder.toInt32)

/-! ### The doubling loop -/

theorem zero_lt_toInt64 (b : UInt64) : 0 < b.toInt64 ↔ 0 < b.toNat ∧ b.toNat < 2 ^ 63 := by
  have value : b.toInt64.toInt = b.toBitVec.toInt := rfl
  rw [Int64.lt_iff_toInt_lt, value, BitVec.toInt_eq_toNat_cond, show (0 : Int64).toInt = 0 from rfl]
  have := b.toNat_lt
  simp only [UInt64.toNat_toBitVec]
  split <;> omega

theorem toNat_double {b : UInt64} (small : b.toNat < 2 ^ 63) : (b + b).toNat = 2 * b.toNat := by
  rw [UInt64.toNat_add, Nat.mod_eq_of_lt (by omega)]
  omega

/-- The loop doubles `b = base * 2^k` and `d = 2^k` together until `b` reaches `rem` or the sign
bit; `64 - k` rounds are enough, since `b` is at least `2^k`. -/
theorem doubleLoop_spec {base : Nat} (pos : 0 < base) (rem : UInt64) :
    ∀ (fuel k : Nat) (b d : UInt64), b.toNat = base * 2 ^ k → d.toNat = 2 ^ k → k ≤ 63 →
      64 ≤ fuel + k → ∃ j b' d', doubleLoop fuel rem b d = some (b', d') ∧
        b'.toNat = base * 2 ^ j ∧ d'.toNat = 2 ^ j ∧ j ≤ 63 ∧
        (2 ^ 63 ≤ b'.toNat ∨ rem.toNat ≤ b'.toNat) := by
  intro fuel
  induction fuel with
  | zero => intro k b d _ _ le enough; omega
  | succ fuel ih =>
    intro k b d hb hd le enough
    have atLeast : 2 ^ k ≤ b.toNat := by rw [hb]; exact Nat.le_mul_of_pos_left _ pos
    have one : 1 ≤ 2 ^ k := Nat.one_le_two_pow
    rw [doubleLoop]
    by_cases more : 0 < b.toInt64 ∧ b < rem
    · rw [if_pos more]
      have small : b.toNat < 2 ^ 63 := ((zero_lt_toInt64 b).mp more.1).2
      -- `2^k ≤ b < 2^63`, so there is a round left
      have lt : k < 63 := by
        have pow : 2 ^ k < 2 ^ 63 := by omega
        exact (Nat.pow_lt_pow_iff_right (by decide)).mp pow
      refine ih (k + 1) (b + b) (d + d) ?_ ?_ (by omega) (by omega)
      · rw [toNat_double small, hb, Nat.pow_succ]
        ring
      · rw [toNat_double (by omega), hd, Nat.pow_succ]
        ring
    · rw [if_neg more]
      refine ⟨k, b, d, rfl, hb, hd, le, ?_⟩
      rw [zero_lt_toInt64, UInt64.lt_iff_toNat_lt] at more
      omega

/-! ### The subtracting loop -/

/-- What holds at each round of the subtracting loop, for the value `n` being divided: `b` is
`base * d` for a power of two `d = 2^k`, `res * base + rem` is `n`, and `rem` is below `2 * b`. -/
def SubtractInv (n base k : Nat) (rem res b d : UInt64) : Prop :=
  b.toNat = base * 2 ^ k ∧ d.toNat = 2 ^ k ∧ res.toNat * base + rem.toNat = n ∧
    rem.toNat < 2 * b.toNat

theorem subtractStep_spec {n base k : Nat} {rem res b d : UInt64} (pos : 0 < base)
    (fits : n < 2 ^ 64) (inv : SubtractInv n base k rem res b d) :
    (subtractStep rem res b d).2.toNat * base + (subtractStep rem res b d).1.toNat = n ∧
      (subtractStep rem res b d).1.toNat < b.toNat := by
  obtain ⟨hb, hd, sum, below⟩ := inv
  unfold subtractStep
  by_cases ge : rem ≥ b
  · rw [if_pos ge]
    have le : b.toNat ≤ rem.toNat := UInt64.le_iff_toNat_le.mp ge
    have noWrap : res.toNat + d.toNat < 2 ^ 64 := by
      have : (res.toNat + d.toNat) * base ≤ n := by
        rw [Nat.add_mul, hd, Nat.mul_comm (2 ^ k), ← hb]
        omega
      have := Nat.le_mul_of_pos_right (res.toNat + d.toNat) pos
      omega
    dsimp only
    rw [UInt64.toNat_sub_of_le _ _ ge, UInt64.toNat_add, Nat.mod_eq_of_lt noWrap]
    constructor
    · rw [Nat.add_mul, hd, Nat.mul_comm (2 ^ k), ← hb]
      omega
    · omega
  · rw [if_neg ge]
    rw [ge_iff_le, UInt64.le_iff_toNat_le] at ge
    exact ⟨sum, by dsimp only; omega⟩

/-- From a state with `d = 2^k` the loop runs `k + 1` rounds and ends with the quotient and
the remainder of `n`. By induction on `k`: a round keeps the invariant with `k - 1`, and the
last one, at `d = 1`, leaves `rem` below `base`. -/
theorem subtractLoop_spec {n base : Nat} (pos : 0 < base) (fits : n < 2 ^ 64) :
    ∀ (k fuel : Nat) (rem res b d : UInt64), SubtractInv n base k rem res b d → k < fuel →
      (subtractLoop fuel rem res b d).map (fun r => (r.1.toNat, r.2.toNat)) =
        some (n / base, n % base) := by
  intro k
  induction k with
  | zero =>
    intro fuel rem res b d inv enough
    obtain ⟨fuel, rfl⟩ : ∃ f, fuel = f + 1 := ⟨fuel - 1, by omega⟩
    have ⟨sum, below⟩ := subtractStep_spec pos fits inv
    have hd : d.toNat = 1 := inv.2.1
    have hb : b.toNat = base := by rw [inv.1, Nat.pow_zero, Nat.mul_one]
    have last : d >>> 1 = 0 := UInt64.toNat_inj.mp (by
      rw [UInt64.toNat_shiftRight, hd]; rfl)
    rw [subtractLoop]
    generalize subtractStep rem res b d = step at sum below
    obtain ⟨rem', res'⟩ := step
    dsimp only at sum below
    simp only [last, ne_eq, not_true_eq_false, if_false, Option.map_some]
    -- `res' * base + rem' = n` with `rem' < base`
    rw [hb] at below
    rw [← sum, Nat.mul_comm, Nat.mul_add_div pos, Nat.div_eq_of_lt below, Nat.add_zero,
      Nat.mul_add_mod, Nat.mod_eq_of_lt below]
  | succ k ih =>
    intro fuel rem res b d inv enough
    obtain ⟨fuel, rfl⟩ : ∃ f, fuel = f + 1 := ⟨fuel - 1, by omega⟩
    have ⟨sum, below⟩ := subtractStep_spec pos fits inv
    obtain ⟨hb, hd, -, -⟩ := inv
    have halfD : (d >>> 1).toNat = 2 ^ k := by
      rw [UInt64.toNat_shiftRight, hd, Nat.shiftRight_eq_div_pow, Nat.pow_succ]
      simp
    have halfB : (b >>> 1).toNat = base * 2 ^ k := by
      rw [UInt64.toNat_shiftRight, hb, Nat.shiftRight_eq_div_pow, Nat.pow_succ, ← Nat.mul_assoc]
      simp
    have more : d >>> 1 ≠ 0 := fun zero => by
      rw [zero] at halfD
      exact absurd halfD (Nat.pos_iff_ne_zero.mp Nat.one_le_two_pow).symm
    rw [subtractLoop]
    generalize subtractStep rem res b d = step at sum below
    obtain ⟨rem', res'⟩ := step
    dsimp only at sum below
    simp only [ne_eq, more, not_false_eq_true, if_true]
    refine ih fuel rem' res' (b >>> 1) (d >>> 1) ⟨halfB, halfD, sum, ?_⟩ (by omega)
    have twice : base * 2 ^ (k + 1) = 2 * (base * 2 ^ k) := by ring
    rw [halfB]
    rw [hb, twice] at below
    exact below

/-! ### `__div64_32` and `do_div` are exact -/

theorem toNat_high (n : UInt64) : (n >>> 32).toUInt32.toNat = n.toNat / 2 ^ 32 := by
  have lt : n.toNat / 2 ^ 32 < 2 ^ 32 := Nat.div_lt_of_lt_mul (by have := n.toNat_lt; omega)
  rw [UInt64.toNat_toUInt32, UInt64.toNat_shiftRight, Nat.shiftRight_eq_div_pow]
  exact Nat.mod_eq_of_lt lt

theorem toNat_shiftLeft32 (x : UInt32) : (x.toUInt64 <<< 32).toNat = x.toNat * 2 ^ 32 := by
  have fits : x.toNat * 2 ^ 32 < 2 ^ 64 := by have := x.toNat_lt; omega
  rw [UInt64.toNat_shiftLeft, UInt32.toNat_toUInt64, show (32 : UInt64).toNat % 64 = 32 from rfl,
    Nat.shiftLeft_eq]
  exact Nat.mod_eq_of_lt fits

/-- Taking `high / base` whole times `base` off the high word keeps `res * base + rem = n`:
the `u32` product is at most `high`, and its shift at most `n`. -/
theorem reduceHigh_spec (n : UInt64) {base : UInt32} (pos : base ≠ 0) :
    ∃ res rem, reduceHigh n base = some (res, rem) ∧ res.toNat * base.toNat + rem.toNat = n.toNat := by
  unfold reduceHigh
  by_cases ge : (n >>> 32).toUInt32 ≥ base
  · rw [if_pos ge, if_neg pos]
    have quot : ((n >>> 32).toUInt32 / base).toNat = n.toNat / 2 ^ 32 / base.toNat := by
      rw [UInt32.toNat_div, toNat_high]
    have below : n.toNat / 2 ^ 32 / base.toNat * base.toNat ≤ n.toNat / 2 ^ 32 :=
      Nat.div_mul_le_self _ _
    have high := toNat_high n
    have product : ((n >>> 32).toUInt32 / base * base).toNat = n.toNat / 2 ^ 32 / base.toNat * base.toNat := by
      rw [UInt32.toNat_mul, quot]
      exact Nat.mod_eq_of_lt (by have := (n >>> 32).toUInt32.toNat_lt; omega)
    have taken : ((n >>> 32).toUInt32 / base * base).toUInt64 <<< 32 ≤ n := by
      rw [UInt64.le_iff_toNat_le, toNat_shiftLeft32, product]
      have := Nat.div_mul_le_self n.toNat (2 ^ 32)
      calc n.toNat / 2 ^ 32 / base.toNat * base.toNat * 2 ^ 32 ≤ n.toNat / 2 ^ 32 * 2 ^ 32 :=
            Nat.mul_le_mul_right _ below
        _ ≤ n.toNat := this
    refine ⟨_, _, rfl, ?_⟩
    rw [UInt64.toNat_sub_of_le _ _ taken, toNat_shiftLeft32, toNat_shiftLeft32, quot, product]
    have le := UInt64.le_iff_toNat_le.mp taken
    rw [toNat_shiftLeft32, product] at le
    have comm : n.toNat / 2 ^ 32 / base.toNat * 2 ^ 32 * base.toNat =
        n.toNat / 2 ^ 32 / base.toNat * base.toNat * 2 ^ 32 := by ring
    omega
  · rw [if_neg ge]
    exact ⟨0, n, rfl, by simp⟩

theorem div64_32_eq (n : UInt64) {base : UInt32} (pos : base ≠ 0) :
    (div64_32 n base).map (fun r => (r.1.toNat, r.2.toNat)) =
      some (n.toNat / base.toNat, n.toNat % base.toNat) := by
  have basePos : 0 < base.toNat := by
    rw [Nat.pos_iff_ne_zero, Ne, ← UInt32.toNat_zero, UInt32.toNat_inj]
    exact pos
  obtain ⟨res, rem, reduced, sum⟩ := reduceHigh_spec n pos
  obtain ⟨j, b, d, doubled, hb, hd, le, stop⟩ := doubleLoop_spec basePos rem 64 0 base.toUInt64 1
    (by rw [UInt32.toNat_toUInt64, Nat.pow_zero, Nat.mul_one]) rfl (by omega) (by omega)
  have inv : SubtractInv n.toNat base.toNat j rem res b d := by
    refine ⟨hb, hd, sum, ?_⟩
    have := rem.toNat_lt
    have : 0 < b.toNat := by rw [hb]; exact Nat.mul_pos basePos Nat.one_le_two_pow
    omega
  obtain ⟨⟨q, r⟩, ran, result⟩ :=
    Option.map_eq_some_iff.mp (subtractLoop_spec basePos n.toNat_lt j 64 rem res b d inv (by omega))
  simp only [Prod.mk.injEq] at result
  have small : r.toNat < 2 ^ 32 := by
    rw [result.2]
    exact Nat.lt_of_lt_of_le (Nat.mod_lt _ basePos) (Nat.le_of_lt base.toNat_lt)
  rw [div64_32, reduced]
  show Option.map _ (doubleLoop 64 rem base.toUInt64 1 >>= _) = _
  rw [doubled]
  show Option.map _ (subtractLoop 64 rem res b d >>= _) = _
  rw [ran]
  show some (q.toNat, r.toUInt32.toNat) = _
  rw [UInt64.toNat_toUInt32, Nat.mod_eq_of_lt small, result.1, result.2]

theorem doDiv_eq (n : UInt64) {base : UInt32} (pos : base ≠ 0) :
    (doDiv n base).map (fun r => (r.1.toNat, r.2.toNat)) =
      some (n.toNat / base.toNat, n.toNat % base.toNat) := by
  unfold doDiv
  by_cases low : n >>> 32 = 0
  · rw [if_pos low, if_neg pos, Option.map_some]
    have small : n.toNat < 2 ^ 32 := by
      have zero := congrArg UInt64.toNat low
      rw [UInt64.toNat_shiftRight, Nat.shiftRight_eq_div_pow] at zero
      exact (Nat.div_eq_zero_iff_lt (by decide)).mp zero
    have value : n.toUInt32.toNat = n.toNat := by
      rw [UInt64.toNat_toUInt32, Nat.mod_eq_of_lt small]
    rw [UInt32.toNat_toUInt64, UInt32.toNat_div, UInt32.toNat_mod, value]
  · rw [if_neg low]
    exact div64_32_eq n pos

theorem divU64_eq (n : UInt64) {base : UInt32} (pos : base ≠ 0) :
    (divU64 n base).map UInt64.toNat = some (n.toNat / base.toNat) := by
  obtain ⟨⟨q, r⟩, ran, result⟩ := Option.map_eq_some_iff.mp (doDiv_eq n pos)
  simp only [Prod.mk.injEq] at result
  rw [divU64, divU64Rem, ran, Option.map_some, Option.map_some, result.1]

/-! ### `div64_u64` -/

theorem shift_bounds {b : UInt64} (wide : 2 ^ 32 ≤ b.toNat) :
    1 + fls (b >>> 32).toUInt32 ≤ 33 ∧ 2 ^ 30 ≤ b.toNat / 2 ^ (1 + fls (b >>> 32).toUInt32) ∧
      b.toNat / 2 ^ (1 + fls (b >>> 32).toUInt32) < 2 ^ 31 := by
  have high := toNat_high b
  have positive : b.toNat / 2 ^ 32 ≠ 0 := by
    rw [Ne, Nat.div_eq_zero_iff_lt (by decide)]
    omega
  have nonzero : (b >>> 32).toUInt32 ≠ 0 := fun zero => positive (by rw [← high, zero]; rfl)
  have shift : 1 + fls (b >>> 32).toUInt32 = Nat.log2 (b.toNat / 2 ^ 32) + 2 := by
    rw [fls, if_neg nonzero, high]
    omega
  rw [shift]
  generalize logEq : Nat.log2 (b.toNat / 2 ^ 32) = L
  have lo : 2 ^ L * 2 ^ 32 ≤ b.toNat :=
    le_trans (Nat.mul_le_mul_right _ (logEq ▸ Nat.log2_self_le positive)) (Nat.div_mul_le_self _ _)
  have hi : b.toNat < 2 ^ (L + 1) * 2 ^ 32 :=
    (Nat.div_lt_iff_lt_mul (Nat.two_pow_pos _)).mp (logEq ▸ Nat.lt_log2_self)
  have small : L < 32 := by
    rw [← logEq, Nat.log2_lt positive]
    exact Nat.div_lt_of_lt_mul (by have := b.toNat_lt; omega)
  refine ⟨by omega, ?_, ?_⟩
  · rw [Nat.le_div_iff_mul_le (Nat.two_pow_pos _)]
    calc 2 ^ 30 * 2 ^ (L + 2) = 2 ^ L * 2 ^ 32 := by
          rw [← Nat.pow_add, ← Nat.pow_add]
          congr 1
          omega
      _ ≤ b.toNat := lo
  · rw [Nat.div_lt_iff_lt_mul (Nat.two_pow_pos _)]
    calc b.toNat < 2 ^ (L + 1) * 2 ^ 32 := hi
      _ = 2 ^ 31 * 2 ^ (L + 2) := by
          rw [← Nat.pow_add, ← Nat.pow_add]
          congr 1
          omega

theorem div_le_estimate (a b s : Nat) (pos : 0 < b / 2 ^ s) : a / b ≤ a / 2 ^ s / (b / 2 ^ s) := by
  rw [Nat.le_div_iff_mul_le pos]
  calc a / b * (b / 2 ^ s) ≤ a / b * b / 2 ^ s := Nat.mul_div_le_mul_div_assoc _ _ _
    _ ≤ a / 2 ^ s := Nat.div_le_div_right (Nat.div_mul_le_self a b)

theorem toNat_pred_quot (e : UInt64) : (if e ≠ 0 then e - 1 else e).toNat = e.toNat - 1 := by
  by_cases zero : e = 0
  · rw [if_neg (not_not.mpr zero), zero]
    rfl
  · rw [if_pos zero, UInt64.toNat_sub_of_le]
    · rfl
    · rw [UInt64.le_iff_toNat_le, show (1 : UInt64).toNat = 1 from rfl]
      exact Nat.pos_of_ne_zero fun h => zero (UInt64.toNat_inj.mp h)

theorem fixQuot_toNat (a b e : UInt64) :
    (fixQuot a b e).toNat = e.toNat - 1 ∨ (fixQuot a b e).toNat = e.toNat - 1 + 1 := by
  have pred := toNat_pred_quot e
  unfold fixQuot
  dsimp only
  generalize (if e ≠ 0 then e - 1 else e) = quot at pred
  by_cases more : a - quot * b ≥ b
  · rw [if_pos more, UInt64.toNat_add, show (1 : UInt64).toNat = 1 from rfl,
      Nat.mod_eq_of_lt (by have := e.toNat_lt; omega)]
    exact .inr (by rw [pred])
  · rw [if_neg more]
    exact .inl pred

/-- From an estimate at most one above the quotient `q`, the correction gives `q`: one off the
estimate is at most `q`, so `quot * divisor` does not wrap, and the test adds one back exactly
when `quot` is one short. -/
theorem fixQuot_eq {a b e : UInt64} (pos : 0 < b.toNat) (above : a.toNat / b.toNat ≤ e.toNat)
    (close : e.toNat ≤ a.toNat / b.toNat + 1) : (fixQuot a b e).toNat = a.toNat / b.toNat := by
  have pred := toNat_pred_quot e
  have lower : a.toNat / b.toNat * b.toNat ≤ a.toNat := Nat.div_mul_le_self _ _
  have upper : a.toNat < (a.toNat / b.toNat + 1) * b.toNat := by
    rw [Nat.mul_comm]
    exact Nat.lt_mul_div_succ _ pos
  generalize a.toNat / b.toNat = q at above close lower upper ⊢
  unfold fixQuot
  dsimp only
  generalize (if e ≠ 0 then e - 1 else e) = quot at pred
  have le : quot.toNat ≤ q := by omega
  have productLe : quot.toNat * b.toNat ≤ a.toNat := le_trans (Nat.mul_le_mul_right _ le) lower
  have product : (quot * b).toNat = quot.toNat * b.toNat := by
    rw [UInt64.toNat_mul]
    exact Nat.mod_eq_of_lt (by have := a.toNat_lt; omega)
  have taken : quot * b ≤ a := by rw [UInt64.le_iff_toNat_le, product]; exact productLe
  have left : (a - quot * b).toNat = a.toNat - quot.toNat * b.toNat := by
    rw [UInt64.toNat_sub_of_le _ _ taken, product]
  by_cases more : a - quot * b ≥ b
  · rw [if_pos more]
    rw [ge_iff_le, UInt64.le_iff_toNat_le, left] at more
    -- `(quot + 1) * b ≤ a < (q + 1) * b`, so `quot` is one short
    have short : quot.toNat + 1 < q + 1 := by
      apply Nat.lt_of_mul_lt_mul_right (a := b.toNat)
      rw [Nat.succ_mul]
      omega
    have fits : quot.toNat + 1 < 2 ^ 64 := by have := e.toNat_lt; omega
    rw [UInt64.toNat_add, show (1 : UInt64).toNat = 1 from rfl, Nat.mod_eq_of_lt fits]
    omega
  · rw [if_neg more]
    rw [ge_iff_le, UInt64.le_iff_toNat_le, left] at more
    -- `q * b ≤ a < (quot + 1) * b`, so `quot` is the quotient
    have enough : q < quot.toNat + 1 := by
      apply Nat.lt_of_mul_lt_mul_right (a := b.toNat)
      rw [Nat.succ_mul]
      omega
    omega

/-- For a divisor of 33 bits or more, `div64_u64` returns the quotient exactly when the estimate
from the shifted operands is at most one above it. -/
theorem div64U64_eq_iff (a b : UInt64) (wide : 2 ^ 32 ≤ b.toNat) :
    (div64U64 a b).map UInt64.toNat = some (a.toNat / b.toNat) ↔
      a.toNat / 2 ^ (1 + fls (b >>> 32).toUInt32) / (b.toNat / 2 ^ (1 + fls (b >>> 32).toUInt32)) ≤
        a.toNat / b.toNat + 1 := by
  obtain ⟨le33, lo, hi⟩ := shift_bounds wide
  have nonzero : (b >>> 32).toUInt32 ≠ 0 := by
    intro zero
    have high := toNat_high b
    rw [zero, show (0 : UInt32).toNat = 0 from rfl, eq_comm, Nat.div_eq_zero_iff_lt (by decide)] at high
    omega
  have pos : 0 < b.toNat := by omega
  unfold div64U64
  dsimp only
  rw [if_neg nonzero]
  generalize 1 + fls (b >>> 32).toUInt32 = s at le33 lo hi ⊢
  have shiftBy : ∀ x : UInt64, (x >>> s.toUInt64).toNat = x.toNat / 2 ^ s := fun x => by
    rw [UInt64.toNat_shiftRight, Nat.toUInt64_eq, UInt64.toNat_ofNat',
      Nat.mod_eq_of_lt (show s < 2 ^ 64 by omega), Nat.mod_eq_of_lt (show s < 64 by omega),
      Nat.shiftRight_eq_div_pow]
  have divisor : ((b >>> s.toUInt64).toUInt32).toNat = b.toNat / 2 ^ s := by
    rw [UInt64.toNat_toUInt32, shiftBy, Nat.mod_eq_of_lt (by omega)]
  have divisorPos : (b >>> s.toUInt64).toUInt32 ≠ 0 := fun zero => by
    rw [zero, show (0 : UInt32).toNat = 0 from rfl] at divisor
    omega
  obtain ⟨e, ran, estimate⟩ := Option.map_eq_some_iff.mp (divU64_eq (a >>> s.toUInt64) divisorPos)
  rw [shiftBy, divisor] at estimate
  have above := div_le_estimate a.toNat b.toNat s (by omega)
  rw [← estimate] at above ⊢
  rw [ran, Option.map_some, Option.map_some, Option.some_inj]
  constructor
  · -- the result is one below the estimate or at it
    intro exact
    rcases fixQuot_toNat a b e with result | result <;> omega
  · intro close
    exact fixQuot_eq pos above close

theorem div64U64_eq_iff_wide :
    2 ^ 32 ≤ (0x200000000 : UInt64).toNat ∧
      ((div64U64 0x10000000000 0x200000000).map UInt64.toNat =
          some ((0x10000000000 : UInt64).toNat / (0x200000000 : UInt64).toNat) ↔
        (0x10000000000 : UInt64).toNat / 2 ^ (1 + fls ((0x200000000 : UInt64) >>> 32).toUInt32) /
            ((0x200000000 : UInt64).toNat / 2 ^ (1 + fls ((0x200000000 : UInt64) >>> 32).toUInt32)) ≤
          (0x10000000000 : UInt64).toNat / (0x200000000 : UInt64).toNat + 1) :=
  ⟨by decide, div64U64_eq_iff 0x10000000000 0x200000000 (by decide)⟩

theorem div64U64_of_lt (a : UInt64) {b : UInt64} (small : b.toNat < 2 ^ 32) (pos : b ≠ 0) :
    (div64U64 a b).map UInt64.toNat = some (a.toNat / b.toNat) := by
  have value : b.toUInt32.toNat = b.toNat := by rw [UInt64.toNat_toUInt32, Nat.mod_eq_of_lt small]
  have low : (b >>> 32).toUInt32 = 0 := by
    apply UInt32.toNat_inj.mp
    rw [toNat_high, Nat.div_eq_of_lt small]
    rfl
  have divisorPos : b.toUInt32 ≠ 0 := fun zero => pos (UInt64.toNat_inj.mp (by
    rw [← value, zero]
    rfl))
  unfold div64U64
  dsimp only
  rw [if_pos low, divU64_eq a divisorPos, value]

theorem div64U64_of_lt_seven :
    (7 : UInt64).toNat < 2 ^ 32 ∧ (7 : UInt64) ≠ 0 ∧
      (div64U64 1000000000000000000 7).map UInt64.toNat =
        some ((1000000000000000000 : UInt64).toNat / (7 : UInt64).toNat) :=
  ⟨by decide, by decide, div64U64_of_lt 1000000000000000000 (by decide) (by decide)⟩

/-! ### Two's complement -/

theorem toInt_eq_toNat_cond64 (x : Int64) :
    x.toInt = if 2 * x.toUInt64.toNat < 2 ^ 64 then (x.toUInt64.toNat : Int) else x.toUInt64.toNat - 2 ^ 64 :=
  BitVec.toInt_eq_toNat_cond x.toBitVec

theorem toInt_eq_toNat_cond32 (x : Int32) :
    x.toInt = if 2 * x.toUInt32.toNat < 2 ^ 32 then (x.toUInt32.toNat : Int) else x.toUInt32.toNat - 2 ^ 32 :=
  BitVec.toInt_eq_toNat_cond x.toBitVec

theorem toNat_neg_toUInt64 {x : Int64} (neg : x < 0) : (-x).toUInt64.toNat = x.toInt.natAbs := by
  have value := toInt_eq_toNat_cond64 x
  have lt := x.toUInt64.toNat_lt
  rw [Int64.lt_iff_toInt_lt, show (0 : Int64).toInt = 0 from rfl] at neg
  rw [Int64.toUInt64_neg, UInt64.toNat_neg]
  simp only [UInt64.size]
  split at value <;> omega

theorem toNat_toUInt64_of_nonneg {x : Int64} (nonneg : ¬x < 0) : x.toUInt64.toNat = x.toInt.natAbs := by
  have value := toInt_eq_toNat_cond64 x
  have lt := x.toUInt64.toNat_lt
  rw [Int64.lt_iff_toInt_lt, show (0 : Int64).toInt = 0 from rfl] at nonneg
  split at value <;> omega

theorem toNat_absInt (y : Int32) : (absInt y).toNat = y.toInt.natAbs := by
  have value := toInt_eq_toNat_cond32 y
  have lt := y.toUInt32.toNat_lt
  unfold absInt
  by_cases neg : y < 0
  · rw [if_pos neg, Int32.toUInt32_neg, UInt32.toNat_neg]
    rw [Int32.lt_iff_toInt_lt, show (0 : Int32).toInt = 0 from rfl] at neg
    simp only [UInt32.size]
    split at value <;> omega
  · rw [if_neg neg]
    rw [Int32.lt_iff_toInt_lt, show (0 : Int32).toInt = 0 from rfl] at neg
    split at value <;> omega

theorem toInt_toInt64 {q : UInt64} (small : q.toNat < 2 ^ 63) : q.toInt64.toInt = q.toNat := by
  have value := toInt_eq_toNat_cond64 q.toInt64
  have same : q.toInt64.toUInt64 = q := rfl
  rw [same] at value
  split at value <;> omega

theorem toInt_neg_toInt64 {q : UInt64} (small : q.toNat ≤ 2 ^ 63) : (-q).toInt64.toInt = -q.toNat := by
  have value := toInt_eq_toNat_cond64 (-q).toInt64
  have same : (-q).toInt64.toUInt64 = -q := rfl
  rw [same, UInt64.toNat_neg] at value
  simp only [UInt64.size] at value
  split at value <;> omega

theorem toInt_toInt32 {r : UInt32} (small : r.toNat < 2 ^ 31) : r.toInt32.toInt = r.toNat := by
  have value := toInt_eq_toNat_cond32 r.toInt32
  have same : r.toInt32.toUInt32 = r := rfl
  rw [same] at value
  split at value <;> omega

theorem toInt_neg_toInt32 {r : UInt32} (small : r.toNat < 2 ^ 31) : (-r.toInt32).toInt = -r.toNat := by
  rw [Int32.toInt_neg, toInt_toInt32 small]
  rw [Int.bmod_def]
  have : r.toNat < 2 ^ 32 := r.toNat_lt
  split <;> omega

/-! ### `div_s64_rem` -/

theorem tdiv_tmod_of_magnitudes {X Y : Int} {a b : Nat} (negX negY : Bool)
    (hx : X = if negX then -(a : Int) else a) (hy : Y = if negY then -(b : Int) else b) :
    X.tdiv Y = (if negX = negY then ((a / b : Nat) : Int) else -((a / b : Nat) : Int)) ∧
      X.tmod Y = if negX then -((a % b : Nat) : Int) else ((a % b : Nat) : Int) := by
  subst hx hy
  cases negX <;> cases negY <;>
    simp only [if_true, if_false, Bool.false_eq_true, Bool.true_eq_false, Int.neg_tdiv, Int.tdiv_neg,
      Int.neg_neg, Int.neg_tmod, Int.tmod_neg, Int.ofNat_tdiv, Int.ofNat_tmod, and_self]

theorem divU64Rem_magnitudes {n : UInt64} {x : Int64} {y : Int32} (hn : n.toNat = x.toInt.natAbs)
    (pos : y ≠ 0) : ∃ q r, divU64Rem n (absInt y) = some (q, r) ∧
      q.toNat = x.toInt.natAbs / y.toInt.natAbs ∧ r.toNat = x.toInt.natAbs % y.toInt.natAbs ∧
      r.toNat < 2 ^ 31 ∧ q.toNat ≤ 2 ^ 63 := by
  have absY := toNat_absInt y
  have yNonzero : y.toInt ≠ 0 := fun zero => pos (Int32.toInt_inj.mp (by rw [zero]; rfl))
  have yLow := Int32.le_toInt y
  have yHigh := Int32.toInt_lt y
  have xLow := Int64.le_toInt x
  have xHigh := Int64.toInt_lt x
  have absPos : absInt y ≠ 0 := fun zero => by
    rw [zero, show (0 : UInt32).toNat = 0 from rfl] at absY
    omega
  obtain ⟨⟨q, r⟩, ran, result⟩ := Option.map_eq_some_iff.mp (doDiv_eq n absPos)
  rw [hn, absY, Prod.mk.injEq] at result
  refine ⟨q, r, ran, result.1, result.2, ?_, ?_⟩
  · rw [result.2]
    exact lt_of_lt_of_le (Nat.mod_lt _ (by omega)) (by omega)
  · rw [result.1]
    exact le_trans (Nat.div_le_self _ _) (by omega)

/-- `div_s64_rem` returns C's truncating quotient, and the remainder with the dividend's sign,
for every nonzero divisor but `S64_MIN / -1`, whose quotient `2^63` does not fit. -/
theorem divS64Rem_eq (x : Int64) {y : Int32} (pos : y ≠ 0)
    (noOverflow : ¬(x = Int64.minValue ∧ y = -1)) :
    (divS64Rem x y).map (fun r => (r.1.toInt, r.2.toInt)) =
      some (x.toInt.tdiv y.toInt, x.toInt.tmod y.toInt) := by
  have yNonzero : y.toInt ≠ 0 := fun zero => pos (Int32.toInt_inj.mp (by rw [zero]; rfl))
  have yLow := Int32.le_toInt y
  have xLow := Int64.le_toInt x
  have xHigh := Int64.toInt_lt x
  have notMin : ¬(x.toInt = -2 ^ 63 ∧ y.toInt = -1) := fun ⟨hx, hy⟩ => noOverflow
    ⟨Int64.toInt_inj.mp (by rw [hx]; rfl), Int32.toInt_inj.mp (by rw [hy]; rfl)⟩
  unfold divS64Rem
  by_cases neg : x < 0
  · rw [if_pos neg]
    obtain ⟨q, r, ran, hq, hr, rSmall, qBound⟩ := divU64Rem_magnitudes (toNat_neg_toUInt64 neg) pos
    rw [ran, Option.map_some, Option.map_some]
    rw [Int64.lt_iff_toInt_lt, show (0 : Int64).toInt = 0 from rfl] at neg
    dsimp only
    rw [toInt_neg_toInt32 rSmall, hr]
    by_cases yPos : y > 0
    · rw [if_pos yPos, toInt_neg_toInt64 qBound, hq]
      rw [gt_iff_lt, Int32.lt_iff_toInt_lt, show (0 : Int32).toInt = 0 from rfl] at yPos
      obtain ⟨d, m⟩ := tdiv_tmod_of_magnitudes (X := x.toInt) (Y := y.toInt) (a := x.toInt.natAbs)
        (b := y.toInt.natAbs) true false (by simp only [if_true]; omega)
        (by simp only [Bool.false_eq_true, if_false]; omega)
      rw [d, m]
      rfl
    · -- both negative: the quotient is not negated, and it fits since `S64_MIN / -1` is left out
      rw [if_neg yPos]
      rw [gt_iff_lt, Int32.lt_iff_toInt_lt, show (0 : Int32).toInt = 0 from rfl] at yPos
      have qSmall : q.toNat < 2 ^ 63 := by
        rw [hq]
        by_cases one : y.toInt = -1
        · have notMinX : x.toInt ≠ -2 ^ 63 := fun h => notMin ⟨h, one⟩
          rw [show y.toInt.natAbs = 1 by omega, Nat.div_one]
          omega
        · calc x.toInt.natAbs / y.toInt.natAbs ≤ x.toInt.natAbs / 2 :=
                Nat.div_le_div_left (by omega) (by decide)
            _ < 2 ^ 63 := by omega
      rw [toInt_toInt64 qSmall, hq]
      obtain ⟨d, m⟩ := tdiv_tmod_of_magnitudes (X := x.toInt) (Y := y.toInt) (a := x.toInt.natAbs)
        (b := y.toInt.natAbs) true true (by simp only [if_true]; omega) (by simp only [if_true]; omega)
      rw [d, m]
      rfl
  · rw [if_neg neg]
    obtain ⟨q, r, ran, hq, hr, rSmall, -⟩ := divU64Rem_magnitudes (toNat_toUInt64_of_nonneg neg) pos
    rw [ran, Option.map_some, Option.map_some]
    rw [Int64.lt_iff_toInt_lt, show (0 : Int64).toInt = 0 from rfl] at neg
    have qSmall : q.toNat < 2 ^ 63 := by
      rw [hq]
      exact lt_of_le_of_lt (Nat.div_le_self _ _) (by omega)
    dsimp only
    rw [toInt_toInt32 rSmall, hr]
    by_cases yNeg : y < 0
    · rw [if_pos yNeg, toInt_neg_toInt64 qSmall.le, hq]
      rw [Int32.lt_iff_toInt_lt, show (0 : Int32).toInt = 0 from rfl] at yNeg
      obtain ⟨d, m⟩ := tdiv_tmod_of_magnitudes (X := x.toInt) (Y := y.toInt) (a := x.toInt.natAbs)
        (b := y.toInt.natAbs) false true (by simp only [Bool.false_eq_true, if_false]; omega)
        (by simp only [if_true]; omega)
      rw [d, m]
      rfl
    · rw [if_neg yNeg, toInt_toInt64 qSmall, hq]
      rw [Int32.lt_iff_toInt_lt, show (0 : Int32).toInt = 0 from rfl] at yNeg
      obtain ⟨d, m⟩ := tdiv_tmod_of_magnitudes (X := x.toInt) (Y := y.toInt) (a := x.toInt.natAbs)
        (b := y.toInt.natAbs) false false (by simp only [Bool.false_eq_true, if_false]; omega)
        (by simp only [Bool.false_eq_true, if_false]; omega)
      rw [d, m]
      rfl

theorem divS64Rem_eq_negative :
    (2 : Int32) ≠ 0 ∧ ¬((-7 : Int64) = Int64.minValue ∧ (2 : Int32) = -1) ∧
      (divS64Rem (-7) 2).map (fun r => (r.1.toInt, r.2.toInt)) =
        some ((-7 : Int64).toInt.tdiv (2 : Int32).toInt, (-7 : Int64).toInt.tmod (2 : Int32).toInt) :=
  ⟨by decide, by decide, divS64Rem_eq (-7) (by decide) (by decide)⟩

/-- With the divisor `4533265819`, of 33 bits, `div64_u64` shifts both operands by 2 and the
estimate comes out three above the quotient `3077678811`: it returns `3077678813`. Through
`div64_s64`, positive operands of 63 bits meet the same error: `7565482652769770143 /
4465134847` gives `1694345841`, two above the truncating quotient. -/
theorem div64U64_overestimates :
    div64U64 13951936156630350466 4533265819 = some 3077678813 ∧
      (13951936156630350466 : Nat) / 4533265819 = 3077678811 ∧
      div64S64 7565482652769770143 4465134847 = some 1694345841 ∧
      (7565482652769770143 : Int).tdiv 4465134847 = 1694345839 :=
  ⟨by rfl, by norm_num, by rfl, by rfl⟩

end LinuxKernel.Div64
