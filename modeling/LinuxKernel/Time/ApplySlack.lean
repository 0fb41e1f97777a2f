import Mathlib
import LinuxKernel.Foundation.TopBit
import LinuxKernel.Lib.BitmapShift

/-!
# Timer slack (`apply_slack`, `kernel/timer.c`)

`apply_slack` clears the bits of the limit below the highest bit where it differs from
`expires`. Where defined, the result is the value of `(expires, limit]` divisible by the largest
power of two (`applySlack_mostEven`).
-/

namespace LinuxKernel.ApplySlack

open TopBit

/-- `find_last_bit(&word, BITS_PER_LONG)` on one word: there is no partial last word, and the
loop reads the word and returns `__fls(word)` when it is nonzero, the size otherwise. -/
def findLastBit (word : UInt64) : Nat :=
  if word ≠ 0 then Nat.log2 word.toNat else bitsPerLong

/-- The limit `apply_slack` rounds within: `expires + timer->slack` for a slack of at least 0,
`expires + delta / 256` for a negative one, where `delta` is `expires - jiffies` as a `long`;
`none` where it returns `expires` at once, for `delta < 256`. -/
def slackLimit (slack : Int32) (jiffies expires : UInt64) : Option UInt64 :=
  if slack ≥ 0 then some (expires + UInt64.ofNat slack.toInt.toNat)
  else
    let delta : Int := (expires - jiffies).toInt64.toInt
    if delta < 256 then none else some (expires + UInt64.ofNat (delta / 256).toNat)

/-- `apply_slack(timer, expires)` with `timer->slack` and `jiffies`; `none` where `1 << bit`
shifts the `int` 1 into or past its sign bit. -/
def applySlack (slack : Int32) (jiffies expires : UInt64) : Option UInt64 :=
  match slackLimit slack jiffies expires with
  | none => some expires
  | some limit =>
    let mask := expires ^^^ limit
    if mask = 0 then some expires
    else
      let bit := findLastBit mask
      -- the `int` `(1 << bit) - 1`, stored in the `unsigned long` `mask`
      if bit < 31 then some (limit &&& ~~~((1 <<< bit.toUInt64) - 1)) else none

/-! ### The limit -/

theorem slackLimit_toNat {slack : Int32} {jiffies expires limit : UInt64}
    (found : slackLimit slack jiffies expires = some limit) :
    ∃ n, n < 2 ^ 63 ∧ limit.toNat = (expires.toNat + n) % 2 ^ 64 := by
  unfold slackLimit at found
  by_cases nonneg : slack ≥ 0
  · rw [if_pos nonneg, Option.some_inj] at found
    have small : slack.toInt.toNat < 2 ^ 31 := by
      have := Int32.toInt_lt slack
      omega
    refine ⟨slack.toInt.toNat, by omega, ?_⟩
    rw [← found, UInt64.toNat_add, UInt64.toNat_ofNat',
      Nat.mod_eq_of_lt (show slack.toInt.toNat < 2 ^ 64 by omega)]
  · rw [if_neg nonneg] at found
    dsimp only at found
    by_cases early : (expires - jiffies).toInt64.toInt < 256
    · rw [if_pos early] at found
      cases found
    · rw [if_neg early, Option.some_inj] at found
      have small : ((expires - jiffies).toInt64.toInt / 256).toNat < 2 ^ 63 := by
        have := Int64.toInt_lt (expires - jiffies).toInt64
        omega
      refine ⟨_, small, ?_⟩
      rw [← found, UInt64.toNat_add, UInt64.toNat_ofNat',
        Nat.mod_eq_of_lt (show ((expires - jiffies).toInt64.toInt / 256).toNat < 2 ^ 64 by omega)]

theorem wraps_top_bit {e n : Nat} (fits : e < 2 ^ 64) (small : n < 2 ^ 63) (wraps : 2 ^ 64 ≤ e + n) :
    63 ≤ Nat.log2 (e ^^^ (e + n) % 2 ^ 64) := by
  have wrapped : (e + n) % 2 ^ 64 = e + n - 2 ^ 64 := by
    rw [Nat.mod_eq_sub_mod wraps, Nat.mod_eq_of_lt (by omega)]
  rw [wrapped]
  exact le_log2_xor (by omega) (by omega) (by omega)

/-! ### The rounding -/

theorem lowMask_toNat {bit : Nat} (small : bit < 64) :
    (((1 : UInt64) <<< bit.toUInt64) - 1).toNat = 2 ^ bit - 1 := by
  have shifted : ((1 : UInt64) <<< bit.toUInt64).toNat = 2 ^ bit := by
    rw [UInt64.toNat_shiftLeft, Nat.toUInt64_eq, UInt64.toNat_ofNat',
      Nat.mod_eq_of_lt (show bit < 2 ^ 64 by omega), Nat.mod_eq_of_lt small, Nat.shiftLeft_eq,
      show (1 : UInt64).toNat = 1 from rfl, Nat.one_mul]
    exact Nat.mod_eq_of_lt (Nat.pow_lt_pow_right (by decide) small)
  rw [UInt64.toNat_sub_of_le, shifted]
  · rfl
  · rw [UInt64.le_iff_toNat_le, shifted]
    exact Nat.one_le_two_pow

theorem clear_low_toNat (limit : UInt64) {bit : Nat} (small : bit < 64) :
    (limit &&& ~~~(((1 : UInt64) <<< bit.toUInt64) - 1)).toNat =
      limit.toNat / 2 ^ bit * 2 ^ bit := by
  rw [UInt64.toNat_and, UInt64.toNat_not, lowMask_toNat small]
  exact and_not_low_mask bit 64 limit.toNat_lt (by omega)

/-- Wherever `apply_slack` is defined and moves the expiry, the limit did not wrap and the result
is, of `(expires, limit]`, the value divisible by the largest power of two. -/
theorem applySlack_mostEven {slack : Int32} {jiffies expires limit r : UInt64}
    (found : slackLimit slack jiffies expires = some limit)
    (ran : applySlack slack jiffies expires = some r) :
    (limit = expires ∧ r = expires) ∨ MostEven expires.toNat limit.toNat r.toNat := by
  unfold applySlack at ran
  rw [found] at ran
  dsimp only at ran
  by_cases same : expires ^^^ limit = 0
  · rw [if_pos same, Option.some_inj] at ran
    exact Or.inl ⟨(UInt64.xor_eq_zero_iff.mp same).symm, ran.symm⟩
  rw [if_neg same] at ran
  have bitEq : findLastBit (expires ^^^ limit) = Nat.log2 (expires.toNat ^^^ limit.toNat) := by
    rw [findLastBit, if_pos same, UInt64.toNat_xor]
  rw [bitEq] at ran
  by_cases low : Nat.log2 (expires.toNat ^^^ limit.toNat) < 31
  · rw [if_pos low, Option.some_inj] at ran
    obtain ⟨n, small, sum⟩ := slackLimit_toNat found
    have fits := expires.toNat_lt
    -- a wrapping limit would differ from `expires` at bit 63
    have noWrap : expires.toNat + n < 2 ^ 64 := by
      by_contra wraps
      have := wraps_top_bit fits small (by omega)
      rw [← sum] at this
      omega
    have ne : expires.toNat ≠ limit.toNat := fun eq => same (by
      rw [UInt64.xor_eq_zero_iff]
      exact UInt64.toNat_inj.mp eq)
    have lt : expires.toNat < limit.toNat := by
      rw [sum, Nat.mod_eq_of_lt noWrap] at ne ⊢
      omega
    right
    rw [← ran, clear_low_toNat limit (by omega)]
    exact mostEven_topBit lt
  · rw [if_neg low] at ran
    cases ran

theorem applySlack_mostEven_slack :
    slackLimit 100 1000 1010 = some 1110 ∧ applySlack 100 1000 1010 = some 1024 ∧
      (((1110 : UInt64) = 1010 ∧ (1024 : UInt64) = 1010) ∨
        MostEven (1010 : UInt64).toNat (1110 : UInt64).toNat (1024 : UInt64).toNat) :=
  ⟨by decide, by decide, @applySlack_mostEven 100 1000 1010 1110 1024 (by decide) (by decide)⟩

/-- With `expires = 8` and a slack of 4 the limit is 12 and `apply_slack` returns 12, though 8,
also in `[expires, limit]`, is divisible by a larger power of two. And a limit that carries into
bit 40 makes `1 << bit` undefined. -/
theorem applySlack_skips_expires :
    applySlack 4 0 8 = some 12 ∧ 2 ^ 3 ∣ 8 ∧ ¬2 ^ 3 ∣ 12 ∧ applySlack 1 0 (2 ^ 40 - 1) = none := by
  decide

end LinuxKernel.ApplySlack
