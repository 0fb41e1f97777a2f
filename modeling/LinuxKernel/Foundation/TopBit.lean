import Mathlib.Data.Nat.Bitwise
import Mathlib.Tactic.Ring

/-!
# The highest bit where two numbers differ

Above the highest bit `b` of `lo ^^^ hi` the two numbers agree, and at `b` they differ; for
`lo < hi` the bit is clear in `lo` and set in `hi` (`div_topBit`). Clearing the bits of `hi` below
`b` then gives the value of `(lo, hi]` divisible by the largest power of two
(`mostEven_topBit`). `and_not_low_mask` is that clearing as a mask of a `w`-bit word.
-/

namespace TopBit

/-- `r` lies in `(lo, hi]` and every power of two that divides a value of `(lo, hi]` divides `r`:
of that interval, `r` is the value divisible by the largest power of two. -/
def MostEven (lo hi r : Nat) : Prop :=
  lo < r ∧ r ≤ hi ∧ ∀ v, lo < v → v ≤ hi → ∀ k, 2 ^ k ∣ v → 2 ^ k ∣ r

theorem div_eq_above_topBit (lo hi : Nat) :
    lo / 2 ^ (Nat.log2 (lo ^^^ hi) + 1) = hi / 2 ^ (Nat.log2 (lo ^^^ hi) + 1) := by
  have gone : (lo ^^^ hi) >>> (Nat.log2 (lo ^^^ hi) + 1) = 0 := by
    rw [Nat.shiftRight_eq_div_pow]
    exact Nat.div_eq_of_lt Nat.lt_log2_self
  rw [Nat.shiftRight_xor_distrib] at gone
  have same := Nat.eq_of_xor_eq_zero gone
  rwa [Nat.shiftRight_eq_div_pow, Nat.shiftRight_eq_div_pow] at same

theorem testBit_topBit {lo hi : Nat} (ne : lo ≠ hi) :
    lo.testBit (Nat.log2 (lo ^^^ hi)) ≠ hi.testBit (Nat.log2 (lo ^^^ hi)) := by
  have nonzero : lo ^^^ hi ≠ 0 := fun zero => ne (Nat.eq_of_xor_eq_zero zero)
  have set := Nat.testBit_log2 nonzero
  rw [Nat.testBit_xor] at set
  intro same
  rw [same, Bool.xor_self] at set
  exact Bool.false_ne_true set

/-- For `lo < hi`, counted in units of `2^b` at the highest differing bit `b`, `hi` is one past
`lo`, which is even: the bit is clear in `lo` and set in `hi`. -/
theorem div_topBit {lo hi : Nat} (lt : lo < hi) :
    hi / 2 ^ Nat.log2 (lo ^^^ hi) = lo / 2 ^ Nat.log2 (lo ^^^ hi) + 1 ∧
      lo / 2 ^ Nat.log2 (lo ^^^ hi) % 2 = 0 := by
  have above : lo / 2 ^ Nat.log2 (lo ^^^ hi) / 2 = hi / 2 ^ Nat.log2 (lo ^^^ hi) / 2 := by
    rw [Nat.div_div_eq_div_mul, Nat.div_div_eq_div_mul, ← Nat.pow_succ]
    exact div_eq_above_topBit lo hi
  have differ := testBit_topBit lt.ne
  rw [Nat.testBit_eq_decide_div_mod_eq, Nat.testBit_eq_decide_div_mod_eq] at differ
  have parity : lo / 2 ^ Nat.log2 (lo ^^^ hi) % 2 ≠ hi / 2 ^ Nat.log2 (lo ^^^ hi) % 2 :=
    fun same => differ (by rw [same])
  have le : lo / 2 ^ Nat.log2 (lo ^^^ hi) ≤ hi / 2 ^ Nat.log2 (lo ^^^ hi) :=
    Nat.div_le_div_right lt.le
  omega

/-- Clearing the bits of `hi` below the highest differing bit gives the value of `(lo, hi]`
divisible by the largest power of two. A larger power than `2^b` would need a multiple of
`2^(b+1)` in `(lo, hi]`, but in units of `2^b` that interval only reaches from the even `lo / 2^b`
to one past it. -/
theorem mostEven_topBit {lo hi : Nat} (lt : lo < hi) :
    MostEven lo hi (hi / 2 ^ Nat.log2 (lo ^^^ hi) * 2 ^ Nat.log2 (lo ^^^ hi)) := by
  obtain ⟨up, even⟩ := div_topBit lt
  generalize Nat.log2 (lo ^^^ hi) = b at up even
  have pos : 0 < 2 ^ b := Nat.two_pow_pos b
  refine ⟨?_, Nat.div_mul_le_self hi _, ?_⟩
  · rw [up, Nat.succ_mul]
    exact Nat.lt_div_mul_add pos
  · intro v past within k dvd
    by_cases small : k ≤ b
    · exact Nat.dvd_trans (Nat.pow_dvd_pow 2 small) (Nat.dvd_mul_left _ _)
    · exfalso
      obtain ⟨c, rfl⟩ : 2 ^ (b + 1) ∣ v := Nat.dvd_trans (Nat.pow_dvd_pow 2 (by omega)) dvd
      have units : 2 ^ (b + 1) * c / 2 ^ b = 2 * c := by
        rw [Nat.pow_succ, Nat.mul_comm (2 ^ b) 2, Nat.mul_assoc, Nat.mul_left_comm,
          Nat.mul_div_cancel_left _ pos]
      have lower : lo / 2 ^ b ≤ 2 * c := units ▸ Nat.div_le_div_right past.le
      have upper : 2 * c ≤ lo / 2 ^ b + 1 := up ▸ units ▸ Nat.div_le_div_right within
      have back : 2 ^ (b + 1) * c = lo / 2 ^ b * 2 ^ b := by
        rw [show lo / 2 ^ b = 2 * c by omega, Nat.pow_succ]
        ring
      have := Nat.div_mul_le_self lo (2 ^ b)
      omega

theorem and_not_low_mask {x : Nat} (b w : Nat) (hx : x < 2 ^ w) (hb : b ≤ w) :
    x &&& (2 ^ w - 1 - (2 ^ b - 1)) = x / 2 ^ b * 2 ^ b := by
  have mask : 2 ^ w - 1 - (2 ^ b - 1) = (2 ^ (w - b) - 1) <<< b := by
    have split : 2 ^ w = 2 ^ (w - b) * 2 ^ b := by rw [← Nat.pow_add, Nat.sub_add_cancel hb]
    have one : 1 ≤ 2 ^ b := Nat.one_le_two_pow
    rw [Nat.shiftLeft_eq, Nat.sub_one_mul, ← split]
    omega
  rw [mask, ← Nat.shiftLeft_eq, ← Nat.shiftRight_eq_div_pow]
  apply Nat.eq_of_testBit_eq
  intro i
  rw [Nat.testBit_and, Nat.testBit_shiftLeft, Nat.testBit_shiftLeft, Nat.testBit_shiftRight,
    Nat.testBit_two_pow_sub_one]
  by_cases below : i < b
  · have notLe : ¬b ≤ i := by omega
    simp only [notLe, decide_false, Bool.false_and, Bool.and_false]
  · have le : b ≤ i := by omega
    rw [Nat.add_sub_cancel' le]
    by_cases inside : i < w
    · have inRange : i - b < w - b := by omega
      simp only [le, inRange, decide_true, Bool.true_and, Bool.and_true]
    · -- above the word `x` has no bits
      have high : x.testBit i = false :=
        Nat.testBit_eq_false_of_lt (Nat.lt_of_lt_of_le hx (Nat.pow_le_pow_right (by decide) (by omega)))
      have outRange : ¬i - b < w - b := by omega
      simp only [le, outRange, high, decide_true, decide_false, Bool.and_false]

theorem le_log2_xor {lo hi k : Nat} (hiLt : hi < 2 ^ k) (loGe : 2 ^ k ≤ lo)
    (loLt : lo < 2 ^ (k + 1)) : k ≤ Nat.log2 (lo ^^^ hi) := by
  have one : lo / 2 ^ k = 1 := by
    rw [Nat.pow_succ] at loLt
    exact Nat.div_eq_of_lt_le (by rw [Nat.one_mul]; exact loGe) (by omega)
  have loBit : lo.testBit k = true := by
    rw [Nat.testBit_eq_decide_div_mod_eq, one]
    rfl
  have hiBit : hi.testBit k = false := Nat.testBit_eq_false_of_lt hiLt
  have xorBit : (lo ^^^ hi).testBit k = true := by rw [Nat.testBit_xor, loBit, hiBit]; rfl
  have nonzero : lo ^^^ hi ≠ 0 := fun zero => by rw [zero, Nat.zero_testBit] at xorBit; cases xorBit
  exact (Nat.le_log2 nonzero).mpr (Nat.ge_two_pow_of_testBit xorBit)

end TopBit
