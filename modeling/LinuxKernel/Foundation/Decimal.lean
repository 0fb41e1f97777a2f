import Mathlib.Data.List.Basic
import Mathlib.Data.Nat.Digits.Defs
import Mathlib.Data.Nat.Log
import Mathlib.Tactic.Ring

/-!
# Decimal text

`decimalText n` is `toString n` as ASCII bytes, `decimalLE n` its digits least significant
first and `decPadded n k` its `k` lowest digits with leading zeros. A number splits at a power
of ten into a padded low part and the rest (`decimalLE_split`).
-/

namespace Decimal

/-- The ASCII byte of the digit `d`. -/
def digitByte (d : Nat) : UInt8 := (d + 48).toUInt8

/-- `toString n` as bytes. -/
def decimalText (n : Nat) : List UInt8 := (Nat.toDigits 10 n).map fun c => c.toNat.toUInt8

/-- The decimal digits of `n`, least significant first. -/
def decimalLE (n : Nat) : List UInt8 := (decimalText n).reverse

/-- The `k` lowest decimal digits of `n`, least significant first. -/
def decPadded : Nat → Nat → List UInt8
  | _, 0 => []
  | n, k + 1 => digitByte (n % 10) :: decPadded (n / 10) k

theorem digitChar_byte {d : Nat} (lt : d < 10) : (Nat.digitChar d).toNat.toUInt8 = digitByte d := by
  have all : ∀ d < 10, (Nat.digitChar d).toNat.toUInt8 = digitByte d := by decide
  exact all d lt

theorem digitByte_ne_zero {d : Nat} (pos : 0 < d) (lt : d < 10) : digitByte d ≠ digitByte 0 := by
  have all : ∀ d < 10, 0 < d → digitByte d ≠ digitByte 0 := by decide
  exact all d lt pos

theorem decimalLE_of_lt {n : Nat} (lt : n < 10) : decimalLE n = [digitByte n] := by
  simp [decimalLE, decimalText, Nat.toDigits_of_lt_base lt, digitChar_byte lt]

theorem decimalLE_of_ge {n : Nat} (ge : 10 ≤ n) :
    decimalLE n = digitByte (n % 10) :: decimalLE (n / 10) := by
  simp [decimalLE, decimalText, Nat.toDigits_of_base_le (by decide) ge,
    digitChar_byte (Nat.mod_lt n (by decide))]

theorem decimalLE_ne_nil (n : Nat) : decimalLE n ≠ [] := by
  simp [decimalLE, decimalText, Nat.toDigits_ne_nil]

@[simp] theorem length_decPadded (n k : Nat) : (decPadded n k).length = k := by
  induction k generalizing n with
  | zero => rfl
  | succ k ih => simp [decPadded, ih]

theorem decPadded_eq_decimalLE {n k : Nat} (lo : 10 ^ k ≤ n) (hi : n < 10 ^ (k + 1)) :
    decPadded n (k + 1) = decimalLE n := by
  induction k generalizing n with
  | zero =>
    rw [decPadded, decPadded, decimalLE_of_lt (by simpa using hi), Nat.mod_eq_of_lt (by simpa using hi)]
  | succ k ih =>
    have ge : 10 ≤ n := le_trans (Nat.le_self_pow (by omega) 10) lo
    rw [decPadded, decimalLE_of_ge ge, ih (by rw [pow_succ] at lo; omega)
      (by rw [pow_succ] at hi; omega)]

theorem decimalLE_split {q r k : Nat} (pos : 0 < q) (lt : r < 10 ^ k) :
    decimalLE (r + 10 ^ k * q) = decPadded r k ++ decimalLE q := by
  induction k generalizing r with
  | zero =>
    rw [pow_zero] at lt
    rw [show r = 0 by omega, pow_zero, one_mul, Nat.zero_add, decPadded, List.nil_append]
  | succ k ih =>
    have ge : 10 ≤ r + 10 ^ (k + 1) * q := by
      have := Nat.le_self_pow (Nat.succ_ne_zero k) 10
      have : 10 ^ (k + 1) ≤ 10 ^ (k + 1) * q := Nat.le_mul_of_pos_right _ pos
      omega
    -- one digit off the bottom leaves `r / 10 + 10^k * q`
    have low : (r + 10 ^ (k + 1) * q) % 10 = r % 10 := by
      rw [pow_succ, Nat.mul_assoc, Nat.mul_comm 10, ← Nat.mul_assoc, Nat.add_mul_mod_self_right]
    have high : (r + 10 ^ (k + 1) * q) / 10 = r / 10 + 10 ^ k * q := by
      rw [pow_succ, Nat.mul_assoc, Nat.mul_comm 10, ← Nat.mul_assoc, Nat.add_mul_div_right _ _ (by decide)]
    rw [decimalLE_of_ge ge, low, high, ih (by rw [pow_succ] at lt; omega), decPadded, List.cons_append]

theorem decPadded_append {a b k m : Nat} (lt : a < 10 ^ k) :
    decPadded a k ++ decPadded b m = decPadded (a + 10 ^ k * b) (k + m) := by
  induction k generalizing a with
  | zero =>
    rw [pow_zero] at lt
    rw [show a = 0 by omega, pow_zero, one_mul, Nat.zero_add, Nat.zero_add, decPadded, List.nil_append]
  | succ k ih =>
    have low : (a + 10 ^ (k + 1) * b) % 10 = a % 10 := by
      rw [pow_succ, Nat.mul_assoc, Nat.mul_comm 10, ← Nat.mul_assoc, Nat.add_mul_mod_self_right]
    have high : (a + 10 ^ (k + 1) * b) / 10 = a / 10 + 10 ^ k * b := by
      rw [pow_succ, Nat.mul_assoc, Nat.mul_comm 10, ← Nat.mul_assoc, Nat.add_mul_div_right _ _ (by decide)]
    rw [show k + 1 + m = (k + m) + 1 by omega, decPadded, decPadded, low, high, List.cons_append,
      ih (by rw [pow_succ] at lt; omega)]

theorem decPadded_zero (k : Nat) : decPadded 0 k = List.replicate k (digitByte 0) := by
  induction k with
  | zero => rfl
  | succ k ih => rw [decPadded, ih, List.replicate_succ]

theorem decPadded_dropZeros {n k : Nat} (pos : 0 < n) (lt : n < 10 ^ k) :
    ((decPadded n k).reverse.dropWhile (· == digitByte 0)).reverse = decimalLE n := by
  induction k generalizing n with
  | zero => simp at lt; omega
  | succ k ih =>
    rw [decPadded, List.reverse_cons, List.dropWhile_append]
    by_cases small : n < 10
    · -- the digits above are all zeros and are dropped; the digit of `n` is not
      have top : n / 10 = 0 := Nat.div_eq_of_lt small
      have kept : digitByte n ≠ digitByte 0 := digitByte_ne_zero pos small
      simp [top, decPadded_zero, kept, decimalLE_of_lt small,
        Nat.mod_eq_of_lt small]
    · have rest := ih (n := n / 10) (by omega) (by rw [pow_succ] at lt; omega)
      have nonempty : ((decPadded (n / 10) k).reverse.dropWhile (· == digitByte 0)).isEmpty = false := by
        rw [List.isEmpty_eq_false_iff]
        intro empty
        have := congrArg List.reverse empty
        rw [rest, List.reverse_nil] at this
        exact decimalLE_ne_nil _ this
      rw [nonempty, if_neg Bool.false_ne_true, List.reverse_append, rest,
        decimalLE_of_ge (n := n) (by omega), List.reverse_singleton, List.singleton_append]

theorem decimalLE_getLast_ne_zero {n : Nat} (pos : 0 < n) :
    (decimalLE n).getLast (decimalLE_ne_nil n) ≠ digitByte 0 := by
  induction n using Nat.strong_induction_on with
  | _ n ih =>
    by_cases small : n < 10
    · simp only [decimalLE_of_lt small, List.getLast_singleton]
      exact digitByte_ne_zero pos small
    · have rest := ih (n / 10) (by omega) (by omega)
      simp only [decimalLE_of_ge (n := n) (by omega)]
      rwa [List.getLast_cons (decimalLE_ne_nil _)]

theorem decimalText_zero : decimalText 0 = [digitByte 0] := by
  simpa [decimalLE] using congrArg List.reverse (decimalLE_of_lt (n := 0) (by decide))

theorem length_decimalText_le {n k : Nat} (pos : 0 < k) (lt : n < 10 ^ k) :
    (decimalText n).length ≤ k := by
  simpa [decimalText] using Nat.toDigits_length 10 n k pos lt

theorem zeroPad_decimalText {n k : Nat} (pos : 0 < k) (lt : n < 10 ^ k) :
    List.replicate (k - (decimalText n).length) (digitByte 0) ++ decimalText n =
      (decPadded n k).reverse := by
  rcases Nat.eq_zero_or_pos n with rfl | npos
  · rw [decimalText_zero, decPadded_zero, List.reverse_replicate, List.length_singleton,
      ← List.replicate_succ', Nat.sub_add_cancel pos]
  · -- `n` has `m + 1` digits, `m` its exponent of ten, and `k - (m + 1)` zeros go above them
    set m := Nat.log 10 n
    have lo : 10 ^ m ≤ n := Nat.pow_log_le_self 10 npos.ne'
    have hi : n < 10 ^ (m + 1) := Nat.lt_pow_succ_log_self (by decide) n
    have digits : decPadded n (m + 1) = decimalLE n := decPadded_eq_decimalLE lo hi
    have len : (decimalText n).length = m + 1 := by
      rw [← List.length_reverse, ← decimalLE, ← digits, length_decPadded]
    have fits : m + 1 ≤ k := (Nat.pow_lt_pow_iff_right (by decide)).mp (lt_of_le_of_lt lo lt)
    have split := decPadded_append (b := 0) (m := k - (m + 1)) hi
    simp only [Nat.mul_zero, Nat.add_zero] at split
    rw [Nat.add_sub_cancel' fits, digits, decPadded_zero] at split
    rw [← split, List.reverse_append, List.reverse_replicate, len, decimalLE, List.reverse_reverse]

theorem decimalText_ne_nil (n : Nat) : decimalText n ≠ [] := by
  simpa [decimalLE] using decimalLE_ne_nil n

theorem mem_decimalText {n : Nat} {c : UInt8} (mem : c ∈ decimalText n) :
    ∃ d < 10, c = digitByte d := by
  rw [← List.mem_reverse, ← decimalLE] at mem
  induction n using Nat.strong_induction_on with
  | _ n ih =>
    by_cases small : n < 10
    · rw [decimalLE_of_lt small, List.mem_singleton] at mem
      exact ⟨n, small, mem⟩
    · rw [decimalLE_of_ge (by omega), List.mem_cons] at mem
      rcases mem with rfl | mem
      · exact ⟨n % 10, Nat.mod_lt n (by decide), rfl⟩
      · exact ih (n / 10) (by omega) mem

end Decimal
