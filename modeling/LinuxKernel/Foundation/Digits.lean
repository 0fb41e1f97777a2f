import Mathlib.Data.Nat.Bitwise
import Mathlib.Tactic.Ring

/-!
# Digits in base `2^k`

A number read as digits of `k` bits each, the lowest first, as a radix tree indexes its slots:
the digit at level `l` is `(x >> k*l) & (2^k - 1)`. Two numbers agree on the digits from `l`
on exactly when they agree on `x / 2^(k*l)`, the block at level `l` they lie in. The two
moves of a search for a free slot are `first` (the first number of `x`'s block at level
`l + 1` whose digit at `l` is `m`) and `next` (the first number past `x`'s block at level `l`).
-/

namespace Digits

variable {k : Nat}

/-- The digit of `x` at level `l`. -/
def digit (k x l : Nat) : Nat := x / 2 ^ (k * l) % 2 ^ k

/-- The first number that has `x`'s digits above `l` and `m` at `l`. -/
def first (k x l m : Nat) : Nat := (x / 2 ^ (k * (l + 1)) * 2 ^ k + m) * 2 ^ (k * l)

/-- The first number past `x`'s block at level `l`. -/
def next (k x l : Nat) : Nat := (x / 2 ^ (k * l) + 1) * 2 ^ (k * l)

theorem shiftRight_and_eq_digit (x l : Nat) : (x >>> (k * l)) &&& (2 ^ k - 1) = digit k x l := by
  rw [Nat.shiftRight_eq_div_pow, Nat.and_two_pow_sub_one_eq_mod, digit]

theorem digit_lt (x l : Nat) : digit k x l < 2 ^ k := Nat.mod_lt _ (Nat.two_pow_pos k)

theorem div_pow_succ (x l : Nat) : x / 2 ^ (k * (l + 1)) = x / 2 ^ (k * l) / 2 ^ k := by
  rw [Nat.mul_succ, Nat.pow_add, Nat.div_div_eq_div_mul]

theorem div_pow_eq (x l : Nat) : x / 2 ^ (k * l) = x / 2 ^ (k * (l + 1)) * 2 ^ k + digit k x l := by
  rw [div_pow_succ, digit, Nat.div_add_mod']

theorem div_pow_add (x l j : Nat) : x / 2 ^ (k * (l + j)) = x / 2 ^ (k * l) / 2 ^ (k * j) := by
  rw [Nat.mul_add, Nat.pow_add, Nat.div_div_eq_div_mul]

theorem digit_eq_of_div_eq {x y l : Nat} (h : x / 2 ^ (k * l) = y / 2 ^ (k * l)) {j : Nat}
    (hj : l ≤ j) : digit k x j = digit k y j := by
  obtain ⟨j, rfl⟩ := Nat.exists_eq_add_of_le hj
  rw [digit, digit, div_pow_add, div_pow_add, h]

theorem div_eq_of_digit_eq {x y l : Nat} (h : x / 2 ^ (k * (l + 1)) = y / 2 ^ (k * (l + 1)))
    (hd : digit k x l = digit k y l) : x / 2 ^ (k * l) = y / 2 ^ (k * l) := by
  rw [div_pow_eq x, div_pow_eq y, h, hd]

theorem div_eq_of_digits {x y l h : Nat} (top : x / 2 ^ (k * h) = y / 2 ^ (k * h))
    (digits : ∀ j, l ≤ j → j < h → digit k x j = digit k y j) :
    x / 2 ^ (k * l) = y / 2 ^ (k * l) := by
  induction h with
  | zero =>
    have : l = 0 ∨ 0 < l := Nat.eq_zero_or_pos l
    rcases this with rfl | pos
    · exact top
    · rw [Nat.mul_zero, Nat.pow_zero, Nat.div_one, Nat.div_one] at top
      rw [top]
  | succ h ih =>
    by_cases hl : l ≤ h
    · exact ih (div_eq_of_digit_eq top (digits h hl (by omega)))
        fun j h₁ h₂ => digits j h₁ (by omega)
    · have le : h + 1 ≤ l := by omega
      obtain ⟨j, rfl⟩ := Nat.exists_eq_add_of_le le
      rw [div_pow_add x (h + 1) j, div_pow_add y (h + 1) j, top]

theorem div_eq_zero_iff_lt {x h : Nat} : x / 2 ^ (k * h) = 0 ↔ x < 2 ^ (k * h) :=
  Nat.div_eq_zero_iff_lt (Nat.two_pow_pos _)

theorem eq_of_digits {x y h : Nat} (hx : x < 2 ^ (k * h)) (hy : y < 2 ^ (k * h))
    (digits : ∀ j < h, digit k x j = digit k y j) : x = y := by
  have := div_eq_of_digits (l := 0) (div_eq_zero_iff_lt.mpr hx |>.trans (div_eq_zero_iff_lt.mpr hy).symm)
    fun j _ hj => digits j hj
  simpa using this

theorem digit_eq_zero_of_lt {x h : Nat} (hx : x < 2 ^ (k * h)) {j : Nat} (hj : h ≤ j) :
    digit k x j = 0 := by
  have le : 2 ^ (k * h) ≤ 2 ^ (k * j) := Nat.pow_le_pow_right Nat.zero_lt_two (Nat.mul_le_mul_left k hj)
  rw [digit, Nat.div_eq_of_lt (lt_of_lt_of_le hx le), Nat.zero_mod]

theorem digit_pos {x l : Nat} (h₁ : 2 ^ (k * l) ≤ x) (h₂ : x < 2 ^ (k * (l + 1))) : 0 < digit k x l := by
  have eq := div_pow_eq (k := k) x l
  rw [div_eq_zero_iff_lt.mpr h₂, Nat.zero_mul, Nat.zero_add] at eq
  rw [← eq]
  exact Nat.div_pos h₁ (Nat.two_pow_pos _)

theorem digit_mod (y j : Nat) : digit k (y % 2 ^ (k * (j + 1))) j = digit k y j := by
  rw [digit, digit, Nat.mul_succ, Nat.pow_add, Nat.mod_mul_right_div_self, Nat.mod_mod]

theorem exists_digit (x l m : Nat) (hm : m < 2 ^ k) :
    ∃ y, digit k y l = m ∧ ∀ j < l, digit k y j = digit k x j := by
  refine ⟨x % 2 ^ (k * l) + m * 2 ^ (k * l), ?_, fun j hj => ?_⟩
  · rw [digit, Nat.add_mul_div_right _ _ (Nat.two_pow_pos _), Nat.mod_div_self, Nat.zero_add,
      Nat.mod_eq_of_lt hm]
  · obtain ⟨c, hc⟩ : 2 ^ (k * (j + 1)) ∣ 2 ^ (k * l) := Nat.pow_dvd_pow 2 (Nat.mul_le_mul_left k hj)
    have low : (x % 2 ^ (k * l) + m * 2 ^ (k * l)) % 2 ^ (k * (j + 1)) = x % 2 ^ (k * (j + 1)) := by
      rw [hc, show m * (2 ^ (k * (j + 1)) * c) = m * c * 2 ^ (k * (j + 1)) by ring,
        Nat.add_mul_mod_self_right, ← hc, Nat.mod_mod_of_dvd _ ⟨c, hc⟩]
    rw [← digit_mod _ j, low, digit_mod]

/-! ### The code's bit operations -/

theorem or_two_pow_sub_one (x n : Nat) : x ||| (2 ^ n - 1) = x / 2 ^ n * 2 ^ n + (2 ^ n - 1) := by
  rw [Nat.mul_comm]
  apply Nat.eq_of_testBit_eq
  intro i
  rw [Nat.testBit_or, Nat.testBit_two_pow_mul_add _ (Nat.sub_lt (Nat.two_pow_pos n) Nat.one_pos),
    Nat.testBit_two_pow_sub_one, Nat.testBit_div_two_pow]
  by_cases hi : i < n
  · simp [hi]
  · simp [hi, Nat.sub_add_cancel (Nat.le_of_not_lt hi)]

theorem or_add_one_eq_next (x l : Nat) : (x ||| (2 ^ (k * l) - 1)) + 1 = next k x l := by
  have := Nat.two_pow_pos (k * l)
  rw [or_two_pow_sub_one, next, Nat.succ_mul]
  omega

theorem xor_xor_eq (a m : Nat) (hm : m < 2 ^ k) : a ^^^ a % 2 ^ k ^^^ m = a / 2 ^ k * 2 ^ k + m := by
  rw [Nat.mul_comm]
  apply Nat.eq_of_testBit_eq
  intro i
  rw [Nat.testBit_xor, Nat.testBit_xor, Nat.testBit_mod_two_pow,
    Nat.testBit_two_pow_mul_add _ hm, Nat.testBit_div_two_pow]
  by_cases hi : i < k
  · simp [hi]
  · have : m.testBit i = false :=
      Nat.testBit_lt_two_pow (lt_of_lt_of_le hm (Nat.pow_le_pow_right Nat.zero_lt_two (by omega)))
    simp [hi, this, Nat.sub_add_cancel (Nat.le_of_not_lt hi)]

theorem xor_shift_eq_first (x l m : Nat) (hm : m < 2 ^ k) :
    ((x >>> (k * l)) ^^^ digit k x l ^^^ m) <<< (k * l) = first k x l m := by
  rw [Nat.shiftLeft_eq, Nat.shiftRight_eq_div_pow, digit, xor_xor_eq _ _ hm, first, div_pow_succ]

/-! ### The search moves -/

section Moves

variable {x l m : Nat}

theorem first_div_succ (hm : m < 2 ^ k) : first k x l m / 2 ^ (k * (l + 1)) = x / 2 ^ (k * (l + 1)) := by
  rw [first, div_pow_succ, Nat.mul_div_cancel _ (Nat.two_pow_pos _), Nat.add_comm,
    Nat.add_mul_div_right _ _ (Nat.two_pow_pos _), Nat.div_eq_of_lt hm, Nat.zero_add]

theorem first_div (x l m : Nat) : first k x l m / 2 ^ (k * l) = x / 2 ^ (k * (l + 1)) * 2 ^ k + m := by
  rw [first, Nat.mul_div_cancel _ (Nat.two_pow_pos _)]

theorem digit_first (hm : m < 2 ^ k) : digit k (first k x l m) l = m := by
  rw [digit, first_div, Nat.mul_add_mod_self_right, Nat.mod_eq_of_lt hm]

theorem first_digit_eq (x l : Nat) : first k x l (digit k x l) = x / 2 ^ (k * l) * 2 ^ (k * l) := by
  rw [first, ← div_pow_eq]

theorem first_le : first k x l (digit k x l) ≤ x := by
  rw [first_digit_eq]
  exact Nat.div_mul_le_self x _

theorem lt_first (hm : digit k x l < m) : x < first k x l m := by
  have below : x < (x / 2 ^ (k * l) + 1) * 2 ^ (k * l) := by
    rw [Nat.succ_mul]
    exact Nat.lt_div_mul_add (Nat.two_pow_pos _)
  calc x < (x / 2 ^ (k * l) + 1) * 2 ^ (k * l) := below
    _ = (x / 2 ^ (k * (l + 1)) * 2 ^ k + (digit k x l + 1)) * 2 ^ (k * l) := by rw [div_pow_eq x l]; rfl
    _ ≤ first k x l m := Nat.mul_le_mul_right _ (by omega)

theorem div_mod_of_bounds {Y Q P d m : Nat} (h₁ : Q * P + d ≤ Y) (h₂ : Y < Q * P + m) (hm : m ≤ P) :
    Y / P = Q ∧ d ≤ Y % P ∧ Y % P < m := by
  have quot : Y / P = Q := Nat.div_eq_of_lt_le (by omega) (by rw [Nat.succ_mul]; omega)
  have split := Nat.div_add_mod' Y P
  rw [quot] at split
  exact ⟨quot, by omega, by omega⟩

theorem between_first {y : Nat} (hm : m < 2 ^ k) (h₁ : x ≤ y) (h₂ : y < first k x l m) :
    y / 2 ^ (k * (l + 1)) = x / 2 ^ (k * (l + 1)) ∧ digit k x l ≤ digit k y l ∧ digit k y l < m := by
  have lo : x / 2 ^ (k * (l + 1)) * 2 ^ k + digit k x l ≤ y / 2 ^ (k * l) := by
    rw [← div_pow_eq]
    exact Nat.div_le_div_right h₁
  have hi : y / 2 ^ (k * l) < x / 2 ^ (k * (l + 1)) * 2 ^ k + m :=
    (Nat.div_lt_iff_lt_mul (Nat.two_pow_pos _)).mpr h₂
  obtain ⟨quot, dlo, dhi⟩ := div_mod_of_bounds lo hi hm.le
  exact ⟨by rw [div_pow_succ, quot], dlo, dhi⟩

theorem lt_next (x l : Nat) : x < next k x l := by
  rw [next, Nat.succ_mul]
  exact Nat.lt_div_mul_add (Nat.two_pow_pos _)

theorem pow_le_next (x l : Nat) : 2 ^ (k * l) ≤ next k x l :=
  Nat.le_mul_of_pos_left _ (Nat.succ_pos _)

theorem next_div (x l : Nat) : next k x l / 2 ^ (k * l) = x / 2 ^ (k * l) + 1 := by
  rw [next, Nat.mul_div_cancel _ (Nat.two_pow_pos _)]

theorem div_eq_of_lt_next {y : Nat} (h₁ : x ≤ y) (h₂ : y < next k x l) :
    y / 2 ^ (k * l) = x / 2 ^ (k * l) := by
  have le : x / 2 ^ (k * l) ≤ y / 2 ^ (k * l) := Nat.div_le_div_right h₁
  have lt : y / 2 ^ (k * l) < x / 2 ^ (k * l) + 1 := by
    rw [← next_div]
    exact Nat.div_lt_div_of_lt_of_dvd (Nat.dvd_mul_left _ _) h₂
  omega

theorem digit_le_of_div_eq {y : Nat} (h : x / 2 ^ (k * (l + 1)) = y / 2 ^ (k * (l + 1))) (hxy : x ≤ y) :
    digit k x l ≤ digit k y l := by
  have le : x / 2 ^ (k * l) ≤ y / 2 ^ (k * l) := Nat.div_le_div_right hxy
  rw [div_pow_eq x l, div_pow_eq y l, h] at le
  omega

theorem lt_of_div_eq {y L : Nat} (h : y / 2 ^ (k * l) = x / 2 ^ (k * l)) (hl : l ≤ L) (hx : x < 2 ^ (k * L)) :
    y < 2 ^ (k * L) := by
  obtain ⟨d, rfl⟩ := Nat.exists_eq_add_of_le hl
  rw [← div_eq_zero_iff_lt, div_pow_add, h, ← div_pow_add, div_eq_zero_iff_lt.mpr hx]

theorem next_le {L : Nat} (hx : x < 2 ^ (k * L)) (hl : l ≤ L) : next k x l ≤ 2 ^ (k * L) := by
  obtain ⟨d, rfl⟩ := Nat.exists_eq_add_of_le hl
  have lt : x / 2 ^ (k * l) < 2 ^ (k * d) := by
    rw [Nat.div_lt_iff_lt_mul (Nat.two_pow_pos _), ← Nat.pow_add, ← Nat.mul_add, Nat.add_comm d]
    exact hx
  calc next k x l = (x / 2 ^ (k * l) + 1) * 2 ^ (k * l) := rfl
    _ ≤ 2 ^ (k * d) * 2 ^ (k * l) := Nat.mul_le_mul_right _ lt
    _ = 2 ^ (k * (l + d)) := by rw [← Nat.pow_add, Nat.mul_add, Nat.add_comm]

theorem next_eq_first (x l : Nat) : next k x l = first k x l (digit k x l + 1) := by
  rw [next, first, div_pow_eq x l]
  rfl

theorem first_two_pow (x l : Nat) : first k x l (2 ^ k) = next k x (l + 1) := by
  rw [first, next, Nat.mul_add, Nat.pow_add]
  ring

theorem next_le_next_succ (x l : Nat) : next k x l ≤ next k x (l + 1) :=
  calc next k x l = first k x l (digit k x l + 1) := next_eq_first x l
    _ ≤ first k x l (2 ^ k) := Nat.mul_le_mul_right _ (Nat.add_le_add_left (digit_lt x l) _)
    _ = next k x (l + 1) := first_two_pow x l

theorem next_div_succ (hd : digit k x l + 1 < 2 ^ k) : next k x l / 2 ^ (k * (l + 1)) = x / 2 ^ (k * (l + 1)) := by
  rw [next_eq_first]
  exact first_div_succ hd

theorem digit_next (hd : digit k x l + 1 < 2 ^ k) : digit k (next k x l) l = digit k x l + 1 := by
  rw [next_eq_first]
  exact digit_first hd

theorem two_pow_dvd_next (x l : Nat) : 2 ^ (k * l) ∣ next k x l := Nat.dvd_mul_left _ _

theorem next_lt_or_dvd {m : Nat} (hx : x < 2 ^ m) : next k x l < 2 ^ m ∨ 2 ^ m ∣ next k x l := by
  by_cases le : k * l ≤ m
  · obtain ⟨d, rfl⟩ := Nat.exists_eq_add_of_le le
    have lt : x / 2 ^ (k * l) < 2 ^ d := by
      rw [Nat.div_lt_iff_lt_mul (Nat.two_pow_pos _), ← Nat.pow_add, Nat.add_comm d]
      exact hx
    have bound : next k x l ≤ 2 ^ (k * l + d) :=
      calc next k x l = (x / 2 ^ (k * l) + 1) * 2 ^ (k * l) := rfl
        _ ≤ 2 ^ d * 2 ^ (k * l) := Nat.mul_le_mul_right _ lt
        _ = 2 ^ (k * l + d) := by rw [← Nat.pow_add, Nat.add_comm]
    rcases bound.lt_or_eq with below | top
    · exact Or.inl below
    · exact Or.inr (top ▸ dvd_rfl)
  · exact Or.inr (Nat.dvd_trans (Nat.pow_dvd_pow 2 (by omega)) (two_pow_dvd_next x l))

end Moves

end Digits
