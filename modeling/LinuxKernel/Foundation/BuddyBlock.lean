import Mathlib.Data.Nat.Bitwise
import Mathlib.Tactic.Ring

/-!
# Aligned blocks of a buddy system

The block of order `o` at a multiple `p` of `2^o` holds `p, ..., p + 2^o - 1`; its buddy is
`p ^^^ 2^o`. Splitting the block of order `k` down to order `l` leaves one block of each order
`j` in `[l, k)` at `p + 2^j`.
-/

namespace Buddy

/-- `q` lies in the block of order `o` at `p`. -/
def InBlock (p o q : Nat) : Prop := p ≤ q ∧ q < p + 2 ^ o

instance (p o q : Nat) : Decidable (InBlock p o q) := inferInstanceAs (Decidable (_ ∧ _))

theorem xor_one_eq (n : Nat) : n ^^^ 1 = if n % 2 = 0 then n + 1 else n - 1 := by
  have div : (n ^^^ 1) / 2 = n / 2 := by
    rw [Nat.xor_div_two]
    simp
  have mod : (n ^^^ 1) % 2 = n % 2 ^^^ 1 := by
    simpa using Nat.xor_mod_two_pow (a := n) (b := 1) (n := 1)
  have low : n % 2 ^^^ 1 = 1 - n % 2 := by
    rcases Nat.mod_two_eq_zero_or_one n with h | h <;> rw [h] <;> rfl
  have := Nat.div_add_mod (n ^^^ 1) 2
  have := Nat.div_add_mod n 2
  split_ifs <;> omega

theorem xor_one_and_self (n : Nat) : (n ^^^ 1) &&& n = n / 2 * 2 := by
  have div : ((n ^^^ 1) &&& n) / 2 = n / 2 := by
    rw [Nat.and_div_two, Nat.xor_div_two]
    simp
  have mod : ((n ^^^ 1) &&& n) % 2 = 0 := by
    have := Nat.and_mod_two_pow (a := n ^^^ 1) (b := n) (n := 1)
    rw [Nat.xor_mod_two_pow, pow_one] at this
    rw [this]
    rcases Nat.mod_two_eq_zero_or_one n with h | h <;> simp [h]
  have := Nat.div_add_mod ((n ^^^ 1) &&& n) 2
  omega

theorem mul_two_pow_xor (i o : Nat) : (i * 2 ^ o) ^^^ 2 ^ o = (i ^^^ 1) * 2 ^ o := by
  rw [← Nat.shiftLeft_eq, ← Nat.shiftLeft_eq, ← Nat.one_shiftLeft, Nat.shiftLeft_xor_distrib]

theorem mul_two_pow_and (a b o : Nat) : (a * 2 ^ o) &&& (b * 2 ^ o) = (a &&& b) * 2 ^ o := by
  rw [← Nat.shiftLeft_eq, ← Nat.shiftLeft_eq, ← Nat.shiftLeft_eq, Nat.shiftLeft_and_distrib]

/-! ### A block, its buddy and the block around both -/

section Halves

variable {p o : Nat}

theorem halves (h : 2 ^ o ∣ p) :
    (p ^^^ 2 ^ o = p + 2 ^ o ∧ (p ^^^ 2 ^ o) &&& p = p) ∨
      ((p ^^^ 2 ^ o) + 2 ^ o = p ∧ (p ^^^ 2 ^ o) &&& p = p ^^^ 2 ^ o) := by
  obtain ⟨c, rfl⟩ := h
  rw [Nat.mul_comm, mul_two_pow_xor, mul_two_pow_and, xor_one_and_self, xor_one_eq]
  rcases Nat.mod_two_eq_zero_or_one c with even | odd
  · left
    rw [if_pos even, Nat.div_mul_cancel (Nat.dvd_of_mod_eq_zero even)]
    exact ⟨by ring, rfl⟩
  · right
    have pos : 1 ≤ c := by omega
    rw [if_neg (by omega), show c / 2 * 2 = c - 1 by omega]
    exact ⟨by rw [Nat.sub_one_mul]; have := Nat.le_mul_of_pos_left (2 ^ o) pos; omega, rfl⟩

theorem dvd_and_xor_two_pow (h : 2 ^ o ∣ p) : 2 ^ (o + 1) ∣ (p ^^^ 2 ^ o) &&& p := by
  obtain ⟨c, rfl⟩ := h
  rw [Nat.mul_comm, mul_two_pow_xor, mul_two_pow_and, xor_one_and_self, Nat.mul_assoc, ← Nat.pow_succ']
  exact Nat.dvd_mul_left _ _

theorem xor_two_pow_ne (p o : Nat) : p ^^^ 2 ^ o ≠ p := by
  intro e
  have := congrArg (fun n => n ^^^ p) e
  simp only [Nat.xor_comm p, Nat.xor_assoc, Nat.xor_self, Nat.xor_zero] at this
  exact absurd this (Nat.two_pow_pos o).ne'

theorem inBlock_and_xor_two_pow (h : 2 ^ o ∣ p) (q : Nat) :
    InBlock ((p ^^^ 2 ^ o) &&& p) (o + 1) q ↔ InBlock p o q ∨ InBlock (p ^^^ 2 ^ o) o q := by
  unfold InBlock
  rw [Nat.pow_succ]
  rcases halves h with ⟨hb, hc⟩ | ⟨hb, hc⟩ <;> rw [hc] <;> omega

end Halves

/-! ### Indices with a higher part -/

section High

variable {M c : Nat}

theorem two_pow_mul_add_xor {i o : Nat} (hi : i < 2 ^ M) (ho : o < M) :
    2 ^ M * c + (i ^^^ 2 ^ o) = (2 ^ M * c + i) ^^^ 2 ^ o := by
  have lt : i ^^^ 2 ^ o < 2 ^ M := Nat.xor_lt_two_pow hi (Nat.pow_lt_pow_right (by norm_num) ho)
  apply Nat.eq_of_testBit_eq
  intro j
  rw [Nat.testBit_two_pow_mul_add _ lt, Nat.testBit_xor, Nat.testBit_xor, Nat.testBit_two_pow_mul_add _ hi]
  by_cases hj : j < M
  · simp [hj]
  · simp [hj, show o ≠ j by omega]

theorem two_pow_mul_add_and {i j : Nat} (hi : i < 2 ^ M) (hj : j < 2 ^ M) :
    2 ^ M * c + (i &&& j) = (2 ^ M * c + i) &&& (2 ^ M * c + j) := by
  have lt : i &&& j < 2 ^ M := Nat.and_lt_two_pow _ hj
  apply Nat.eq_of_testBit_eq
  intro k
  rw [Nat.testBit_two_pow_mul_add _ lt, Nat.testBit_and, Nat.testBit_and, Nat.testBit_two_pow_mul_add _ hi,
    Nat.testBit_two_pow_mul_add _ hj]
  by_cases hk : k < M <;> simp [hk]

theorem sub_mod_add_xor {p o : Nat} (ho : o < M) : p - p % 2 ^ M + (p % 2 ^ M ^^^ 2 ^ o) = p ^^^ 2 ^ o := by
  have split := Nat.div_add_mod p (2 ^ M)
  rw [show p - p % 2 ^ M = 2 ^ M * (p / 2 ^ M) by omega, two_pow_mul_add_xor (Nat.mod_lt _ (Nat.two_pow_pos M)) ho,
    split]

theorem sub_mod_add_and {p o : Nat} (ho : o < M) :
    p - p % 2 ^ M + ((p % 2 ^ M ^^^ 2 ^ o) &&& p % 2 ^ M) = (p ^^^ 2 ^ o) &&& p := by
  have split := Nat.div_add_mod p (2 ^ M)
  have low := Nat.mod_lt p (Nat.two_pow_pos M)
  rw [show p - p % 2 ^ M = 2 ^ M * (p / 2 ^ M) by omega,
    two_pow_mul_add_and (Nat.xor_lt_two_pow low (Nat.pow_lt_pow_right (by norm_num) ho)) low,
    two_pow_mul_add_xor low ho, split]

theorem and_xor_two_pow_mod {p o : Nat} (ho : o < M) :
    ((p ^^^ 2 ^ o) &&& p) % 2 ^ M = (p % 2 ^ M ^^^ 2 ^ o) &&& p % 2 ^ M := by
  have low := Nat.mod_lt p (Nat.two_pow_pos M)
  have lt : (p % 2 ^ M ^^^ 2 ^ o) &&& p % 2 ^ M < 2 ^ M := Nat.and_lt_two_pow _ low
  rw [← sub_mod_add_and ho, show p - p % 2 ^ M = 2 ^ M * (p / 2 ^ M) by have := Nat.div_add_mod p (2 ^ M); omega,
    Nat.mul_add_mod, Nat.mod_eq_of_lt lt]

end High

/-! ### Splitting a block -/

section Split

variable {p k l : Nat}

theorem dvd_add_two_pow (h : 2 ^ k ∣ p) {j : Nat} (hj : j ≤ k) : 2 ^ j ∣ p + 2 ^ j :=
  Nat.dvd_add ((Nat.pow_dvd_pow 2 hj).trans h) (dvd_refl _)

theorem add_two_pow_xor (h : 2 ^ k ∣ p) {j : Nat} (hj : j < k) : (p + 2 ^ j) ^^^ 2 ^ j = p := by
  have high : 2 ^ (j + 1) ∣ p := (Nat.pow_dvd_pow 2 hj).trans h
  rcases halves (dvd_add_two_pow h hj.le) with ⟨-, hc⟩ | ⟨hb, -⟩
  · -- `p + 2^j` would be a multiple of `2^(j+1)`, and so would `2^j`
    have around := dvd_and_xor_two_pow (dvd_add_two_pow h hj.le)
    rw [hc] at around
    have low := (Nat.dvd_add_right high).mp around
    have := Nat.le_of_dvd (Nat.two_pow_pos j) low
    rw [Nat.pow_succ] at this
    have := Nat.two_pow_pos j
    omega
  · omega

theorem inBlock_split (hl : l ≤ k) (q : Nat) :
    InBlock p k q ↔ InBlock p l q ∨ ∃ j, l ≤ j ∧ j < k ∧ InBlock (p + 2 ^ j) j q := by
  induction k, hl using Nat.le_induction with
  | base =>
    constructor
    · exact .inl
    · rintro (h | ⟨j, h₁, h₂, -⟩)
      · exact h
      · omega
  | succ k hl ih =>
    have top : InBlock p (k + 1) q ↔ InBlock p k q ∨ InBlock (p + 2 ^ k) k q := by
      unfold InBlock
      rw [Nat.pow_succ]
      omega
    rw [top, ih]
    constructor
    · rintro ((h | ⟨j, h₁, h₂, h₃⟩) | h)
      · exact .inl h
      · exact .inr ⟨j, h₁, by omega, h₃⟩
      · exact .inr ⟨k, hl, by omega, h⟩
    · rintro (h | ⟨j, h₁, h₂, h₃⟩)
      · exact .inl (.inl h)
      · by_cases hj : j = k
        · subst hj
          exact .inr h₃
        · exact .inl (.inr ⟨j, h₁, by omega, h₃⟩)

theorem not_inBlock_split {j q : Nat} (hj : l ≤ j) (h : InBlock p l q) : ¬InBlock (p + 2 ^ j) j q := by
  unfold InBlock at h ⊢
  have := Nat.pow_le_pow_right (show 0 < 2 by norm_num) hj
  omega

end Split

end Buddy
