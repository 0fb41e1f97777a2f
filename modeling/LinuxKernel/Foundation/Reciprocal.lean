import Mathlib.Tactic.Ring

/-!
# Division by a multiply and a shift

`a / b` computed as `a * r / N`, where `r = (N + b - 1) / b` is the reciprocal of `b` rounded up
at the scale `N`. Rounding up makes `r * b` exceed `N` by an error below `b`; the quotient is
exact while `a` times that error stays below `N`, since the error `a * r` carries past
`a * N / b` is then less than one unit of the scale.
-/

namespace Reciprocal

variable {N b : Nat}

theorem le_ceil_mul (hb : 0 < b) : N ≤ (N + b - 1) / b * b := by
  have split := Nat.div_add_mod (N + b - 1) b
  have rem := Nat.mod_lt (N + b - 1) hb
  rw [Nat.mul_comm]
  omega

theorem ceil_mul_lt (hb : 0 < b) : (N + b - 1) / b * b < N + b := by
  have below := Nat.div_mul_le_self (N + b - 1) b
  omega

theorem ceil_mul_sub_lt (hb : 0 < b) : (N + b - 1) / b * b - N < b := by
  have : (N + b - 1) / b * b < N + b := ceil_mul_lt hb
  omega

theorem mul_div_eq_div {a r : Nat} (hb : 0 < b) (lo : N ≤ r * b) (err : a * (r * b - N) < N) :
    a * r / N = a / b := by
  apply Nat.div_eq_of_lt_le
  · calc a / b * N ≤ a / b * (r * b) := Nat.mul_le_mul_left _ lo
      _ = a / b * b * r := by ring
      _ ≤ a * r := Nat.mul_le_mul_right _ (Nat.div_mul_le_self a b)
  · -- multiplied through by `b`, the error adds less than `N` to `a * N`
    have split : b * (a * r) = a * N + a * (r * b - N) := by
      rw [← Nat.mul_add, Nat.add_sub_cancel' lo]
      ring
    have succ : a + 1 ≤ b * (a / b + 1) := Nat.lt_mul_div_succ a hb
    apply Nat.lt_of_mul_lt_mul_left
    calc b * (a * r) = a * N + a * (r * b - N) := split
      _ < a * N + N := Nat.add_lt_add_left err _
      _ = (a + 1) * N := by ring
      _ ≤ b * (a / b + 1) * N := Nat.mul_le_mul_right _ succ
      _ = b * ((a / b + 1) * N) := by ring

theorem mul_ceil_div_eq_div {a : Nat} (hb : 0 < b) (small : a * (b - 1) < N) :
    a * ((N + b - 1) / b) / N = a / b := by
  apply mul_div_eq_div hb (le_ceil_mul hb)
  have err : (N + b - 1) / b * b - N ≤ b - 1 := by
    have : (N + b - 1) / b * b - N < b := ceil_mul_sub_lt hb
    omega
  exact lt_of_le_of_lt (Nat.mul_le_mul_left a err) small

theorem div_le_mul_div {a r : Nat} (hN : 0 < N) (lo : N ≤ r * b) : a / b ≤ a * r / N := by
  rw [Nat.le_div_iff_mul_le hN]
  calc a / b * N ≤ a / b * (r * b) := Nat.mul_le_mul_left _ lo
    _ = a / b * b * r := by ring
    _ ≤ a * r := Nat.mul_le_mul_right _ (Nat.div_mul_le_self a b)

theorem mul_div_le_div_succ {a r : Nat} (hb : 0 < b) (hi : r * b < N + b) (small : a < N) :
    a * r / N ≤ a / b + 1 := by
  have hN : 0 < N := lt_of_le_of_lt (Nat.zero_le a) small
  have succ : a + 1 ≤ b * (a / b + 1) := Nat.lt_mul_div_succ a hb
  have spread : a * b < b * N := by
    rw [Nat.mul_comm]
    exact Nat.mul_lt_mul_of_pos_left small hb
  -- multiplied through by `b`, `a * r` is below `a * N + a * b`, and `a * b` below `b * N`
  have bound : a * r < (a / b + 2) * N := by
    apply Nat.lt_of_mul_lt_mul_left (a := b)
    calc b * (a * r) = a * (r * b) := by ring
      _ ≤ a * (N + b - 1) := Nat.mul_le_mul_left a (by omega)
      _ ≤ a * N + a * b := by
          rw [← Nat.mul_add]
          exact Nat.mul_le_mul_left a (by omega)
      _ < a * N + b * N := Nat.add_lt_add_left spread _
      _ ≤ (a + 1) * N + b * N := by rw [Nat.succ_mul]; omega
      _ ≤ b * (a / b + 1) * N + b * N := Nat.add_le_add_right (Nat.mul_le_mul_right _ succ) _
      _ = b * ((a / b + 2) * N) := by ring
  have := (Nat.div_lt_iff_lt_mul hN).mpr bound
  omega

/-! ## A rounded-up quotient by multiply, add and shift

`⌈a * n / d⌉` computed as `(M * a + A) / N`, with the multiplier `M` the quotient `n / d` at the
scale `N` rounded up and the addend `A = ⌊(d - 1) * N / d⌋` just short of one unit. -/

section Ceil

variable {n d M a : Nat}

theorem ceil_le_mul_add_div (hN : 0 < N) (hd : 0 < d) (lo : n * N ≤ M * d) :
    (a * n + d - 1) / d ≤ (M * a + (d - 1) * N / d) / N := by
  set c := (a * n + d - 1) / d
  set A := (d - 1) * N / d
  have ceil : c * d ≤ a * n + d - 1 := Nat.div_mul_le_self _ d
  have adj : (d - 1) * N < d * (A + 1) := Nat.lt_mul_div_succ _ hd
  -- multiplied through by `d`, `c * N` stays below the sum plus one
  have key : d * (c * N) < d * (M * a + A + 1) :=
    calc d * (c * N) = c * d * N := by ring
      _ ≤ (a * n + d - 1) * N := Nat.mul_le_mul_right N ceil
      _ = a * (n * N) + (d - 1) * N := by rw [Nat.add_sub_assoc hd]; ring
      _ ≤ a * (M * d) + (d - 1) * N := Nat.add_le_add_right (Nat.mul_le_mul_left a lo) _
      _ < a * (M * d) + d * (A + 1) := Nat.add_lt_add_left adj _
      _ = d * (M * a + A + 1) := by ring
  rw [Nat.le_div_iff_mul_le hN]
  exact Nat.lt_succ_iff.mp (Nat.lt_of_mul_lt_mul_left key)

theorem mul_add_div_le_ceil_succ (hd : 0 < d) (hi : M * d < n * N + d) (small : a < N) :
    (M * a + (d - 1) * N / d) / N ≤ (a * n + d - 1) / d + 1 := by
  have hN : 0 < N := lt_of_le_of_lt (Nat.zero_le a) small
  set c := (a * n + d - 1) / d
  set A := (d - 1) * N / d
  have ceil : a * n ≤ c * d := le_ceil_mul hd
  have adj : d * A ≤ (d - 1) * N := Nat.mul_div_le _ d
  have mul : M * d ≤ n * N + (d - 1) := by omega
  -- the multiplier's error and the addend together stay below two units of the scale
  have spare : a * (d - 1) + (d - 1) * N < 2 * d * N :=
    calc a * (d - 1) + (d - 1) * N ≤ N * (d - 1) + (d - 1) * N :=
          Nat.add_le_add_right (Nat.mul_le_mul_right _ small.le) _
      _ = 2 * (d - 1) * N := by ring
      _ < 2 * d * N := Nat.mul_lt_mul_of_pos_right (by omega) hN
  have key : d * (M * a + A) < d * ((c + 2) * N) :=
    calc d * (M * a + A) = a * (M * d) + d * A := by ring
      _ ≤ a * (n * N + (d - 1)) + (d - 1) * N := Nat.add_le_add (Nat.mul_le_mul_left a mul) adj
      _ = a * n * N + (a * (d - 1) + (d - 1) * N) := by ring
      _ ≤ c * d * N + (a * (d - 1) + (d - 1) * N) := Nat.add_le_add_right (Nat.mul_le_mul_right N ceil) _
      _ < c * d * N + 2 * d * N := Nat.add_lt_add_left spare _
      _ = d * ((c + 2) * N) := by ring
  have := (Nat.div_lt_iff_lt_mul hN).mpr (Nat.lt_of_mul_lt_mul_left key)
  omega

end Ceil

end Reciprocal
