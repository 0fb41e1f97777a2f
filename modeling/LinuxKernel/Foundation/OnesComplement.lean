import Mathlib

/-!
# Ones' complement sums

The Internet checksum adds 16-bit words with end-around carry: a carry out of the top
bit comes back in at the bottom. Since `2^16 ≡ 1 [MOD 0xffff]`, that is addition modulo
`0xffff`, and every fold, byte swap and wider accumulator an implementation uses is
correct exactly when it keeps the class of the sum modulo `0xffff`.

Bytes in memory are read in either byte order; `wsum a b` weighs them alternately by
`a` and `b`, which is what a sum of 16-bit loads comes to.
-/

namespace OnesComplement

/-- Byte order of the machine, which fixes the value of a multi-byte load. -/
inductive Endian
  | little
  | big
  deriving DecidableEq, Repr

/-- The weight of the first byte of a 16-bit load. -/
def Endian.w0 : Endian → Nat
  | .little => 1
  | .big => 256

/-- The weight of the second byte of a 16-bit load. -/
def Endian.w1 : Endian → Nat
  | .little => 256
  | .big => 1

/-- The value of a 16-bit load of the bytes `b0 b1`, in memory order. -/
def Endian.load16 (e : Endian) (b0 b1 : UInt8) : Nat := e.w0 * b0.toNat + e.w1 * b1.toNat

/-- The value of a 32-bit load of the bytes `b0 b1 b2 b3`, in memory order. -/
def Endian.load32 : Endian → UInt8 → UInt8 → UInt8 → UInt8 → Nat
  | .little, b0, b1, b2, b3 => b0.toNat + 2 ^ 8 * b1.toNat + 2 ^ 16 * b2.toNat + 2 ^ 24 * b3.toNat
  | .big, b0, b1, b2, b3 => 2 ^ 24 * b0.toNat + 2 ^ 16 * b1.toNat + 2 ^ 8 * b2.toNat + b3.toNat

/-- The bytes a 32-bit store of `x` leaves in memory. -/
def Endian.store32 : Endian → UInt32 → List UInt8
  | .little, x => [x.toUInt8, (x >>> 8).toUInt8, (x >>> 16).toUInt8, (x >>> 24).toUInt8]
  | .big, x => [(x >>> 24).toUInt8, (x >>> 16).toUInt8, (x >>> 8).toUInt8, x.toUInt8]

def netBytes16 (v : UInt16) : List UInt8 := [(v >>> 8).toUInt8, v.toUInt8]

/-- The sum of `bytes` read as 16-bit words in memory order, a last odd byte padded with
a zero byte (RFC 1071). Its class modulo `0xffff` is the ones' complement sum. -/
def sum16 (e : Endian) : List UInt8 → Nat
  | b0 :: b1 :: l => e.load16 b0 b1 + sum16 e l
  | [b0] => e.load16 b0 0
  | [] => 0

/-- Bytes weighted alternately by `a` and `b`, starting with `a`. -/
def wsum (a b : Nat) : List UInt8 → Nat
  | [] => 0
  | x :: l => a * x.toNat + wsum b a l

/-- One fold of a sum to 16 bits and a carry: `(x & 0xffff) + (x >> 16)`. -/
def fold (x : Nat) : Nat := x % 2 ^ 16 + x / 2 ^ 16

/-- The 16-bit ones' complement sum of class `x`: end-around carry never produces `0`
from a non-zero sum, so the value lies in `1 .. 0xffff` unless `x = 0`. -/
def reduce (x : Nat) : Nat := if x = 0 then 0 else (x - 1) % 0xffff + 1

def swap16 (x : Nat) : Nat := x / 2 ^ 8 % 2 ^ 8 + x % 2 ^ 8 * 2 ^ 8

/-! ### Weighted byte sums -/

@[simp] theorem wsum_nil (a b : Nat) : wsum a b [] = 0 := rfl

@[simp] theorem wsum_cons (a b : Nat) (x : UInt8) (l : List UInt8) :
    wsum a b (x :: l) = a * x.toNat + wsum b a l := rfl

theorem sum16_eq_wsum (e : Endian) (l : List UInt8) : sum16 e l = wsum e.w0 e.w1 l := by
  fun_induction sum16 e l with
  | case1 b0 b1 l ih => simp [Endian.load16, ih]; omega
  | case2 b0 => simp [Endian.load16]
  | case3 => rfl

theorem wsum_append (a b : Nat) (l₁ l₂ : List UInt8) :
    wsum a b (l₁ ++ l₂) = wsum a b l₁ + if l₁.length % 2 = 0 then wsum a b l₂ else wsum b a l₂ := by
  induction l₁ generalizing a b with
  | nil => simp
  | cons x l ih =>
    rw [List.cons_append, wsum_cons, wsum_cons, ih, List.length_cons]
    by_cases h : l.length % 2 = 0
    · have h' : ¬(l.length + 1) % 2 = 0 := by omega
      simp only [h, h', if_true, if_false]; omega
    · have h' : (l.length + 1) % 2 = 0 := by omega
      simp only [h, h', if_true, if_false]; omega

theorem wsum_take_add (a b : Nat) (l : List UInt8) {m : Nat} (hm : m % 2 = 0) (n : Nat) :
    wsum a b (l.take (m + n)) = wsum a b (l.take m) + wsum a b ((l.drop m).take n) := by
  rw [List.take_add, wsum_append]
  by_cases hl : m ≤ l.length
  · have : (l.take m).length % 2 = 0 := by rw [List.length_take, Nat.min_eq_left hl]; exact hm
    rw [if_pos this]
  · have : l.drop m = [] := List.drop_eq_nil_of_le (by omega)
    simp [this]

theorem sum16_append (e : Endian) {l₁ : List UInt8} (h : l₁.length % 2 = 0) (l₂ : List UInt8) :
    sum16 e (l₁ ++ l₂) = sum16 e l₁ + sum16 e l₂ := by
  rw [sum16_eq_wsum, sum16_eq_wsum, sum16_eq_wsum, wsum_append, if_pos h]

theorem mul_wsum (c a b : Nat) (l : List UInt8) : c * wsum a b l = wsum (c * a) (c * b) l := by
  induction l generalizing a b with
  | nil => simp
  | cons x l ih => rw [wsum_cons, wsum_cons, Nat.mul_add, ih, Nat.mul_assoc]

theorem wsum_modEq {n a a' b b' : Nat} (ha : a ≡ a' [MOD n]) (hb : b ≡ b' [MOD n])
    (l : List UInt8) : wsum a b l ≡ wsum a' b' l [MOD n] := by
  induction l generalizing a a' b b' with
  | nil => rfl
  | cons x l ih => exact (ha.mul_right _).add (ih hb ha)

/-! ### Congruences modulo `0xffff` -/

theorem two_pow_32_modEq : 2 ^ 32 ≡ 1 [MOD 0xffff] := rfl

theorem fold_modEq (x : Nat) : fold x ≡ x [MOD 0xffff] := by
  unfold fold Nat.ModEq; omega

theorem fold_lt {x : Nat} (h : x < 2 ^ 32) : fold x < 2 ^ 17 := by
  unfold fold; omega

theorem fold_fold {x : Nat} (h : x < 2 ^ 32) : fold (fold x) = reduce x := by
  unfold fold reduce; split <;> omega

theorem reduce_modEq (x : Nat) : reduce x ≡ x [MOD 0xffff] := by
  unfold reduce Nat.ModEq; split <;> omega

theorem reduce_le (x : Nat) : reduce x ≤ 0xffff := by
  unfold reduce; split <;> omega

theorem reduce_eq_of_modEq {x y : Nat} (h : x ≡ y [MOD 0xffff]) (hz : x = 0 ↔ y = 0) :
    reduce x = reduce y := by
  unfold Nat.ModEq at h
  unfold reduce; split <;> split <;> omega

theorem swap16_modEq {x : Nat} (h : x < 2 ^ 16) : swap16 x ≡ 2 ^ 8 * x [MOD 0xffff] := by
  unfold swap16 Nat.ModEq
  have hx : 2 ^ 8 * x = 0xffff * (x / 2 ^ 8) + (x / 2 ^ 8 % 2 ^ 8 + x % 2 ^ 8 * 2 ^ 8) := by omega
  rw [hx, Nat.mul_add_mod]

theorem swap16_lt (x : Nat) : swap16 x < 2 ^ 16 := by
  unfold swap16; omega

/-! ### Wrapped adds of 32-bit words -/

theorem UInt32.toNat_add_of_lt {a b : UInt32} (h : a.toNat + b.toNat < 2 ^ 32) :
    (a + b).toNat = a.toNat + b.toNat := by
  rw [UInt32.toNat_add, Nat.mod_eq_of_lt h]

theorem UInt32.not_add_le_self_iff {a b : UInt32} :
    ¬(a + b ≤ a) ↔ 0 < b.toNat ∧ a.toNat + b.toNat < 2 ^ 32 := by
  have ha := a.toNat_lt
  have hb := b.toNat_lt
  rw [UInt32.le_iff_toNat_le, UInt32.toNat_add]
  by_cases hlt : a.toNat + b.toNat < 2 ^ 32
  · rw [Nat.mod_eq_of_lt hlt]
    omega
  · have hmod : (a.toNat + b.toNat) % 2 ^ 32 = a.toNat + b.toNat - 2 ^ 32 := by
      rw [Nat.mod_eq_sub_mod (by omega), Nat.mod_eq_of_lt (by omega)]
    rw [hmod]
    omega

theorem mod_lt_iff_carry {N r w : Nat} (hr : r < N) (hw : w < N) :
    (r + w) % N < w ↔ N ≤ r + w := by
  constructor
  · intro h
    by_contra hlt
    rw [Nat.mod_eq_of_lt (by omega)] at h
    omega
  · intro h
    have : (r + w) % N = r + w - N := by
      rw [Nat.mod_eq_sub_mod h, Nat.mod_eq_of_lt (by omega)]
    omega

theorem UInt32.addc_modEq (a b : UInt32) :
    (if b > a + b then a + b + 1 else a + b).toNat ≡ a.toNat + b.toNat [MOD 0xffff] := by
  have ha := a.toNat_lt
  have hb := b.toNat_lt
  have hcarry := mod_lt_iff_carry ha hb
  have hsum : (a + b).toNat = (a.toNat + b.toNat) % 2 ^ 32 := UInt32.toNat_add a b
  split
  · -- the add wrapped: the lost 2^32 comes back as 1
    rename_i hgt
    rw [gt_iff_lt, UInt32.lt_iff_toNat_lt, hsum] at hgt
    have hge := hcarry.mp hgt
    have hwrap : (a + b).toNat = a.toNat + b.toNat - 2 ^ 32 := by
      rw [hsum, Nat.mod_eq_sub_mod hge, Nat.mod_eq_of_lt (by omega)]
    rw [UInt32.toNat_add_of_lt (by simp; omega), hwrap]
    unfold Nat.ModEq
    simp only [UInt32.toNat_one]
    omega
  · rename_i hle
    rw [gt_iff_lt, UInt32.lt_iff_toNat_lt, hsum] at hle
    have hlt : a.toNat + b.toNat < 2 ^ 32 := by
      by_contra hge
      exact hle (hcarry.mpr (by omega))
    rw [UInt32.toNat_add_of_lt hlt]

/-! ### Loads in either byte order -/

theorem Endian.w0_mul_modEq (e : Endian) : 2 ^ 8 * e.w0 ≡ e.w1 [MOD 0xffff] := by
  cases e <;> rfl

theorem Endian.w1_mul_modEq (e : Endian) : 2 ^ 8 * e.w1 ≡ e.w0 [MOD 0xffff] := by
  cases e <;> rfl

theorem Endian.load16_lt (e : Endian) (b0 b1 : UInt8) : e.load16 b0 b1 < 2 ^ 16 := by
  have := b0.toNat_lt; have := b1.toNat_lt
  cases e <;> simp only [load16, w0, w1] <;> omega

theorem Endian.load32_lt (e : Endian) (b0 b1 b2 b3 : UInt8) : e.load32 b0 b1 b2 b3 < 2 ^ 32 := by
  have := b0.toNat_lt; have := b1.toNat_lt; have := b2.toNat_lt; have := b3.toNat_lt
  cases e <;> simp only [load32] <;> omega

theorem Endian.load32_modEq (e : Endian) (b0 b1 b2 b3 : UInt8) :
    e.load32 b0 b1 b2 b3 ≡ wsum e.w0 e.w1 [b0, b1, b2, b3] [MOD 0xffff] := by
  unfold Nat.ModEq
  cases e <;> simp only [load32, wsum_cons, wsum_nil, w0, w1] <;> omega

/-- A buffer that starts one byte early: its first byte is the second half of a word, and
the rest is summed from the next address. Swapping the bytes of the sum (times `2^8`)
restores the weights of the whole buffer. -/
theorem Endian.swap_wsum_modEq (e : Endian) (x : UInt8) (l : List UInt8) :
    2 ^ 8 * (e.w1 * x.toNat + wsum e.w0 e.w1 l) ≡ wsum e.w0 e.w1 (x :: l) [MOD 0xffff] := by
  rw [Nat.mul_add, ← Nat.mul_assoc, mul_wsum, wsum_cons]
  exact ((e.w1_mul_modEq).mul_right _).add (wsum_modEq e.w0_mul_modEq e.w1_mul_modEq l)

@[simp] theorem Endian.length_store32 (e : Endian) (x : UInt32) : (e.store32 x).length = 4 := by
  cases e <;> rfl

theorem Endian.sum16_store32 (e : Endian) (x : UInt32) : sum16 e (e.store32 x) = fold x.toNat := by
  have := x.toNat_lt
  cases e <;> simp [store32, sum16, load16, w0, w1, fold, UInt32.toNat_shiftRight] <;> omega

theorem sum16_netBytes16 (e : Endian) (v : UInt16) :
    sum16 e (netBytes16 v) = e.w0 * (v.toNat / 2 ^ 8) + e.w1 * (v.toNat % 2 ^ 8) := by
  have := v.toNat_lt
  simp [netBytes16, sum16, Endian.load16, UInt16.toNat_shiftRight]
  omega

theorem sum16_netBytes16_modEq (e : Endian) (v : UInt16) :
    sum16 e (netBytes16 v) ≡ e.w1 * v.toNat [MOD 0xffff] := by
  rw [sum16_netBytes16]
  unfold Nat.ModEq
  cases e <;> simp only [Endian.w0, Endian.w1] <;> omega

end OnesComplement
