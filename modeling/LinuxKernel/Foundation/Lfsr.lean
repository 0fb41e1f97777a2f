import Mathlib

/-!
# Linear feedback shift registers

`stepRight` and `stepLeft` shift a `w`-bit register one place, folding the polynomial in when a
1 drops out. Both are linear in exclusive or, and `k` steps of a word are `k` steps of its low
(high) `k` bits and the word shifted `k` places (`iterate_stepRight_split`,
`iterate_stepLeft_split`): what every table-driven CRC rests on.
-/

namespace Lfsr

variable {w : Nat} (poly : BitVec w)

def stepRight (c : BitVec w) : BitVec w := (c >>> 1) ^^^ (if c.getLsbD 0 then poly else 0)

def stepLeft (c : BitVec w) : BitVec w := (c <<< 1) ^^^ (if c.getMsbD 0 then poly else 0)

/-- The value whose low `k` bits are set: the index mask of a table of `k`-bit values. -/
def lowMask (w k : Nat) : BitVec w := BitVec.ofNat w (2 ^ k - 1)

@[simp] theorem getLsbD_lowMask (k i : Nat) :
    (lowMask w k).getLsbD i = (decide (i < w) && decide (i < k)) := by
  simp [lowMask, BitVec.getLsbD_ofNat, Nat.testBit_two_pow_sub_one]

theorem ite_xor_ite (x y : Bool) :
    (if (x ^^ y) then poly else 0) = (if x then poly else 0) ^^^ (if y then poly else 0) := by
  cases x <;> cases y <;> simp

theorem stepRight_xor (a b : BitVec w) :
    stepRight poly (a ^^^ b) = stepRight poly a ^^^ stepRight poly b := by
  simp only [stepRight, BitVec.getLsbD_xor, BitVec.ushiftRight_xor_distrib, ite_xor_ite]
  apply BitVec.eq_of_getLsbD_eq
  intro i _
  simp only [BitVec.getLsbD_xor]
  cases (a >>> 1).getLsbD i <;> cases (b >>> 1).getLsbD i <;>
    cases (if a.getLsbD 0 = true then poly else 0).getLsbD i <;>
    cases (if b.getLsbD 0 = true then poly else 0).getLsbD i <;> rfl

theorem stepLeft_xor (a b : BitVec w) :
    stepLeft poly (a ^^^ b) = stepLeft poly a ^^^ stepLeft poly b := by
  simp only [stepLeft, BitVec.getMsbD_xor, BitVec.shiftLeft_xor_distrib, ite_xor_ite]
  apply BitVec.eq_of_getLsbD_eq
  intro i _
  simp only [BitVec.getLsbD_xor]
  cases (a <<< 1).getLsbD i <;> cases (b <<< 1).getLsbD i <;>
    cases (if a.getMsbD 0 = true then poly else 0).getLsbD i <;>
    cases (if b.getMsbD 0 = true then poly else 0).getLsbD i <;> rfl

@[simp] theorem stepRight_zero : stepRight poly 0 = 0 := by
  simp [stepRight]

@[simp] theorem stepLeft_zero : stepLeft poly 0 = 0 := by
  simp [stepLeft]

/-! ### Iterates -/

theorem iterate_xor {f : BitVec w → BitVec w} (linear : ∀ a b, f (a ^^^ b) = f a ^^^ f b)
    (k : Nat) (a b : BitVec w) : f^[k] (a ^^^ b) = f^[k] a ^^^ f^[k] b := by
  induction k with
  | zero => rfl
  | succ k ih => rw [Function.iterate_succ_apply', Function.iterate_succ_apply',
      Function.iterate_succ_apply', ih, linear]

theorem iterate_stepRight_xor (k : Nat) (a b : BitVec w) :
    (stepRight poly)^[k] (a ^^^ b) = (stepRight poly)^[k] a ^^^ (stepRight poly)^[k] b :=
  iterate_xor (stepRight_xor poly) k a b

theorem iterate_stepLeft_xor (k : Nat) (a b : BitVec w) :
    (stepLeft poly)^[k] (a ^^^ b) = (stepLeft poly)^[k] a ^^^ (stepLeft poly)^[k] b :=
  iterate_xor (stepLeft_xor poly) k a b

@[simp] theorem iterate_stepRight_zero (k : Nat) : (stepRight poly)^[k] 0 = 0 :=
  Function.iterate_fixed (stepRight_zero poly) k

@[simp] theorem iterate_stepLeft_zero (k : Nat) : (stepLeft poly)^[k] 0 = 0 :=
  Function.iterate_fixed (stepLeft_zero poly) k

theorem iterate_stepRight_of_low_clear (k : Nat) (c : BitVec w)
    (clear : ∀ i < k, c.getLsbD i = false) : (stepRight poly)^[k] c = c >>> k := by
  induction k with
  | zero => simp
  | succ k ih =>
    rw [Function.iterate_succ_apply', ih (fun i hi => clear i (by omega))]
    have low : (c >>> k).getLsbD 0 = false := by
      simpa [BitVec.getLsbD_ushiftRight] using clear k (by omega)
    simp [stepRight, low, BitVec.shiftRight_add]

theorem iterate_stepLeft_of_high_clear (k : Nat) (c : BitVec w)
    (clear : ∀ i < k, c.getMsbD i = false) : (stepLeft poly)^[k] c = c <<< k := by
  induction k with
  | zero => simp
  | succ k ih =>
    rw [Function.iterate_succ_apply', ih (fun i hi => clear i (by omega))]
    have top : (c <<< k).getMsbD 0 = false := by
      simpa [BitVec.getMsbD_shiftLeft] using clear k (by omega)
    simp [stepLeft, top, BitVec.shiftLeft_add]

theorem iterate_stepRight_split (k : Nat) (c : BitVec w) :
    (stepRight poly)^[k] c = (stepRight poly)^[k] (c &&& lowMask w k) ^^^ (c >>> k) := by
  have parts : c = (c &&& lowMask w k) ^^^ (c &&& ~~~lowMask w k) := by
    apply BitVec.eq_of_getLsbD_eq
    intro i hi
    simp only [BitVec.getLsbD_xor, BitVec.getLsbD_and, BitVec.getLsbD_not, getLsbD_lowMask]
    cases c.getLsbD i <;> by_cases below : i < k <;> simp [below, hi]
  have high : (stepRight poly)^[k] (c &&& ~~~lowMask w k) = c >>> k := by
    rw [iterate_stepRight_of_low_clear poly k _ (fun i hi => by
      simp only [BitVec.getLsbD_and, BitVec.getLsbD_not, getLsbD_lowMask]; simp [hi])]
    apply BitVec.eq_of_getLsbD_eq
    intro i _
    simp only [BitVec.getLsbD_ushiftRight, BitVec.getLsbD_and, BitVec.getLsbD_not,
      getLsbD_lowMask]
    by_cases inside : k + i < w
    · simp [inside]
    · simp [inside, BitVec.getLsbD_of_ge c (k + i) (by omega)]
  conv => lhs; rw [parts]
  rw [iterate_stepRight_xor, high]

theorem iterate_stepLeft_split (k : Nat) (k_le : k ≤ w) (c : BitVec w) :
    (stepLeft poly)^[k] c = (stepLeft poly)^[k] ((c >>> (w - k)) <<< (w - k)) ^^^ (c <<< k) := by
  have parts : c = ((c >>> (w - k)) <<< (w - k)) ^^^ (c &&& lowMask w (w - k)) := by
    apply BitVec.eq_of_getLsbD_eq
    intro i hi
    simp only [BitVec.getLsbD_xor, BitVec.getLsbD_and, BitVec.getLsbD_shiftLeft,
      BitVec.getLsbD_ushiftRight, getLsbD_lowMask]
    by_cases below : i < w - k
    · simp [below, hi]
    · have back : w - k + (i - (w - k)) = i := by omega
      simp [below, hi, back]
  have low : (stepLeft poly)^[k] (c &&& lowMask w (w - k)) = c <<< k := by
    rw [iterate_stepLeft_of_high_clear poly k _ (fun i hi => by
      simp only [BitVec.getMsbD_eq_getLsbD, BitVec.getLsbD_and, getLsbD_lowMask]
      by_cases inside : i < w
      · simp [inside]; omega
      · simp [inside])]
    apply BitVec.eq_of_getLsbD_eq
    intro i hi
    simp only [BitVec.getLsbD_shiftLeft, BitVec.getLsbD_and, getLsbD_lowMask]
    by_cases above : i < k
    · simp [above]
    · have : i - k < w - k := by omega
      simp [above, hi, this]
      omega
  conv => lhs; rw [parts]
  rw [iterate_stepLeft_xor, low]

end Lfsr
