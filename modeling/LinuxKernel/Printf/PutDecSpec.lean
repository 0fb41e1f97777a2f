import LinuxKernel.Printf.Vsprintf
import LinuxKernel.Foundation.Decimal
import LinuxKernel.Foundation.Reciprocal

/-!
# `put_dec` writes the decimal digits

Each quotient by ten is an exact multiply and shift (`Reciprocal.mul_div_eq_div`, `DivChain`),
so both `put_dec` algorithms write `decimalLE n` (`putDecGroups_text`) and `num_to_str` writes
`toString n` whenever it fits.
-/

namespace LinuxKernel.Vsprintf

open Decimal

/-! ## Quotients by ten -/

/-- `div` divides by ten every input below `b`. -/
def DivExact (div : UInt32 → UInt32) (b : Nat) : Prop :=
  ∀ x : UInt32, x.toNat < b → (div x).toNat = x.toNat / 10

/-- Each quotient of a straight-line body is exact on the inputs that reach it: the first on
inputs below `10 ^ (length + 1)`, each later one on a tenth of that. -/
def DivChain : List (UInt32 → UInt32) → Prop
  | [] => True
  | div :: qs => DivExact div (10 ^ (qs.length + 2)) ∧ DivChain qs

theorem DivExact.mono {div : UInt32 → UInt32} {b b' : Nat} (exact : DivExact div b)
    (le : b' ≤ b) : DivExact div b' :=
  fun x lt => exact x (lt_of_lt_of_le lt le)

theorem div10Wide_exact : DivExact div10Wide (2 ^ 30) := by
  intro x lt
  have prod : x.toNat * 429496730 < 2 ^ 64 := by omega
  have quot : x.toNat * 429496730 / 2 ^ 32 = x.toNat / 10 :=
    Reciprocal.mul_div_eq_div (by decide) (by decide) (by omega)
  unfold div10Wide
  simp only [UInt64.toNat_toUInt32, UInt64.toNat_shiftRight, UInt64.toNat_mul,
    UInt32.toNat_toUInt64]
  show (x.toNat * 429496730 % 2 ^ 64) >>> (32 % 64) % 2 ^ 32 = _
  rw [Nat.mod_eq_of_lt prod, Nat.shiftRight_eq_div_pow, show (32 : Nat) % 64 = 32 from rfl, quot,
    Nat.mod_eq_of_lt (by omega)]

theorem div10Narrow_exact {m s : UInt32} {b : Nat} (hs : s.toNat < 32)
    (fits : b * m.toNat ≤ 2 ^ 32) (lo : 2 ^ s.toNat ≤ m.toNat * 10)
    (err : b * (m.toNat * 10 - 2 ^ s.toNat) ≤ 2 ^ s.toNat) : DivExact (div10Narrow m s) b := by
  intro x lt
  have mpos : 0 < m.toNat := by
    have := Nat.two_pow_pos s.toNat
    omega
  have prod : x.toNat * m.toNat < 2 ^ 32 :=
    lt_of_lt_of_le (Nat.mul_lt_mul_of_pos_right lt mpos) fits
  have small : x.toNat * (m.toNat * 10 - 2 ^ s.toNat) < 2 ^ s.toNat := by
    rcases Nat.eq_zero_or_pos (m.toNat * 10 - 2 ^ s.toNat) with exact | pos
    · rw [exact, Nat.mul_zero]
      exact Nat.two_pow_pos _
    · exact lt_of_lt_of_le (Nat.mul_lt_mul_of_pos_right lt pos) err
  unfold div10Narrow
  simp only [UInt32.toNat_shiftRight, UInt32.toNat_mul, Nat.mod_eq_of_lt prod,
    Nat.mod_eq_of_lt hs, Nat.shiftRight_eq_div_pow]
  exact Reciprocal.mul_div_eq_div (by decide) lo small

theorem decDigit_eq {x q : UInt32} (quot : q.toNat = x.toNat / 10) :
    decDigit x q = digitByte (x.toNat % 10) := by
  have split := Nat.div_add_mod x.toNat 10
  have bound := x.toNat_lt
  have tenq : (10 * q).toNat = 10 * q.toNat := by
    rw [UInt32.toNat_mul]
    simp
    omega
  have le : 10 * q ≤ x := by
    rw [UInt32.le_iff_toNat_le, tenq]
    omega
  apply UInt8.toNat_inj.mp
  unfold decDigit digitByte
  rw [UInt32.toNat_toUInt8, UInt32.toNat_add, UInt32.toNat_sub_of_le _ _ le, tenq]
  simp
  omega

theorem lastDigit_eq (x : UInt32) : (x + 48).toUInt8 = digitByte x.toNat := by
  apply UInt8.toNat_inj.mp
  unfold digitByte
  rw [UInt32.toNat_toUInt8, UInt32.toNat_add]
  simp

/-! ## The straight-line bodies -/

theorem decSteps_padded :
    ∀ (qs : List (UInt32 → UInt32)) (x : UInt32), DivChain qs → x.toNat < 10 ^ (qs.length + 1) →
      decSteps false qs x = decPadded x.toNat (qs.length + 1)
  | [], x, _, lt => by
    rw [decSteps, List.length_nil, Nat.zero_add, decPadded, decPadded,
      lastDigit_eq x, Nat.mod_eq_of_lt (by simpa using lt)]
  | div :: qs, x, ⟨exact, chain⟩, lt => by
    have quot := exact x (by simpa using lt)
    have next : (div x).toNat < 10 ^ (qs.length + 1) := by
      rw [quot]
      rw [List.length_cons, pow_succ] at lt
      omega
    rw [decSteps, decDigit_eq quot, if_neg (fun stop => Bool.false_ne_true stop.1),
      decSteps_padded qs (div x) chain next, quot, List.length_cons]
    rfl

theorem decSteps_text :
    ∀ (qs : List (UInt32 → UInt32)) (x : UInt32), DivChain qs → x.toNat < 10 ^ (qs.length + 1) →
      decSteps true qs x = decimalLE x.toNat
  | [], x, _, lt => by
    rw [decSteps, decimalLE_of_lt (by simpa using lt), lastDigit_eq x]
  | div :: qs, x, ⟨exact, chain⟩, lt => by
    have quot := exact x (by simpa using lt)
    rw [decSteps, decDigit_eq quot]
    by_cases last : div x = 0
    · -- a zero quotient returns: `x` is its own last digit
      have small : x.toNat < 10 := by
        have := congrArg UInt32.toNat last
        rw [quot] at this
        simp at this
        omega
      rw [if_pos ⟨rfl, last⟩, decimalLE_of_lt small, Nat.mod_eq_of_lt small]
    · have big : 10 ≤ x.toNat := by
        have : (div x).toNat ≠ 0 := fun zero => last (UInt32.toNat_inj.mp (by simpa using zero))
        omega
      have next : (div x).toNat < 10 ^ (qs.length + 1) := by
        rw [quot]
        rw [List.length_cons, pow_succ] at lt
        omega
      rw [if_neg (fun stop => last stop.2), decSteps_text qs (div x) chain next, quot,
        decimalLE_of_ge big]

theorem div10Narrow_199a_exact : DivExact (div10Narrow 0x199a 16) 16384 :=
  div10Narrow_exact (by decide) (by decide) (by decide) (by decide)

theorem div10Narrow_cd_exact : DivExact (div10Narrow 0xcd 11) 1024 :=
  div10Narrow_exact (by decide) (by decide) (by decide) (by decide)

theorem div10Narrow_cccd_exact : DivExact (div10Narrow 0xcccd 19) 65536 :=
  div10Narrow_exact (by decide) (by decide) (by decide) (by decide)

theorem putDecFull9_eq {q : UInt32} (lt : q.toNat < 10 ^ 9) : putDecFull9 q = decPadded q.toNat 9 := by
  have wide : ∀ b ≤ 10 ^ 9, DivExact div10Wide b := fun b le => div10Wide_exact.mono (by omega)
  have chain : DivChain [div10Wide, div10Wide, div10Wide, div10Wide, div10Wide,
      div10Narrow 0x199a 16, div10Narrow 0xcd 11, div10Narrow 0xcd 11] :=
    ⟨wide _ (by decide), wide _ (by decide), wide _ (by decide), wide _ (by decide),
      wide _ (by decide), div10Narrow_199a_exact.mono (by decide),
      div10Narrow_cd_exact.mono (by decide), div10Narrow_cd_exact.mono (by decide), trivial⟩
  exact decSteps_padded _ q chain lt

theorem putDecTrunc8_eq {r : UInt32} (lt : r.toNat < 10 ^ 8) : putDecTrunc8 r = decimalLE r.toNat := by
  have wide : ∀ b ≤ 10 ^ 9, DivExact div10Wide b := fun b le => div10Wide_exact.mono (by omega)
  have chain : DivChain [div10Wide, div10Wide, div10Wide, div10Wide,
      div10Narrow 0x199a 16, div10Narrow 0xcd 11, div10Narrow 0xcd 11] :=
    ⟨wide _ (by decide), wide _ (by decide), wide _ (by decide), wide _ (by decide),
      div10Narrow_199a_exact.mono (by decide), div10Narrow_cd_exact.mono (by decide),
      div10Narrow_cd_exact.mono (by decide), trivial⟩
  exact decSteps_text _ r chain lt

theorem putDecFull4_eq {q : UInt32} (lt : q.toNat < 10 ^ 4) : putDecFull4 q = decPadded q.toNat 4 := by
  have chain : DivChain [div10Narrow 0xcccd 19, div10Narrow 0x199a 16, div10Narrow 0xcd 11] :=
    ⟨div10Narrow_cccd_exact.mono (by decide), div10Narrow_199a_exact.mono (by decide),
      div10Narrow_cd_exact.mono (by decide), trivial⟩
  exact decSteps_padded _ q chain lt

/-! ## The generic `put_dec` -/

theorem putDecGroups_text (n : UInt64) :
    (putDecGroups n).2.toNat < 10 ^ 9 ∧ (0 < n.toNat → 0 < (putDecGroups n).2.toNat ∧
      decimalLE n.toNat = (putDecGroups n).1 ++ decimalLE (putDecGroups n).2.toNat) := by
  fun_induction putDecGroups n with
  | case1 n big r ih =>
    have big' : 10 ^ 9 ≤ n.toNat := by simpa using UInt64.le_iff_toNat_le.mp big
    have high : (n / 1000000000).toNat = n.toNat / 10 ^ 9 := by simp [UInt64.toNat_div]
    have low : (n % 1000000000).toUInt32.toNat = n.toNat % 10 ^ 9 := by
      simp [UInt64.toNat_mod, UInt64.toNat_toUInt32]
      omega
    obtain ⟨bound, text⟩ := ih
    rw [high] at text
    have pos : 0 < n.toNat / 10 ^ 9 := Nat.div_pos big' (by decide)
    obtain ⟨rpos, rtext⟩ := text pos
    refine ⟨bound, fun _ => ⟨rpos, ?_⟩⟩
    -- nine padded digits of the remainder, then the text of the quotient
    have split : n.toNat = n.toNat % 10 ^ 9 + 10 ^ 9 * (n.toNat / 10 ^ 9) := by omega
    dsimp only
    rw [putDecFull9_eq (by rw [low]; omega), low, List.append_assoc, ← rtext,
      ← decimalLE_split pos (Nat.mod_lt _ (by decide)), ← split]
  | case2 n small =>
    have small' : n.toNat < 10 ^ 9 := by
      simp only [ge_iff_le, UInt64.le_iff_toNat_le, not_le] at small
      simpa using small
    exact ⟨small', fun pos => ⟨pos, rfl⟩⟩

theorem toNat_toUInt32_of_lt {n : UInt64} (lt : n.toNat < 2 ^ 32) : n.toUInt32.toNat = n.toNat := by
  rw [UInt64.toNat_toUInt32, Nat.mod_eq_of_lt lt]

theorem putDec_eq (n : UInt64) : putDec n = decimalLE n.toNat := by
  unfold putDec
  split_ifs with big
  · have big' : 10 ^ 8 ≤ n.toNat := by simpa using UInt64.le_iff_toNat_le.mp big
    obtain ⟨bound, text⟩ := putDecGroups_text n
    have rest := (text (by omega)).2
    have fits := toNat_toUInt32_of_lt (lt_trans bound (by decide))
    dsimp only
    rw [rest]
    split_ifs with top
    · -- nine digits left, the first of them not zero
      have top' : 10 ^ 8 ≤ (putDecGroups n).2.toNat := by simpa using UInt64.le_iff_toNat_le.mp top
      rw [putDecFull9_eq (by rw [fits]; exact bound), fits, decPadded_eq_decimalLE top' bound]
    · have top' : (putDecGroups n).2.toNat < 10 ^ 8 := by
        simp only [ge_iff_le, UInt64.le_iff_toNat_le, not_le] at top
        simpa using top
      rw [putDecTrunc8_eq (by rw [fits]; exact top'), fits]
  · have small : n.toNat < 10 ^ 8 := by
      simp only [ge_iff_le, UInt64.le_iff_toNat_le, not_le] at big
      simpa using big
    rw [putDecTrunc8_eq (by rw [toNat_toUInt32_of_lt (by omega)]; exact small),
      toNat_toUInt32_of_lt (by omega)]

/-! ## The 32-bit `put_dec` -/

theorem putDec32_chunks (n : UInt64) :
    (n.toUInt32 &&& 0xffff).toNat = n.toNat % 2 ^ 16 ∧
      (n.toUInt32 >>> 16).toNat = n.toNat / 2 ^ 16 % 2 ^ 16 ∧
      ((n >>> 32).toUInt32 &&& 0xffff).toNat = n.toNat / 2 ^ 32 % 2 ^ 16 ∧
      ((n >>> 32).toUInt32 >>> 16).toNat = n.toNat / 2 ^ 48 := by
  have bound := n.toNat_lt
  have mask : ∀ x : Nat, x &&& 0xffff = x % 2 ^ 16 := fun x => Nat.and_two_pow_sub_one_eq_mod x 16
  refine ⟨?_, ?_, ?_, ?_⟩
  · simp [UInt32.toNat_and, UInt64.toNat_toUInt32, mask]
  · simp [UInt32.toNat_shiftRight, UInt64.toNat_toUInt32, Nat.shiftRight_eq_div_pow]
    omega
  · simp [UInt32.toNat_and, UInt64.toNat_toUInt32, UInt64.toNat_shiftRight, Nat.shiftRight_eq_div_pow, mask]
  · simp [UInt32.toNat_shiftRight, UInt64.toNat_toUInt32, UInt64.toNat_shiftRight, Nat.shiftRight_eq_div_pow]
    omega

theorem putDecFull4_mod (x : UInt32) : putDecFull4 (x % 10000) = decPadded (x.toNat % 10000) 4 := by
  have value : (x % 10000).toNat = x.toNat % 10000 := by simp [UInt32.toNat_mod]
  rw [putDecFull4_eq (by rw [value]; exact Nat.mod_lt _ (by decide)), value]

theorem putDecFull4_div {x : UInt32} (lt : x.toNat < 10 ^ 8) :
    putDecFull4 (x / 10000) = decPadded (x.toNat / 10000) 4 := by
  have value : (x / 10000).toNat = x.toNat / 10000 := by simp [UInt32.toNat_div]
  rw [putDecFull4_eq (by rw [value]; omega), value]

theorem putDecStripZeros_eq {n k : Nat} (pos : 0 < n) (lt : n < 10 ^ k) :
    putDecStripZeros (decPadded n k) = decimalLE n :=
  decPadded_dropZeros pos lt

/-- `n` in base 10000, from its 16-bit chunks `D0`..`D3` and the base-10000 digits of `2^16`
(6, 5536), `2^32` (42, 9496, 7296) and `2^48` (281, 4749, 7671, 656). -/
theorem putDec32_recombine (N : Nat) (lt : N < 2 ^ 64) :
    let D0 := N % 2 ^ 16
    let D1 := N / 2 ^ 16 % 2 ^ 16
    let D2 := N / 2 ^ 32 % 2 ^ 16
    let D3 := N / 2 ^ 48
    let Q := 656 * D3 + 7296 * D2 + 5536 * D1 + D0
    let E1 := Q / 10000 + 7671 * D3 + 9496 * D2 + 6 * D1
    let E2 := E1 / 10000 + 4749 * D3 + 42 * D2
    let E3 := E2 / 10000 + 281 * D3
    N = Q % 10000 + 10 ^ 4 * (E1 % 10000 + 10 ^ 4 * (E2 % 10000 + 10 ^ 4 * E3)) := by
  intro D0 D1 D2 D3 Q E1 E2 E3
  omega

theorem putDec32_eq (n : UInt64) : putDec32 n = decimalLE n.toNat := by
  have bound := n.toNat_lt
  unfold putDec32
  split_ifs with small
  · have small' : n.toNat < 10 ^ 8 := by simpa using UInt64.lt_iff_toNat_lt.mp small
    rw [putDecTrunc8_eq (by rw [toNat_toUInt32_of_lt (by omega)]; exact small'),
      toNat_toUInt32_of_lt (by omega)]
  · have big : 10 ^ 8 ≤ n.toNat := by
      simp only [UInt64.lt_iff_toNat_lt, not_lt] at small
      simpa using small
    obtain ⟨h0, h1, h2, h3⟩ := putDec32_chunks n
    dsimp only
    generalize n.toUInt32 &&& 0xffff = d0 at h0 ⊢
    generalize n.toUInt32 >>> 16 = d1 at h1 ⊢
    generalize (n >>> 32).toUInt32 &&& 0xffff = d2 at h2 ⊢
    generalize (n >>> 32).toUInt32 >>> 16 = d3 at h3 ⊢
    -- each sum fits in 32 bits, so the `uint32_t` arithmetic is exact
    have hq : (656 * d3 + 7296 * d2 + 5536 * d1 + d0).toNat =
        656 * d3.toNat + 7296 * d2.toNat + 5536 * d1.toNat + d0.toNat := by
      simp only [UInt32.toNat_add, UInt32.toNat_mul]
      simp
      omega
    generalize 656 * d3 + 7296 * d2 + 5536 * d1 + d0 = q at hq ⊢
    have he1 : (q / 10000 + 7671 * d3 + 9496 * d2 + 6 * d1).toNat =
        q.toNat / 10000 + 7671 * d3.toNat + 9496 * d2.toNat + 6 * d1.toNat := by
      simp only [UInt32.toNat_add, UInt32.toNat_mul, UInt32.toNat_div]
      simp
      omega
    generalize q / 10000 + 7671 * d3 + 9496 * d2 + 6 * d1 = e1 at he1 ⊢
    have he2 : (e1 / 10000 + 4749 * d3 + 42 * d2).toNat =
        e1.toNat / 10000 + 4749 * d3.toNat + 42 * d2.toNat := by
      simp only [UInt32.toNat_add, UInt32.toNat_mul, UInt32.toNat_div]
      simp
      omega
    generalize e1 / 10000 + 4749 * d3 + 42 * d2 = e2 at he2 ⊢
    have he3 : (e2 / 10000 + 281 * d3).toNat = e2.toNat / 10000 + 281 * d3.toNat := by
      simp only [UInt32.toNat_add, UInt32.toNat_mul, UInt32.toNat_div]
      simp
      omega
    generalize e2 / 10000 + 281 * d3 = e3 at he3 ⊢
    -- `n` in base 10000: the three groups and `e3` above them
    have groups : n.toNat = q.toNat % 10000 + 10 ^ 4 * (e1.toNat % 10000 +
        10 ^ 4 * (e2.toNat % 10000 + 10 ^ 4 * e3.toNat)) := by
      rw [he3, he2, he1, hq, h0, h1, h2, h3]
      exact putDec32_recombine n.toNat bound
    have top : e3.toNat < 10 ^ 8 := by omega
    simp only [putDecFull4_mod, putDecFull4_div top]
    have g0 : q.toNat % 10000 < 10 ^ 4 := Nat.mod_lt _ (by decide)
    have g1 : e1.toNat % 10000 < 10 ^ 4 := Nat.mod_lt _ (by decide)
    have g2 : e2.toNat % 10000 < 10 ^ 4 := Nat.mod_lt _ (by decide)
    have g3 : e3.toNat % 10000 < 10 ^ 4 := Nat.mod_lt _ (by decide)
    split_ifs with none high
    · -- twelve digits
      have zero : e3.toNat = 0 := by rw [none]; rfl
      rw [List.append_assoc, decPadded_append g1, decPadded_append g0,
        putDecStripZeros_eq (by omega) (by omega)]
      congr 1
      omega
    · -- sixteen digits
      have zero : e3.toNat / 10000 = 0 := by
        have := congrArg UInt32.toNat high
        simpa [UInt32.toNat_div] using this
      rw [List.append_assoc, List.append_assoc, decPadded_append g2, decPadded_append g1,
        decPadded_append g0, putDecStripZeros_eq (by omega) (by omega)]
      congr 1
      omega
    · -- twenty digits
      rw [List.append_assoc, List.append_assoc, List.append_assoc, decPadded_append g3,
        decPadded_append g2, decPadded_append g1, decPadded_append g0,
        putDecStripZeros_eq (by omega) (by omega)]
      congr 1
      omega

/-! ## `num_to_str` -/

theorem numToStr_tmp {put : UInt64 → List UInt8}
    (exact : ∀ n : UInt64, 9 < n → put n = decimalLE n.toNat) (num : UInt64) :
    (if num ≤ 9 then [(num + 48).toUInt8] else put num) = decimalLE num.toNat := by
  split_ifs with small
  · have small' : num.toNat < 10 := by
      have := UInt64.le_iff_toNat_le.mp small
      simp at this
      omega
    rw [decimalLE_of_lt small']
    congr 1
    apply UInt8.toNat_inj.mp
    unfold digitByte
    rw [UInt64.toNat_toUInt8, UInt64.toNat_add]
    simp
  · exact exact num (by simpa using small)

theorem numToStr_eq {put : UInt64 → List UInt8}
    (exact : ∀ n : UInt64, 9 < n → put n = decimalLE n.toNat) (buf : Nat → UInt8) (size : Int)
    (num : UInt64) :
    numToStr put buf size num =
      if size < (decimalText num.toNat).length then (buf, 0)
      else (fun idx => if idx < (decimalText num.toNat).length then (decimalText num.toNat).getD idx 0
          else buf idx, ((decimalText num.toNat).length : Int)) := by
  have len : (decimalLE num.toNat).length = (decimalText num.toNat).length := List.length_reverse
  unfold numToStr
  simp only [numToStr_tmp exact num, len]
  split_ifs with tooLong
  · rfl
  · congr 1
    funext idx
    split_ifs with inside
    · rw [decimalLE, List.getD_reverse _ (by omega)]
      congr 1
      omega
    · rfl

theorem numToStr_exact :
    (∀ q : UInt32, q.toNat < 10 ^ 9 → putDecFull9 q = decPadded q.toNat 9) ∧
    (∀ r : UInt32, r.toNat < 10 ^ 8 → putDecTrunc8 r = decimalLE r.toNat) ∧
    (∀ n : UInt64, 10 ≤ n.toNat →
      putDec n = decimalLE n.toNat ∧ putDec32 n = decimalLE n.toNat ∧
        (decimalLE n.toNat).getLast? ≠ some (digitByte 0)) ∧
    (∀ put ∈ [putDec, putDec32], ∀ (buf : Nat → UInt8) (size : Int) (num : UInt64),
      ((decimalText num.toNat).length : Int) ≤ size →
        numToStr put buf size num =
          (fun idx => if idx < (decimalText num.toNat).length then (decimalText num.toNat).getD idx 0
            else buf idx, ((decimalText num.toNat).length : Int))) := by
  refine ⟨fun q lt => putDecFull9_eq lt, fun r lt => putDecTrunc8_eq lt, fun n big => ?_, ?_⟩
  · refine ⟨putDec_eq n, putDec32_eq n, ?_⟩
    rw [List.getLast?_eq_some_getLast (decimalLE_ne_nil _), Ne, Option.some_inj]
    exact decimalLE_getLast_ne_zero (by omega)
  · intro put mem buf size num fits
    have exact : ∀ n : UInt64, 9 < n → put n = decimalLE n.toNat := by
      intro n _
      rcases List.mem_pair.mp mem with rfl | rfl
      · exact putDec_eq n
      · exact putDec32_eq n
    rw [numToStr_eq exact, if_neg (not_lt.mpr fits)]

theorem numToStr_exact_max :
    10 ≤ (18446744073709551615 : UInt64).toNat ∧
      putDec32 18446744073709551615 = decimalLE (18446744073709551615 : UInt64).toNat :=
  ⟨by decide, (numToStr_exact.2.2.1 18446744073709551615 (by decide)).2.1⟩

end LinuxKernel.Vsprintf
