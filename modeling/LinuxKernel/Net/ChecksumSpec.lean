import Mathlib
import LinuxKernel.Net.Checksum

/-!
# The generic Internet checksum against RFC 1071

`doCsum_modEq`: at any alignment and in either byte order, `do_csum` keeps the class
modulo `0xffff` of the sum of the buffer's 16-bit words, so `csum_partial`, `csum_fold`,
`ip_compute_csum` and `ip_fast_csum` compute the ones' complement checksum.
`csumTcpudpNofold_modEq_iff`: `csum_tcpudp_nofold` folds its 64-bit sum once, and is right
exactly when that fold does not carry again.
-/

namespace LinuxKernel

open OnesComplement

/-! ### Loads and folds as numbers -/

theorem loadU16_lt (e : Endian) (buff : List UInt8) : (loadU16 e buff).toNat < 2 ^ 16 := by
  have := Endian.load16_lt e (buff.getD 0 0) (buff.getD 1 0)
  rw [loadU16, Nat.toUInt32_eq, UInt32.toNat_ofNat']
  omega

theorem loadU16_toNat (e : Endian) (buff : List UInt8) :
    (loadU16 e buff).toNat = wsum e.w0 e.w1 (buff.take 2) := by
  have h := Endian.load16_lt e (buff.getD 0 0) (buff.getD 1 0)
  rw [loadU16, Nat.toUInt32_eq, UInt32.toNat_ofNat', Nat.mod_eq_of_lt (by omega)]
  match buff with
  | [] => simp [Endian.load16]
  | [b0] => simp [Endian.load16]
  | b0 :: b1 :: _ => simp [Endian.load16]

theorem loadU32_modEq (e : Endian) {buff : List UInt8} (h : 4 ≤ buff.length) :
    (loadU32 e buff).toNat ≡ wsum e.w0 e.w1 (buff.take 4) [MOD 0xffff] := by
  match buff, h with
  | b0 :: b1 :: b2 :: b3 :: _, _ =>
    rw [loadU32, Nat.toUInt32_eq, UInt32.toNat_ofNat', Nat.mod_eq_of_lt (Endian.load32_lt e _ _ _ _)]
    exact Endian.load32_modEq e b0 b1 b2 b3

theorem fold_toNat (x : UInt32) : ((x &&& (0xffff : UInt32)) + (x >>> 16)).toNat = fold x.toNat := by
  have := x.toNat_lt
  rw [UInt32.toNat_add, UInt32.toNat_and, UInt32.toNat_shiftRight,
    show (0xffff : UInt32).toNat = 2 ^ 16 - 1 from rfl, Nat.and_two_pow_sub_one_eq_mod,
    Nat.shiftRight_eq_div_pow]
  unfold fold
  simp only [UInt32.reduceToNat, Nat.reduceMod]
  omega

theorem from32to16_toNat (x : UInt32) : (from32to16 x).toNat = reduce x.toNat := by
  simp only [from32to16, UInt32.toNat_toUInt16, fold_toNat, fold_fold x.toNat_lt]
  exact Nat.mod_eq_of_lt (by have := reduce_le x.toNat; omega)

theorem swap_toNat (x : UInt32) :
    (((x >>> 8) &&& (0xff : UInt32)) ||| ((x &&& 0xff) <<< 8)).toNat = swap16 x.toNat := by
  simp only [UInt32.toNat_or, UInt32.toNat_and, UInt32.toNat_shiftRight, UInt32.toNat_shiftLeft,
    show (0xff : UInt32).toNat = 2 ^ 8 - 1 from rfl, Nat.and_two_pow_sub_one_eq_mod,
    Nat.shiftRight_eq_div_pow, UInt32.reduceToNat, Nat.reduceMod]
  have hlo : ((x.toNat % 2 ^ 8) <<< 8) % 2 ^ 32 = (x.toNat % 2 ^ 8) <<< 8 := by
    rw [Nat.shiftLeft_eq]; omega
  rw [hlo, Nat.or_comm, ← Nat.shiftLeft_add_eq_or_of_lt (by omega), Nat.shiftLeft_eq]
  unfold swap16
  omega

/-! ### The word loop -/

theorem csumWord_step {result carry w : UInt32} (h : result.toNat + carry.toNat < 2 ^ 32) :
    let r := result + carry + w
    let c : UInt32 := if w > r then 1 else 0
    r.toNat + 2 ^ 32 * c.toNat = result.toNat + carry.toNat + w.toNat ∧
      r.toNat + c.toNat < 2 ^ 32 := by
  intro r c
  have hw := w.toNat_lt
  have hr : r.toNat = (result.toNat + carry.toNat + w.toNat) % 2 ^ 32 := by
    simp only [r, UInt32.toNat_add, Nat.mod_eq_of_lt h]
  have hcarry := mod_lt_iff_carry h hw
  by_cases hgt : w > r
  · -- the add wrapped: the carry out is worth 2^32
    have hc : c.toNat = 1 := by simp [c, hgt]
    rw [gt_iff_lt, UInt32.lt_iff_toNat_lt, hr] at hgt
    have hge := hcarry.mp hgt
    have : (result.toNat + carry.toNat + w.toNat) % 2 ^ 32 =
        result.toNat + carry.toNat + w.toNat - 2 ^ 32 := by
      rw [Nat.mod_eq_sub_mod hge, Nat.mod_eq_of_lt (by omega)]
    omega
  · have hc : c.toNat = 0 := by simp [c, hgt]
    rw [gt_iff_lt, UInt32.lt_iff_toNat_lt, hr] at hgt
    have hlt : result.toNat + carry.toNat + w.toNat < 2 ^ 32 := by
      by_contra hge
      exact hgt (hcarry.mpr (by omega))
    rw [Nat.mod_eq_of_lt hlt] at hr
    omega

theorem csumWords_modEq (e : Endian) (n : Nat) (result carry : UInt32) (buff : List UInt8)
    (hlen : 4 * n ≤ buff.length) (h : result.toNat + carry.toNat < 2 ^ 32) :
    (csumWords e n result carry buff).1.toNat + (csumWords e n result carry buff).2.toNat ≡
        result.toNat + carry.toNat + wsum e.w0 e.w1 (buff.take (4 * n)) [MOD 0xffff] ∧
      (csumWords e n result carry buff).1.toNat + (csumWords e n result carry buff).2.toNat <
        2 ^ 32 := by
  induction n generalizing result carry buff with
  | zero =>
    simp only [csumWords, Nat.mul_zero, List.take_zero, wsum_nil, Nat.add_zero]
    exact ⟨.refl _, h⟩
  | succ n ih =>
    obtain ⟨hstep, hbound⟩ := csumWord_step (w := loadU32 e buff) h
    obtain ⟨hrest, hlt⟩ := ih _ _ (buff.drop 4) (by simp; omega) hbound
    refine ⟨?_, hlt⟩
    have hw := loadU32_modEq e (by omega : 4 ≤ buff.length)
    have htake : wsum e.w0 e.w1 (buff.take (4 * (n + 1))) =
        wsum e.w0 e.w1 (buff.take 4) + wsum e.w0 e.w1 ((buff.drop 4).take (4 * n)) := by
      rw [show 4 * (n + 1) = 4 + 4 * n by omega, wsum_take_add _ _ _ (by rfl)]
    -- the carry out of this round is worth 1 in the next
    have hround := (Nat.ModEq.refl (result + carry + loadU32 e buff).toNat).add
      (two_pow_32_modEq.mul_right
        (if loadU32 e buff > result + carry + loadU32 e buff then (1 : UInt32) else 0).toNat)
    rw [one_mul, hstep] at hround
    simp only [csumWords]
    calc _ ≡ _ [MOD 0xffff] := hrest
      _ ≡ result.toNat + carry.toNat + (loadU32 e buff).toNat +
            wsum e.w0 e.w1 ((buff.drop 4).take (4 * n)) [MOD 0xffff] :=
          Nat.ModEq.add_right _ hround.symm
      _ ≡ result.toNat + carry.toNat + wsum e.w0 e.w1 (buff.take 4) +
            wsum e.w0 e.w1 ((buff.drop 4).take (4 * n)) [MOD 0xffff] :=
          Nat.ModEq.add_right _ (Nat.ModEq.add_left _ hw)
      _ = _ := by rw [htake, Nat.add_assoc]

theorem csumWordsFold_modEq (e : Endian) (result : UInt32) (len : Nat) (buff : List UInt8)
    (hlen : len ≤ buff.length) :
    (csumWordsFold e result len buff).toNat ≡
        result.toNat + wsum e.w0 e.w1 (buff.take (4 * (len / 4))) [MOD 0xffff] ∧
      (csumWordsFold e result len buff).toNat < 2 ^ 17 := by
  have h0 : result.toNat + (0 : UInt32).toNat < 2 ^ 32 := by simpa using result.toNat_lt
  obtain ⟨hmod, hlt⟩ := csumWords_modEq e (len / 4) result 0 buff (by omega) h0
  unfold csumWordsFold
  rcases hp : csumWords e (len / 4) result 0 buff with ⟨r, c⟩
  rw [hp] at hmod hlt
  dsimp only at hmod hlt ⊢
  rw [fold_toNat, UInt32.toNat_add_of_lt hlt]
  refine ⟨(fold_modEq _).trans ?_, fold_lt hlt⟩
  simpa using hmod

/-! ### The blocks of `do_csum` -/

theorem csumAlign4_spec {e : Endian} {addr len l : Nat} {result r : UInt32} {buff b : List UInt8}
    (h : csumAlign4 e addr result len buff = (r, l, b)) (h2 : 2 ≤ len) (hlen : len ≤ buff.length)
    (hr : result.toNat < 2 ^ 17) :
    r.toNat + wsum e.w0 e.w1 (b.take l) ≡ result.toNat + wsum e.w0 e.w1 (buff.take len) [MOD 0xffff] ∧
      r.toNat < 2 ^ 18 ∧ l ≤ b.length := by
  unfold csumAlign4 at h
  split at h
  · -- one word to the 4-byte boundary
    simp only [Prod.mk.injEq] at h
    obtain ⟨rfl, rfl, rfl⟩ := h
    have hw := loadU16_lt e buff
    refine ⟨?_, ?_, by simp; omega⟩
    · rw [UInt32.toNat_add_of_lt (by omega), loadU16_toNat, Nat.add_assoc,
        ← wsum_take_add (m := 2) _ _ _ rfl, Nat.add_sub_cancel' h2]
    · rw [UInt32.toNat_add_of_lt (by omega)]
      omega
  · simp only [Prod.mk.injEq] at h
    obtain ⟨rfl, rfl, rfl⟩ := h
    exact ⟨.refl _, by omega, hlen⟩

theorem csumBody4_spec {e : Endian} {len : Nat} {result r : UInt32} {buff b : List UInt8}
    (h : csumBody4 e result len buff = (r, b)) (hlen : len ≤ buff.length)
    (hr : result.toNat < 2 ^ 18) :
    r.toNat + wsum e.w0 e.w1 (b.take (len % 4)) ≡
        result.toNat + wsum e.w0 e.w1 (buff.take len) [MOD 0xffff] ∧
      r.toNat < 2 ^ 18 ∧ len % 4 ≤ b.length := by
  unfold csumBody4 at h
  split at h
  · simp only [Prod.mk.injEq] at h
    obtain ⟨rfl, rfl⟩ := h
    obtain ⟨hmod, hlt⟩ := csumWordsFold_modEq e result len buff hlen
    have hsplit := wsum_take_add e.w0 e.w1 buff (m := 4 * (len / 4)) (by omega) (len % 4)
    rw [Nat.div_add_mod] at hsplit
    refine ⟨?_, by omega, by simp; omega⟩
    calc _ ≡ result.toNat + wsum e.w0 e.w1 (buff.take (4 * (len / 4))) +
          wsum e.w0 e.w1 ((buff.drop (4 * (len / 4))).take (len % 4)) [MOD 0xffff] :=
        hmod.add_right _
      _ = _ := by rw [Nat.add_assoc, ← hsplit]
  · simp only [Prod.mk.injEq] at h
    obtain ⟨rfl, rfl⟩ := h
    rw [Nat.mod_eq_of_lt (by omega : len < 4)]
    exact ⟨.refl _, hr, hlen⟩

theorem csumTail2_spec {e : Endian} {len : Nat} {result r : UInt32} {buff b : List UInt8}
    (h : csumTail2 e result len buff = (r, b)) (hlen : len % 4 ≤ buff.length)
    (hr : result.toNat < 2 ^ 18) :
    r.toNat + wsum e.w0 e.w1 (b.take (len % 2)) ≡
        result.toNat + wsum e.w0 e.w1 (buff.take (len % 4)) [MOD 0xffff] ∧
      r.toNat < 2 ^ 19 ∧ len % 2 ≤ b.length := by
  unfold csumTail2 at h
  split at h
  · -- bit 1 of `len`: a 16-bit word before the last byte
    rename_i hbit
    have hbit : len / 2 % 2 = 1 := by simpa [Nat.testBit_eq_decide_div_mod_eq] using hbit
    simp only [Prod.mk.injEq] at h
    obtain ⟨rfl, rfl⟩ := h
    have hw := loadU16_lt e buff
    refine ⟨?_, ?_, by simp; omega⟩
    · rw [UInt32.toNat_add_of_lt (by omega), loadU16_toNat, Nat.add_assoc,
        ← wsum_take_add (m := 2) _ _ _ rfl, show 2 + len % 2 = len % 4 by omega]
    · rw [UInt32.toNat_add_of_lt (by omega)]
      omega
  · rename_i hbit
    have hbit : len / 2 % 2 = 0 := by simpa [Nat.testBit_eq_decide_div_mod_eq] using hbit
    simp only [Prod.mk.injEq] at h
    obtain ⟨rfl, rfl⟩ := h
    rw [show len % 4 = len % 2 by omega]
    exact ⟨.refl _, by omega, by omega⟩

theorem byte_shiftLeft_toNat (x : UInt8) : (x.toUInt32 <<< 8).toNat = 2 ^ 8 * x.toNat := by
  have := x.toNat_lt
  simp only [UInt32.toNat_shiftLeft, UInt8.toNat_toUInt32, UInt32.reduceToNat, Nat.reduceMod,
    Nat.shiftLeft_eq]
  omega

theorem csumLastByte_toNat (e : Endian) (x : UInt8) : (csumLastByte e x).toNat = e.w0 * x.toNat := by
  cases e
  · simp [csumLastByte, Endian.w0]
  · rw [csumLastByte, byte_shiftLeft_toNat]; rfl

theorem csumOddHead_toNat (e : Endian) (x : UInt8) : (csumOddHead e x).toNat = e.w1 * x.toNat := by
  cases e
  · rw [csumOddHead, byte_shiftLeft_toNat]; rfl
  · simp [csumOddHead, Endian.w1]

theorem csumTail1_modEq {e : Endian} {len : Nat} {result : UInt32} {buff : List UInt8}
    (hlen : len % 2 ≤ buff.length) (hr : result.toNat < 2 ^ 19) :
    (csumTail1 e result len buff).toNat ≡
      result.toNat + wsum e.w0 e.w1 (buff.take (len % 2)) [MOD 0xffff] := by
  unfold csumTail1
  split
  · -- the last byte is the first half of a word
    rename_i hbit
    have hbit : len % 2 = 1 := by simpa using hbit
    rw [hbit] at hlen ⊢
    match buff, hlen with
    | b0 :: _, _ =>
      have hb := csumLastByte_toNat e b0
      have : e.w0 * b0.toNat < 2 ^ 16 := by
        have := b0.toNat_lt; cases e <;> simp only [Endian.w0] <;> omega
      rw [List.getD_cons_zero, UInt32.toNat_add_of_lt (by omega), hb]
      simp only [List.take_succ_cons, List.take_zero, wsum_cons, wsum_nil, Nat.add_zero]
      rfl
  · rename_i hbit
    have hbit : len % 2 = 0 := by simpa using hbit
    simp only [hbit, List.take_zero, wsum_nil, Nat.add_zero]
    rfl

theorem csumAligned_modEq (e : Endian) (addr : Nat) (result : UInt32) (len : Nat)
    (buff : List UInt8) (hlen : len ≤ buff.length) (hr : result.toNat < 2 ^ 17) :
    (csumAligned e addr result len buff).toNat ≡
      result.toNat + wsum e.w0 e.w1 (buff.take len) [MOD 0xffff] := by
  unfold csumAligned
  by_cases h2 : 2 ≤ len
  · -- the alignment word, the 32-bit words, then the last word and byte
    rcases h1 : csumAlign4 e addr result len buff with ⟨r1, l1, b1⟩
    rcases h4 : csumBody4 e r1 l1 b1 with ⟨r2, b2⟩
    rcases h3 : csumTail2 e r2 l1 b2 with ⟨r3, b3⟩
    simp only [if_pos h2, h4, h3]
    obtain ⟨hm1, hr1, hl1⟩ := csumAlign4_spec h1 h2 hlen hr
    obtain ⟨hm4, hr4, hl4⟩ := csumBody4_spec h4 hl1 hr1
    obtain ⟨hm3, hr3, hl3⟩ := csumTail2_spec h3 hl4 hr4
    exact (csumTail1_modEq hl3 hr3).trans (hm3.trans (hm4.trans hm1))
  · simp only [if_neg h2]
    have := @csumTail1_modEq e len result buff (by omega) (by omega)
    rwa [Nat.mod_eq_of_lt (by omega : len < 2)] at this

/-! ### `do_csum` and its callers -/

theorem doCsum_lt (e : Endian) (addr : Nat) (buff : List UInt8) (len : Int) :
    (doCsum e addr buff len).toNat < 2 ^ 16 := by
  unfold doCsum
  split
  · simp
  · dsimp only
    split
    · rw [swap_toNat]
      exact swap16_lt _
    · rw [UInt16.toNat_toUInt32, from32to16_toNat]
      have := reduce_le (csumAligned e addr 0 len.toNat buff).toNat
      omega

theorem doCsum_modEq (e : Endian) (addr : Nat) (buff : List UInt8) :
    (doCsum e addr buff buff.length).toNat ≡ sum16 e buff [MOD 0xffff] := by
  rw [sum16_eq_wsum]
  unfold doCsum
  split
  · rename_i hle
    rw [List.eq_nil_of_length_eq_zero (by omega : buff.length = 0)]
    rfl
  · rename_i hpos
    obtain ⟨b0, rest, rfl⟩ := List.exists_cons_of_length_pos (by omega : 0 < buff.length)
    simp only [Int.toNat_natCast, List.length_cons, Nat.add_sub_cancel]
    split
    · -- odd: the rest from the next address, then a byte swap
      have hhead := csumOddHead_toNat e b0
      have hA := csumAligned_modEq e (addr + 1) (csumOddHead e b0) rest.length rest le_rfl
        (by rw [hhead]; have := b0.toNat_lt; cases e <;> simp only [Endian.w1] <;> omega)
      rw [List.take_length, hhead] at hA
      have hle := reduce_le (csumAligned e (addr + 1) (csumOddHead e b0) rest.length rest).toNat
      simp only [List.getD_cons_zero, List.drop_one, List.tail_cons]
      rw [swap_toNat, UInt16.toNat_toUInt32, from32to16_toNat]
      calc _ ≡ 2 ^ 8 * reduce _ [MOD 0xffff] := swap16_modEq (by omega)
        _ ≡ 2 ^ 8 * (e.w1 * b0.toNat + wsum e.w0 e.w1 rest) [MOD 0xffff] :=
            ((reduce_modEq _).trans hA).mul_left _
        _ ≡ _ [MOD 0xffff] := e.swap_wsum_modEq b0 rest
    · rw [UInt16.toNat_toUInt32, from32to16_toNat]
      have hA := csumAligned_modEq e addr 0 (b0 :: rest).length (b0 :: rest) le_rfl (by simp)
      rw [List.take_length] at hA
      simpa using (reduce_modEq _).trans hA

theorem csumPartial_modEq (e : Endian) (addr : Nat) (buff : List UInt8) (sum : UInt32) :
    (csumPartial e addr buff buff.length sum).toNat ≡ sum.toNat + sum16 e buff [MOD 0xffff] := by
  unfold csumPartial
  refine (UInt32.addc_modEq _ _).trans ?_
  rw [Nat.add_comm]
  exact (doCsum_modEq e addr buff).add_left _

/-- Checksumming a buffer in pieces, each but the last of even length, sums the whole
buffer: the reason `csum_partial` wants even lengths but for the last fragment. -/
theorem csumPartial_append (e : Endian) (addr addr' : Nat) (buff buff' : List UInt8)
    (sum : UInt32) (h : buff.length % 2 = 0) :
    (csumPartial e addr' buff' buff'.length (csumPartial e addr buff buff.length sum)).toNat ≡
      sum.toNat + sum16 e (buff ++ buff') [MOD 0xffff] := by
  rw [sum16_append e h, ← Nat.add_assoc]
  exact (csumPartial_modEq e addr' buff' _).trans ((csumPartial_modEq e addr buff sum).add_right _)

theorem csumPartial_append_odd_tail :
    ([0x45, 0x00] : List UInt8).length % 2 = 0 ∧
      (csumPartial .little 2 [0x1c] ([0x1c] : List UInt8).length
          (csumPartial .little 0 [0x45, 0x00] ([0x45, 0x00] : List UInt8).length 0)).toNat ≡
        (0 : UInt32).toNat + sum16 .little ([0x45, 0x00] ++ [0x1c]) [MOD 65535] :=
  ⟨by decide, csumPartial_append .little 0 2 [0x45, 0x00] [0x1c] 0 (by decide)⟩

theorem csumFold_toNat (x : UInt32) : (csumFold x).toNat = 0xffff - reduce x.toNat := by
  have := reduce_le x.toNat
  simp only [csumFold, UInt32.toNat_toUInt16, UInt32.toNat_not, fold_toNat, fold_fold x.toNat_lt,
    UInt32.size]
  omega

theorem csumFold_add_modEq (x : UInt32) : (csumFold x).toNat + x.toNat ≡ 0 [MOD 0xffff] := by
  have := reduce_le x.toNat
  rw [csumFold_toNat]
  calc 0xffff - reduce x.toNat + x.toNat ≡ 0xffff - reduce x.toNat + reduce x.toNat [MOD 0xffff] :=
        (reduce_modEq _).symm.add_left _
    _ = 0xffff := by omega
    _ ≡ 0 [MOD 0xffff] := rfl

theorem ipComputeCsum_add_modEq (e : Endian) (addr : Nat) (buff : List UInt8) :
    (ipComputeCsum e addr buff buff.length).toNat + sum16 e buff ≡ 0 [MOD 0xffff] := by
  have hlt := doCsum_lt e addr buff buff.length
  have hc : (ipComputeCsum e addr buff buff.length).toNat =
      0xffff - (doCsum e addr buff buff.length).toNat := by
    simp only [ipComputeCsum, UInt32.toNat_toUInt16, UInt32.toNat_not, UInt32.size]
    omega
  rw [hc]
  calc _ ≡ 0xffff - (doCsum e addr buff buff.length).toNat +
        (doCsum e addr buff buff.length).toNat [MOD 0xffff] :=
      (doCsum_modEq e addr buff).symm.add_left _
    _ = 0xffff := by omega
    _ ≡ 0 [MOD 0xffff] := rfl

theorem ipFastCsum_add_modEq (e : Endian) (addr : Nat) (iph : List UInt8) (ihl : UInt32)
    (hlen : iph.length = 4 * ihl.toNat) (hihl : 4 * ihl.toNat < 2 ^ 31) :
    (ipFastCsum e addr iph ihl).toNat + sum16 e iph ≡ 0 [MOD 0xffff] := by
  have hmul : ihl * 4 = UInt32.ofNat iph.length := by
    apply UInt32.toNat_inj.mp
    rw [UInt32.toNat_mul, UInt32.toNat_ofNat']
    simp only [UInt32.reduceToNat]
    omega
  have hint : (ihl * 4).toInt32.toInt = (iph.length : Int) := by
    rw [hmul, UInt32.toInt32_ofNat', Int32.toInt_ofNat']
    exact Int.bmod_eq_of_le (by simp) (by simp [Int32.size]; omega)
  have := ipComputeCsum_add_modEq e addr iph
  unfold ipComputeCsum at this
  unfold ipFastCsum
  rwa [hint]

/-- The 20-byte header of an IPv4 datagram, its checksum field zero. -/
theorem ipFastCsum_add_modEq_header :
    let iph : List UInt8 := [0x45, 0x00, 0x00, 0x73, 0x00, 0x00, 0x40, 0x00, 0x40, 0x11,
      0x00, 0x00, 0xc0, 0xa8, 0x00, 0x01, 0xc0, 0xa8, 0x00, 0xc7]
    iph.length = 4 * (5 : UInt32).toNat ∧ 4 * (5 : UInt32).toNat < 2 ^ 31 ∧
      (ipFastCsum .little 0 iph 5).toNat + sum16 .little iph ≡ 0 [MOD 0xffff] :=
  ⟨by decide, by decide, ipFastCsum_add_modEq .little 0 _ 5 (by decide) (by decide)⟩

/-- What a caller stores, `csum_fold(csum_partial(buff, len, sum))`, completes the seed and the
buffer: added to their one's-complement sum it gives zero modulo `0xffff`. -/
theorem csumFold_csumPartial_add_modEq (e : Endian) (addr : Nat) (buff : List UInt8) (sum : UInt32) :
    (csumFold (csumPartial e addr buff buff.length sum)).toNat + (sum.toNat + sum16 e buff) ≡ 0
      [MOD 0xffff] :=
  calc (csumFold (csumPartial e addr buff buff.length sum)).toNat + (sum.toNat + sum16 e buff)
      ≡ (csumFold (csumPartial e addr buff buff.length sum)).toNat +
          (csumPartial e addr buff buff.length sum).toNat [MOD 0xffff] :=
        (csumPartial_modEq e addr buff sum).symm.add_left _
    _ ≡ 0 [MOD 0xffff] := csumFold_add_modEq _

/-! ### The pseudo-header sum -/

theorem tcpudpSum_toNat (e : Endian) (saddr daddr : UInt32) (len proto : UInt16) (sum : UInt32) :
    (tcpudpSum e saddr daddr len proto sum).toNat =
      sum.toNat + saddr.toNat + daddr.toNat + e.w1 * (proto.toNat + len.toNat) := by
  have := sum.toNat_lt; have := saddr.toNat_lt; have := daddr.toNat_lt
  have := proto.toNat_lt; have := len.toNat_lt
  cases e <;> simp [tcpudpSum, Endian.w1, Nat.shiftLeft_eq] <;> omega

theorem tcpudpSum_modEq (e : Endian) (saddr daddr : UInt32) (len proto : UInt16) (sum : UInt32) :
    (tcpudpSum e saddr daddr len proto sum).toNat ≡
      sum.toNat + sum16 e (pseudoHeader e saddr daddr len proto) [MOD 0xffff] := by
  have hsum : sum16 e (pseudoHeader e saddr daddr len proto) ≡
      saddr.toNat + daddr.toNat + e.w1 * proto.toNat + e.w1 * len.toNat [MOD 0xffff] := by
    rw [pseudoHeader, sum16_append e (by simp [netBytes16]), sum16_append e (by simp),
      sum16_append e (by simp), e.sum16_store32, e.sum16_store32]
    exact (((fold_modEq _).add (fold_modEq _)).add (sum16_netBytes16_modEq e proto)).add
      (sum16_netBytes16_modEq e len)
  rw [tcpudpSum_toNat]
  calc _ = sum.toNat + (saddr.toNat + daddr.toNat + e.w1 * proto.toNat + e.w1 * len.toNat) := by
        ring
    _ ≡ _ [MOD 0xffff] := hsum.symm.add_left _

theorem tcpudpSum_lt (e : Endian) (saddr daddr : UInt32) (len proto : UInt16) (sum : UInt32) :
    (tcpudpSum e saddr daddr len proto sum).toNat < 2 ^ 34 := by
  have := sum.toNat_lt; have := saddr.toNat_lt; have := daddr.toNat_lt
  have := proto.toNat_lt; have := len.toNat_lt
  rw [tcpudpSum_toNat]
  cases e <;> simp only [Endian.w1] <;> omega

theorem csumTcpudpNofold_toNat (e : Endian) (saddr daddr : UInt32) (len proto : UInt16)
    (sum : UInt32) :
    (csumTcpudpNofold e saddr daddr len proto sum).toNat =
      ((tcpudpSum e saddr daddr len proto sum).toNat % 2 ^ 32 +
        (tcpudpSum e saddr daddr len proto sum).toNat / 2 ^ 32) % 2 ^ 32 := by
  have hlt := tcpudpSum_lt e saddr daddr len proto sum
  simp only [csumTcpudpNofold, UInt64.toNat_toUInt32, UInt64.toNat_add, UInt64.toNat_shiftRight,
    UInt64.reduceToNat, Nat.reduceMod, Nat.shiftRight_eq_div_pow]
  omega

theorem csumTcpudpNofold_modEq_iff (e : Endian) (saddr daddr : UInt32) (len proto : UInt16)
    (sum : UInt32) :
    (csumTcpudpNofold e saddr daddr len proto sum).toNat ≡
        sum.toNat + sum16 e (pseudoHeader e saddr daddr len proto) [MOD 0xffff] ↔
      (tcpudpSum e saddr daddr len proto sum).toNat % 2 ^ 32 +
        (tcpudpSum e saddr daddr len proto sum).toNat / 2 ^ 32 < 2 ^ 32 := by
  have hS := tcpudpSum_modEq e saddr daddr len proto sum
  have hlt := tcpudpSum_lt e saddr daddr len proto sum
  -- the 64-bit sum split at bit 32 keeps its class, since 2^32 ≡ 1
  have hfold : (tcpudpSum e saddr daddr len proto sum).toNat % 2 ^ 32 +
      (tcpudpSum e saddr daddr len proto sum).toNat / 2 ^ 32 ≡
        (tcpudpSum e saddr daddr len proto sum).toNat [MOD 0xffff] := by
    unfold Nat.ModEq; omega
  rw [csumTcpudpNofold_toNat]
  constructor
  · -- a lost carry leaves the sum one short of its class
    intro h
    by_contra hge
    have hwrap := (hfold.trans hS).trans h.symm
    have hF : (tcpudpSum e saddr daddr len proto sum).toNat % 2 ^ 32 +
        (tcpudpSum e saddr daddr len proto sum).toNat / 2 ^ 32 < 2 ^ 33 := by omega
    generalize (tcpudpSum e saddr daddr len proto sum).toNat % 2 ^ 32 +
      (tcpudpSum e saddr daddr len proto sum).toNat / 2 ^ 32 = F at hwrap hge hF
    have hmod : F % 2 ^ 32 = F - 2 ^ 32 := by
      rw [Nat.mod_eq_sub_mod (by omega), Nat.mod_eq_of_lt (by omega)]
    have h1 : F - 2 ^ 32 + 1 ≡ F - 2 ^ 32 + 0 [MOD 0xffff] :=
      calc F - 2 ^ 32 + 1 ≡ F - 2 ^ 32 + 2 ^ 32 [MOD 0xffff] := two_pow_32_modEq.symm.add_left _
        _ = F := by omega
        _ ≡ F % 2 ^ 32 [MOD 0xffff] := hwrap
        _ = F - 2 ^ 32 + 0 := by rw [hmod, Nat.add_zero]
    exact absurd (Nat.ModEq.add_left_cancel' _ h1) (by decide)
  · intro h
    rw [Nat.mod_eq_of_lt h]
    exact hfold.trans hS

theorem csumTcpudpMagic_toNat (e : Endian) (saddr daddr : UInt32) (len proto : UInt16)
    (sum : UInt32) :
    (csumTcpudpMagic e saddr daddr len proto sum).toNat =
      0xffff - reduce (csumTcpudpNofold e saddr daddr len proto sum).toNat :=
  csumFold_toNat _

theorem pseudoHeader_sum_eq_zero_iff (e : Endian) (saddr daddr : UInt32) (len proto : UInt16)
    (sum : UInt32) :
    sum.toNat + sum16 e (pseudoHeader e saddr daddr len proto) = 0 ↔
      (tcpudpSum e saddr daddr len proto sum).toNat = 0 := by
  rw [pseudoHeader, sum16_append e (by simp [netBytes16]), sum16_append e (by simp),
    sum16_append e (by simp), e.sum16_store32, e.sum16_store32, sum16_netBytes16,
    sum16_netBytes16, tcpudpSum_toNat]
  unfold fold
  cases e <;> simp only [Endian.w0, Endian.w1] <;> omega

/-- `csum_tcpudp_magic` is the RFC 793/768 checksum exactly when `csum_tcpudp_nofold` does
not lose a second carry. -/
theorem csumTcpudpMagic_eq_iff (e : Endian) (saddr daddr : UInt32) (len proto : UInt16)
    (sum : UInt32) :
    (csumTcpudpMagic e saddr daddr len proto sum).toNat =
        pseudoHeaderChecksum e saddr daddr len proto sum ↔
      (tcpudpSum e saddr daddr len proto sum).toNat % 2 ^ 32 +
        (tcpudpSum e saddr daddr len proto sum).toNat / 2 ^ 32 < 2 ^ 32 := by
  rw [csumTcpudpMagic_toNat, pseudoHeaderChecksum, ← csumTcpudpNofold_modEq_iff]
  have h1 := reduce_le (csumTcpudpNofold e saddr daddr len proto sum).toNat
  have h2 := reduce_le (sum.toNat + sum16 e (pseudoHeader e saddr daddr len proto))
  constructor
  · intro h
    have heq : reduce (csumTcpudpNofold e saddr daddr len proto sum).toNat =
        reduce (sum.toNat + sum16 e (pseudoHeader e saddr daddr len proto)) := by omega
    exact (reduce_modEq _).symm.trans (heq ▸ reduce_modEq _)
  · intro h
    -- same class, and zero together: the folded sum is zero only when the 64-bit sum is
    have hfits := (csumTcpudpNofold_modEq_iff e saddr daddr len proto sum).mp h
    have hz : (csumTcpudpNofold e saddr daddr len proto sum).toNat = 0 ↔
        sum.toNat + sum16 e (pseudoHeader e saddr daddr len proto) = 0 := by
      rw [pseudoHeader_sum_eq_zero_iff, csumTcpudpNofold_toNat, Nat.mod_eq_of_lt hfits]
      omega
    rw [reduce_eq_of_modEq h hz]

theorem csumTcpudpNofold_loses_second_carry :
    csumTcpudpNofold .little 0xffffffff 0xff0000ff 0xffff 0 1 = 0 ∧
      1 + sum16 .little (pseudoHeader .little 0xffffffff 0xff0000ff 0xffff 0) ≡ 1 [MOD 0xffff] ∧
      csumTcpudpMagic .little 0xffffffff 0xff0000ff 0xffff 0 1 = 0xffff ∧
      pseudoHeaderChecksum .little 0xffffffff 0xff0000ff 0xffff 0 1 = 0xfffe := by
  decide

end LinuxKernel
