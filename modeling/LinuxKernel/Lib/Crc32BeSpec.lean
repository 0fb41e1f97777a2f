import LinuxKernel.Lib.Crc32Spec

/-!
# CRC32: `crc32_be`

Every configuration of `crc32_be` is the big-endian bit-at-a-time CRC (`crc32Be_eq`). The
slicing ones run the little-endian `crc32_body` on the byte-swapped register and tables:
`__swab32` carries the big-endian byte step to `DO_CRC` (`doCrc_swab32`).
-/

namespace LinuxKernel.Crc32

open Lfsr

/-! ### `__swab32` -/

theorem getLsbD_swab32 (x : BitVec 32) {i : Nat} (hi : i < 32) :
    (swab32 x).getLsbD i = x.getLsbD ((3 - i / 8) * 8 + i % 8) := by
  have m0 : (0x000000ff : BitVec 32) = lowMask 32 8 := by decide
  have m1 : (0x0000ff00 : BitVec 32) = lowMask 32 8 <<< 8 := by decide
  have m2 : (0x00ff0000 : BitVec 32) = lowMask 32 8 <<< 16 := by decide
  have m3 : (0xff000000 : BitVec 32) = lowMask 32 8 <<< 24 := by decide
  simp only [swab32, m0, m1, m2, m3, BitVec.getLsbD_or, BitVec.getLsbD_and,
    BitVec.getLsbD_shiftLeft, BitVec.getLsbD_ushiftRight, getLsbD_lowMask]
  -- one case for each byte of the result
  by_cases b0 : i < 8
  · grind
  by_cases b1 : i < 16
  · grind
  by_cases b2 : i < 24
  · grind
  · grind

@[simp] theorem swab32_swab32 (x : BitVec 32) : swab32 (swab32 x) = x := by
  apply BitVec.eq_of_getLsbD_eq
  intro i hi
  rw [getLsbD_swab32 _ hi, getLsbD_swab32 _ (by omega)]
  congr 1
  omega

theorem swab32_xor (a b : BitVec 32) : swab32 (a ^^^ b) = swab32 a ^^^ swab32 b := by
  apply BitVec.eq_of_getLsbD_eq
  intro i hi
  simp only [BitVec.getLsbD_xor, getLsbD_swab32 _ hi]

theorem swab32_lane (q : BitVec 32) {j : Nat} (hj : j ≤ 3) :
    (swab32 q >>> (8 * j)) &&& (255 : BitVec 32) = (q <<< (8 * j)) >>> 24 := by
  apply BitVec.eq_of_getLsbD_eq
  intro i hi
  rw [show (255 : BitVec 32) = lowMask 32 8 by decide]
  simp only [BitVec.getLsbD_and, BitVec.getLsbD_ushiftRight, BitVec.getLsbD_shiftLeft,
    getLsbD_lowMask]
  by_cases low : i < 8
  · rw [getLsbD_swab32 _ (by omega)]
    grind
  · simp [low, show ¬24 + i < 32 by omega]

theorem swab32_shiftRight_eight (c : BitVec 32) : swab32 c >>> 8 = swab32 (c <<< 8) := by
  apply BitVec.eq_of_getLsbD_eq
  intro i hi
  rw [BitVec.getLsbD_ushiftRight, getLsbD_swab32 _ hi, BitVec.getLsbD_shiftLeft]
  by_cases top : i < 24
  · rw [getLsbD_swab32 _ (by omega)]
    grind
  · rw [BitVec.getLsbD_of_ge (swab32 c) (8 + i) (by omega)]
    grind

theorem swab32_widen_shiftLeft (x : BitVec 8) {j : Nat} (hj : j ≤ 3) :
    swab32 (widen x <<< (8 * j)) = widen x <<< (8 * (3 - j)) := by
  apply BitVec.eq_of_getLsbD_eq
  intro i hi
  simp only [getLsbD_swab32 _ hi, widen, BitVec.getLsbD_shiftLeft, BitVec.getLsbD_setWidth]
  grind

theorem load32_eq_swab32 (b0 b1 b2 b3 : BitVec 8) :
    load32 b0 b1 b2 b3 =
      swab32 ((widen b0 <<< 24) ^^^ (widen b1 <<< 16) ^^^ (widen b2 <<< 8) ^^^ widen b3) := by
  have lane0 : swab32 (widen b3) = widen b3 <<< 24 := by
    simpa using swab32_widen_shiftLeft b3 (j := 0) (by omega)
  rw [load32_eq, swab32_xor, swab32_xor, swab32_xor, lane0,
    swab32_widen_shiftLeft b0 (j := 3) (by omega), swab32_widen_shiftLeft b1 (j := 2) (by omega),
    swab32_widen_shiftLeft b2 (j := 1) (by omega)]
  simp only [Nat.reduceMul, Nat.reduceSub, Nat.sub_self, Nat.mul_zero, BitVec.shiftLeft_zero]

theorem foldl_swab32 (step : BitVec 32 → BitVec 8 → BitVec 32) (bytes : List (BitVec 8))
    (crc : BitVec 32) :
    bytes.foldl (fun c x => swab32 (step (swab32 c) x)) crc =
      swab32 (bytes.foldl step (swab32 crc)) := by
  induction bytes generalizing crc with
  | nil => simp
  | cons x rest ih => rw [List.foldl_cons, List.foldl_cons, ih, swab32_swab32]

/-! ### The configurations that do not slice -/

section ConfigurationsBe

variable (polynomial : BitVec 32)

/-- The bit-at-a-time step of a byte toward the top bit: fold it into the high bits, then eight
register steps. -/
def beByteStep (crc : BitVec 32) (x : BitVec 8) : BitVec 32 :=
  (stepLeft polynomial)^[8] (crc ^^^ (widen x <<< 24))

theorem crc32BeGeneric_one (crc : BitVec 32) (addr : Nat) (p : List (BitVec 8)) (tab : Table) :
    crc32BeGeneric .one crc addr p tab polynomial = p.foldl (beByteStep polynomial) crc := by
  simp only [crc32BeGeneric, crcBeBit_eq]
  rfl

theorem beTableStep_eq {tab : Table} {k : Nat} (hk : k ≤ 32)
    (row0 : ∀ m < 2 ^ k,
      tab.entry 0 m = (stepLeft polynomial)^[k] (BitVec.ofNat 32 m <<< (32 - k))) :
    beTableStep tab k (32 - k) = (stepLeft polynomial)^[k] := by
  funext crc
  rw [beTableStep, BitVec.xor_comm, entry_xor_shiftLeft polynomial hk row0]

theorem tobe_of_le {bits : CrcBits} (small : bits.toNat ≤ 8) (x : BitVec 32) :
    tobe bits x = x :=
  if_neg (Nat.not_lt.mpr small)

theorem tobe_of_gt {bits : CrcBits} (slices : 8 < bits.toNat) (x : BitVec 32) :
    tobe bits x = swab32 x :=
  if_pos slices

theorem row0_of_tableBe {bits : CrcBits} (small : bits.toNat ≤ 8) {tab : Table}
    (table : TableBe polynomial bits tab) :
    ∀ m < 2 ^ tableBits bits, tab.entry 0 m =
      (stepLeft polynomial)^[tableBits bits] (BitVec.ofNat 32 m <<< (32 - tableBits bits)) := by
  intro m hm
  rw [table 0 (by cases bits <;> decide) m (by rw [tableSize_eq]; exact hm), tobe_of_le small,
    Nat.mul_one]

theorem crc32BeGeneric_unsliced {bits : CrcBits} (small : bits.toNat ≤ 8) {tab : Table}
    (table : TableBe polynomial bits tab) (crc : BitVec 32) (addr : Nat) (p : List (BitVec 8)) :
    crc32BeGeneric bits crc addr p tab polynomial = p.foldl (beByteStep polynomial) crc := by
  have row0 := row0_of_tableBe polynomial small table
  cases bits with
  | one => exact crc32BeGeneric_one polynomial crc addr p tab
  | two =>
    have step2 : beTableStep tab 2 30 = (stepLeft polynomial)^[2] :=
      beTableStep_eq polynomial (by omega) row0
    simp only [crc32BeGeneric, step2, ← Function.iterate_mul]
    rfl
  | four =>
    have step4 : beTableStep tab 4 28 = (stepLeft polynomial)^[4] :=
      beTableStep_eq polynomial (by omega) row0
    simp only [crc32BeGeneric, step4, ← Function.iterate_mul]
    rfl
  | eight =>
    have step8 : beTableStep tab 8 24 = (stepLeft polynomial)^[8] :=
      beTableStep_eq polynomial (by omega) row0
    simp only [crc32BeGeneric, step8]
    rfl
  | thirtyTwo | sixtyFour => exact absurd small (by decide)

end ConfigurationsBe

/-! ### Slicing through `__swab32` -/

section SlicingBe

variable (polynomial : BitVec 32)

theorem iterate_byte_split_be {k : Nat} (hk : 8 ≤ k) (q : BitVec 32) :
    (stepLeft polynomial)^[k] q =
      (stepLeft polynomial)^[k] ((q >>> 24) <<< 24) ^^^ (stepLeft polynomial)^[k - 8] (q <<< 8) := by
  have split := iterate_stepLeft_split polynomial 8 (by omega) q
  simp only [Nat.reduceSub] at split
  calc (stepLeft polynomial)^[k] q
      = (stepLeft polynomial)^[k - 8] ((stepLeft polynomial)^[8] q) := by
        rw [← Function.iterate_add_apply, Nat.sub_add_cancel hk]
    _ = (stepLeft polynomial)^[k] ((q >>> 24) <<< 24) ^^^
          (stepLeft polynomial)^[k - 8] (q <<< 8) := by
        rw [split, iterate_stepLeft_xor, ← Function.iterate_add_apply, Nat.sub_add_cancel hk]

/-- Thirty-two steps of a word toward the top are those of each of its bytes placed at the top,
from the high byte, which goes through all of them, to the low byte, which goes through eight. -/
theorem iterate_thirtyTwo_be (q : BitVec 32) :
    (stepLeft polynomial)^[32] q =
      (stepLeft polynomial)^[32] ((q >>> 24) <<< 24) ^^^
        (stepLeft polynomial)^[24] (((q <<< 8) >>> 24) <<< 24) ^^^
          (stepLeft polynomial)^[16] (((q <<< 16) >>> 24) <<< 24) ^^^
            (stepLeft polynomial)^[8] (((q <<< 24) >>> 24) <<< 24) := by
  have gone : (q <<< 24) <<< 8 = 0#32 := by
    apply BitVec.eq_of_getLsbD_eq
    intro i hi
    simp only [BitVec.getLsbD_shiftLeft, BitVec.getLsbD_zero]
    grind
  rw [iterate_byte_split_be polynomial (k := 32) (by omega) q,
    iterate_byte_split_be polynomial (k := 32 - 8) (by omega) (q <<< 8),
    iterate_byte_split_be polynomial (k := 32 - 8 - 8) (by omega) (q <<< 8 <<< 8),
    iterate_byte_split_be polynomial (k := 32 - 8 - 8 - 8) (by omega) (q <<< 8 <<< 8 <<< 8),
    ← BitVec.shiftLeft_add, ← BitVec.shiftLeft_add, gone]
  simp only [Nat.reduceSub, Nat.reduceAdd, Function.iterate_zero, id, BitVec.xor_zero,
    BitVec.xor_assoc]

theorem entry_high_byte {tab : Table} {row k : Nat}
    (hrow : ∀ m < 2 ^ 8,
      tab.entry row m = swab32 ((stepLeft polynomial)^[k] (BitVec.ofNat 32 m <<< 24)))
    (y : BitVec 32) :
    tab.entry row (y >>> 24).toNat = swab32 ((stepLeft polynomial)^[k] ((y >>> 24) <<< 24)) := by
  have small : (y >>> 24).toNat < 2 ^ 8 := by
    rw [BitVec.toNat_ushiftRight, Nat.shiftRight_eq_div_pow,
      Nat.div_lt_iff_lt_mul (by positivity), ← Nat.pow_add]
    exact y.isLt
  rw [hrow _ small, BitVec.ofNat_toNat, BitVec.setWidth_eq]

/-- The four reads of `DO_CRC4` and `DO_CRC8` on a swapped word: when rows `base` to `base + 3`
hold one to four more bytes' swapped steps after `8 * base` of them, the four reads are the
swapped thirty-two steps more. -/
theorem doCrcRows_swab32 {tab : Table} {base : Nat}
    (rows : ∀ r < 4, ∀ m < 2 ^ 8, tab.entry (base + r) m = swab32 ((stepLeft polynomial)^[8 * base]
      ((stepLeft polynomial)^[8 * (r + 1)] (BitVec.ofNat 32 m <<< 24))))
    (q : BitVec 32) :
    doCrcRows tab base (swab32 q) =
      swab32 ((stepLeft polynomial)^[8 * base] ((stepLeft polynomial)^[32] q)) := by
  have row (r : Nat) (hr : r < 4) := entry_high_byte polynomial (fun m hm => by
    rw [rows r hr m hm, ← Function.iterate_add_apply])
  have row0 := row 0 (by omega)
  simp only [Nat.add_zero] at row0
  have lane0 : swab32 q &&& (255 : BitVec 32) = q >>> 24 := by
    simpa using swab32_lane q (j := 0) (by omega)
  have lane1 : (swab32 q >>> 8) &&& (255 : BitVec 32) = (q <<< 8) >>> 24 := swab32_lane q (j := 1) (by omega)
  have lane2 : (swab32 q >>> 16) &&& (255 : BitVec 32) = (q <<< 16) >>> 24 := swab32_lane q (j := 2) (by omega)
  have lane3 : (swab32 q >>> 24) &&& (255 : BitVec 32) = (q <<< 24) >>> 24 := swab32_lane q (j := 3) (by omega)
  rw [doCrcRows, lane0, lane1, lane2, lane3, row 3 (by omega), row 2 (by omega), row 1 (by omega),
    row0, iterate_thirtyTwo_be polynomial q]
  simp only [iterate_stepLeft_xor, swab32_xor, ← Function.iterate_add_apply, BitVec.xor_assoc]

theorem iterate_widen_up (x : BitVec 8) {k m : Nat} (hk : k ≤ 24) (hm : k ≤ m) :
    (stepLeft polynomial)^[m] (widen x <<< (24 - k)) =
      (stepLeft polynomial)^[m - k] (widen x <<< 24) := by
  have up : (stepLeft polynomial)^[k] (widen x <<< (24 - k)) = widen x <<< 24 := by
    rw [iterate_stepLeft_of_high_clear polynomial k _ (fun i hi => by
      simp only [BitVec.getMsbD_eq_getLsbD, BitVec.getLsbD_shiftLeft, widen,
        BitVec.getLsbD_setWidth]
      rw [BitVec.getLsbD_of_ge x (32 - 1 - i - (24 - k)) (by omega)]
      simp), ← BitVec.shiftLeft_add, Nat.sub_add_cancel hk]
  rw [← up, ← Function.iterate_add_apply, Nat.sub_add_cancel hm]

theorem fold_four_be (crc : BitVec 32) (b0 b1 b2 b3 : BitVec 8) :
    [b0, b1, b2, b3].foldl (beByteStep polynomial) crc =
      (stepLeft polynomial)^[32]
        (crc ^^^ ((widen b0 <<< 24) ^^^ (widen b1 <<< 16) ^^^ (widen b2 <<< 8) ^^^ widen b3)) := by
  have up1 := iterate_widen_up polynomial b1 (k := 8) (m := 32) (by omega) (by omega)
  have up2 := iterate_widen_up polynomial b2 (k := 16) (m := 32) (by omega) (by omega)
  have up3 := iterate_widen_up polynomial b3 (k := 24) (m := 32) (by omega) (by omega)
  simp only [Nat.reduceSub, BitVec.shiftLeft_zero] at up1 up2 up3
  simp only [List.foldl_cons, List.foldl_nil, beByteStep, iterate_stepLeft_xor,
    ← Function.iterate_add_apply, Nat.reduceAdd]
  rw [up1, up2, up3]
  ac_rfl

theorem doCrc_swab32 {tab : Table}
    (row0 : ∀ m < 2 ^ 8,
      tab.entry 0 m = swab32 ((stepLeft polynomial)^[8] (BitVec.ofNat 32 m <<< 24)))
    (crc : BitVec 32) (x : BitVec 8) :
    doCrc tab crc x = swab32 (beByteStep polynomial (swab32 crc) x) := by
  -- the register with the byte folded in at the top, as the big-endian step sees it
  have folded : crc ^^^ widen x = swab32 (swab32 crc ^^^ (widen x <<< 24)) := by
    have low : swab32 (widen x <<< 24) = widen x := by
      simpa using swab32_widen_shiftLeft x (j := 3) (by omega)
    rw [swab32_xor, swab32_swab32, low]
  have shifted : crc >>> 8 = swab32 ((swab32 crc ^^^ (widen x <<< 24)) <<< 8) := by
    have gone : (widen x <<< 24) <<< 8 = 0#32 := by
      apply BitVec.eq_of_getLsbD_eq
      intro i hi
      simp only [widen, BitVec.getLsbD_shiftLeft, BitVec.getLsbD_setWidth, BitVec.getLsbD_zero]
      grind
    rw [BitVec.shiftLeft_xor_distrib, gone, BitVec.xor_zero, ← swab32_shiftRight_eight,
      swab32_swab32]
  have lane0 : ∀ e, swab32 e &&& (255 : BitVec 32) = e >>> 24 := fun e => by
    simpa using swab32_lane e (j := 0) (by omega)
  have split := iterate_stepLeft_split polynomial 8 (by omega) (swab32 crc ^^^ (widen x <<< 24))
  simp only [Nat.reduceSub] at split
  rw [doCrc, folded, lane0, shifted, entry_high_byte polynomial row0, ← swab32_xor, beByteStep,
    split]

theorem rows_of_tableBe {bits : CrcBits} {tab : Table} (table : TableBe polynomial bits tab)
    (base : Nat) (within : base + 4 ≤ tableRows bits) :
    ∀ r < 4, ∀ m < 2 ^ 8, tab.entry (base + r) m = swab32 ((stepLeft polynomial)^[8 * base]
      ((stepLeft polynomial)^[8 * (r + 1)] (BitVec.ofNat 32 m <<< 24))) := by
  have slices : bits.toNat > 8 := by
    by_contra small
    simp [tableRows, small] at within
  have bits8 : tableBits bits = 8 := by simp [tableBits, slices]
  have size : tableSize bits = 2 ^ 8 := by rw [tableSize_eq, bits8]
  intro r hr m hm
  rw [table (base + r) (by omega) m (by rw [size]; exact hm), tobe_of_gt slices,
    ← Function.iterate_add_apply, bits8]
  congr 2
  omega

theorem doCrc4_swab32 {bits : CrcBits} {tab : Table} (table : TableBe polynomial bits tab)
    (four : 4 ≤ tableRows bits) (crc : BitVec 32) (b0 b1 b2 b3 : BitVec 8) :
    doCrc4 tab (crc ^^^ load32 b0 b1 b2 b3) =
      swab32 ([b0, b1, b2, b3].foldl (beByteStep polynomial) (swab32 crc)) := by
  rw [load32_eq_swab32, ← swab32_swab32 crc, ← swab32_xor, swab32_swab32, doCrc4,
    doCrcRows_swab32 polynomial (rows_of_tableBe polynomial table 0 four), fold_four_be]
  rfl

theorem doCrc8_swab32 {bits : CrcBits} {tab : Table} (table : TableBe polynomial bits tab)
    (eight : 8 ≤ tableRows bits) (crc : BitVec 32) (b0 b1 b2 b3 b4 b5 b6 b7 : BitVec 8) :
    doCrc8 tab (crc ^^^ load32 b0 b1 b2 b3) ^^^ doCrc4 tab (load32 b4 b5 b6 b7) =
      swab32 ([b0, b1, b2, b3, b4, b5, b6, b7].foldl (beByteStep polynomial) (swab32 crc)) := by
  have low := doCrcRows_swab32 polynomial (rows_of_tableBe polynomial table 0 (by omega))
  have high := doCrcRows_swab32 polynomial (rows_of_tableBe polynomial table 4 eight)
  rw [load32_eq_swab32, load32_eq_swab32, ← swab32_swab32 crc, ← swab32_xor, swab32_swab32,
    doCrc8, doCrc4, high, low, ← swab32_xor, show [b0, b1, b2, b3, b4, b5, b6, b7] =
    [b0, b1, b2, b3] ++ [b4, b5, b6, b7] from rfl, List.foldl_append, fold_four_be, fold_four_be]
  simp only [iterate_stepLeft_xor, ← Function.iterate_add_apply, Nat.reduceMul, Nat.reduceAdd]

/-- `crc32_body` with a generated big-endian slicing table, on the swapped register: the swapped
bit-at-a-time big-endian CRC of the buffer, wherever the buffer starts. -/
theorem crc32Body_swab32 {bits : CrcBits} (slices : 8 < bits.toNat) {tab : Table}
    (table : TableBe polynomial bits tab) (crc : BitVec 32) (addr : Nat) (buf : List (BitVec 8)) :
    crc32Body bits crc addr buf tab = swab32 (buf.foldl (beByteStep polynomial) (swab32 crc)) := by
  have rows : 4 ≤ tableRows bits := by
    cases bits <;> first | exact absurd slices (by decide) | decide
  have row0 : ∀ m < 2 ^ 8,
      tab.entry 0 m = swab32 ((stepLeft polynomial)^[8] (BitVec.ofNat 32 m <<< 24)) := by
    intro m hm
    simpa using rows_of_tableBe polynomial table 0 rows 0 (by omega) m hm
  rw [← foldl_swab32]
  apply crc32Body_fold bits (funext₂ (doCrc_swab32 polynomial row0))
  · intro _ crc b0 b1 b2 b3
    rw [doCrc4_swab32 polynomial table rows, foldl_swab32]
  · intro not32 crc b0 b1 b2 b3 b4 b5 b6 b7
    have eight : 8 ≤ tableRows bits := by
      cases bits <;> first | exact absurd slices (by decide) | exact absurd rfl not32 | decide
    rw [doCrc8_swab32 polynomial table eight, foldl_swab32]

end SlicingBe

/-! ### `crc32_be` -/

theorem crc32BeGeneric_eq (polynomial : BitVec 32) (bits : CrcBits) {tab : Table}
    (table : TableBe polynomial bits tab) (crc : BitVec 32) (addr : Nat) (p : List (BitVec 8)) :
    crc32BeGeneric bits crc addr p tab polynomial = p.foldl (beByteStep polynomial) crc := by
  by_cases small : bits.toNat ≤ 8
  · exact crc32BeGeneric_unsliced polynomial small table crc addr p
  · cases bits with
    | thirtyTwo | sixtyFour =>
      rw [crc32BeGeneric, crc32Body_swab32 polynomial (by omega) table, swab32_swab32,
        swab32_swab32]
    | _ => exact absurd small (by decide)

theorem crc32Be_eq (bits : CrcBits) (crc : BitVec 32) (addr : Nat) (p : List (BitVec 8)) :
    crc32Be bits crc addr p = p.foldl (beByteStep crcpolyBe) crc :=
  crc32BeGeneric_eq crcpolyBe bits (tableBe_crc32tableBe bits) crc addr p

end LinuxKernel.Crc32
