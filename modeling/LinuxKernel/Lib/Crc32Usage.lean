import LinuxKernel.Lib.Crc32BeSpec

/-!
# CRC32: what callers rely on

As the comments of `crc32.c` and `crc32defs.h` promise, a CRC may seed the CRC of what follows
(`crc32Le_append`, `crc32Be_append`), and a buffer followed by its CRC, stored with
`cpu_to_le32()` or `cpu_to_be32()`, has CRC zero (`crc32Le_residue`, `crc32Be_residue`).
-/

namespace LinuxKernel.Crc32

open Lfsr

/-- The bytes `cpu_to_le32(crc)` stores, in memory order. -/
def le32Bytes (c : BitVec 32) : List (BitVec 8) :=
  [c.extractLsb' 0 8, c.extractLsb' 8 8, c.extractLsb' 16 8, c.extractLsb' 24 8]

/-- The bytes `cpu_to_be32(crc)` stores, in memory order. -/
def be32Bytes (c : BitVec 32) : List (BitVec 8) :=
  [c.extractLsb' 24 8, c.extractLsb' 16 8, c.extractLsb' 8 8, c.extractLsb' 0 8]

theorem load32_le32Bytes (c : BitVec 32) :
    load32 (c.extractLsb' 0 8) (c.extractLsb' 8 8) (c.extractLsb' 16 8) (c.extractLsb' 24 8) =
      c := by
  apply BitVec.eq_of_getLsbD_eq
  intro i hi
  simp only [load32, BitVec.getLsbD_append, BitVec.getLsbD_extractLsb']
  grind

theorem beWord_be32Bytes (c : BitVec 32) :
    (widen (c.extractLsb' 24 8) <<< 24) ^^^ (widen (c.extractLsb' 16 8) <<< 16) ^^^
      (widen (c.extractLsb' 8 8) <<< 8) ^^^ widen (c.extractLsb' 0 8) = c := by
  apply BitVec.eq_of_getLsbD_eq
  intro i hi
  simp only [widen, BitVec.getLsbD_xor, BitVec.getLsbD_shiftLeft, BitVec.getLsbD_setWidth,
    BitVec.getLsbD_extractLsb']
  grind

variable (polynomial : BitVec 32)

theorem foldl_le32Bytes (c : BitVec 32) : (le32Bytes c).foldl (leByteStep polynomial) c = 0 := by
  rw [le32Bytes, fold_four, load32_le32Bytes, BitVec.xor_self]
  exact iterate_stepRight_zero polynomial 32

theorem foldl_be32Bytes (c : BitVec 32) : (be32Bytes c).foldl (beByteStep polynomial) c = 0 := by
  rw [be32Bytes, fold_four_be, beWord_be32Bytes, BitVec.xor_self]
  exact iterate_stepLeft_zero polynomial 32

theorem crc32Le_append (bits : CrcBits) (crc : BitVec 32) (addr : Nat) (p q : List (BitVec 8)) :
    crc32Le bits crc addr (p ++ q) = crc32Le bits (crc32Le bits crc addr p) (addr + p.length) q := by
  simp only [crc32Le, crc32tableLe,
    crc32LeGeneric_eq crcpolyLe bits (tableLe_crc32initLeGeneric crcpolyLe bits .zero)]
  rw [List.foldl_append]

theorem crc32Be_append (bits : CrcBits) (crc : BitVec 32) (addr : Nat) (p q : List (BitVec 8)) :
    crc32Be bits crc addr (p ++ q) = crc32Be bits (crc32Be bits crc addr p) (addr + p.length) q := by
  simp only [crc32Be, crc32BeGeneric_eq crcpolyBe bits (tableBe_crc32tableBe bits)]
  rw [List.foldl_append]

theorem crc32Le_residue (bits : CrcBits) (crc : BitVec 32) (addr : Nat) (p : List (BitVec 8)) :
    crc32Le bits crc addr (p ++ le32Bytes (crc32Le bits crc addr p)) = 0 := by
  simp only [crc32Le, crc32tableLe,
    crc32LeGeneric_eq crcpolyLe bits (tableLe_crc32initLeGeneric crcpolyLe bits .zero)]
  rw [List.foldl_append, foldl_le32Bytes]

theorem crc32Be_residue (bits : CrcBits) (crc : BitVec 32) (addr : Nat) (p : List (BitVec 8)) :
    crc32Be bits crc addr (p ++ be32Bytes (crc32Be bits crc addr p)) = 0 := by
  simp only [crc32Be, crc32BeGeneric_eq crcpolyBe bits (tableBe_crc32tableBe bits)]
  rw [List.foldl_append, foldl_be32Bytes]

end LinuxKernel.Crc32
