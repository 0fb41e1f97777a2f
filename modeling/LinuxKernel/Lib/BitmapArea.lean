import LinuxKernel.Lib.BitmapShift
import LinuxKernel.Creds.Types

/-!
# Free areas and regions of a bitmap (`lib/bitmap.c`)

`bitmap_find_next_zero_area` looks for `nr` clear bits in a row at an aligned position;
`__reg_op` tests, sets or clears the region of `2^order` bits at `pos`, which
`bitmap_find_free_region`, `bitmap_release_region` and `bitmap_allocate_region` use. A bitmap is
its words (`wordsBit`) and positions are `Nat`; the search with the code's `unsigned long` sums
is the same while `size` and `align_mask` stay below `2^62` (`bitmapFindNextZeroAreaLoop64_toNat`).
-/

namespace LinuxKernel

open Bitmap

/-! ### `bitmap_find_next_zero_area` -/

/-- `find_next_zero_bit(map, size, offset)`: the first clear bit of `[offset, size)`, or
`size`. -/
def findNextZeroBit (map : Nat → BitVec 64) (size offset : Nat) : Nat :=
  firstIn (fun i => !wordsBit map i) offset size

/-- `find_next_bit(map, size, offset)`: the first set bit of `[offset, size)`, or `size`. -/
def findNextBit (map : Nat → BitVec 64) (size offset : Nat) : Nat :=
  firstIn (wordsBit map) offset size

/-- `__ALIGN_MASK(x, mask)`, `(x + mask) & ~mask`: `x + mask` with the bits of `mask`
cleared. -/
def alignMask (x mask : Nat) : Nat := (x + mask) - ((x + mask) &&& mask)

/-- The `again:` loop of `bitmap_find_next_zero_area` from `start`, for `fuel` rounds. Each
round that goes again moves `start` past a set bit below `size`, so `size + 1` rounds are
enough. -/
def bitmapFindNextZeroAreaLoop (map : Nat → BitVec 64) (size nr mask : Nat) : Nat → Nat → Nat
  | 0, start => start
  | fuel + 1, start =>
    let index := alignMask (findNextZeroBit map size start) mask
    if size < index + nr then index + nr
    else
      let i := findNextBit map (index + nr) index
      if i < index + nr then bitmapFindNextZeroAreaLoop map size nr mask fuel (i + 1) else index

def bitmapFindNextZeroArea (map : Nat → BitVec 64) (size start nr mask : Nat) : Nat :=
  bitmapFindNextZeroAreaLoop map size nr mask (size + 1) start

/-- The window of `nr` bits at `i` that the area search looks for: aligned to `mask + 1`,
inside the bitmap, and clear. -/
def FreeArea (map : Nat → BitVec 64) (size nr mask i : Nat) : Prop :=
  i &&& mask = 0 ∧ i + nr ≤ size ∧ ∀ j, i ≤ j → j < i + nr → wordsBit map j = false

/-- What the area search may return from `start`: the first free window from `start` on, or a
value past `size` when there is none. -/
def AreaOutcome (map : Nat → BitVec 64) (size start nr mask r : Nat) : Prop :=
  IsLeast {i | start ≤ i ∧ FreeArea map size nr mask i} r ∨
    ((∀ i, start ≤ i → ¬FreeArea map size nr mask i) ∧ size < r)

/-! #### Aligning up to a power of two -/

section Align

variable {k : Nat}

theorem alignMask_two_pow (x : Nat) :
    alignMask x (2 ^ k - 1) = (x + (2 ^ k - 1)) - (x + (2 ^ k - 1)) % 2 ^ k := by
  rw [alignMask, Nat.and_two_pow_sub_one_eq_mod]

theorem and_two_pow_sub_one_eq_zero {y : Nat} : y &&& (2 ^ k - 1) = 0 ↔ y % 2 ^ k = 0 := by
  rw [Nat.and_two_pow_sub_one_eq_mod]

theorem alignMask_aligned (x : Nat) : alignMask x (2 ^ k - 1) &&& (2 ^ k - 1) = 0 := by
  rw [and_two_pow_sub_one_eq_zero, alignMask_two_pow]
  exact Nat.sub_mod_eq_zero_of_mod_eq (Nat.mod_mod _ _).symm

theorem le_alignMask (x : Nat) : x ≤ alignMask x (2 ^ k - 1) := by
  have lt := Nat.mod_lt (x + (2 ^ k - 1)) (Nat.two_pow_pos k)
  rw [alignMask_two_pow]
  omega

theorem alignMask_le {x y : Nat} (le : x ≤ y) (aligned : y &&& (2 ^ k - 1) = 0) :
    alignMask x (2 ^ k - 1) ≤ y := by
  rw [and_two_pow_sub_one_eq_zero] at aligned
  obtain ⟨m, rfl⟩ := Nat.dvd_of_mod_eq_zero aligned
  have pos := Nat.two_pow_pos k
  -- the aligned value is `2^k` times the quotient, which is at most `m`
  have quot : (x + (2 ^ k - 1)) / 2 ^ k ≤ m := by
    apply Nat.le_of_lt_succ
    rw [Nat.div_lt_iff_lt_mul pos, Nat.succ_mul]
    have : 2 ^ k * m = m * 2 ^ k := Nat.mul_comm _ _
    omega
  have split := Nat.div_add_mod (x + (2 ^ k - 1)) (2 ^ k)
  have scaled := Nat.mul_le_mul_left (2 ^ k) quot
  rw [alignMask_two_pow]
  omega

end Align

/-! #### What the area search finds -/

section Area

variable {map : Nat → BitVec 64} {size nr k : Nat}

theorem findNextZeroBit_le {start : Nat} : findNextZeroBit map size start ≤ size := firstIn_le

theorem le_findNextZeroBit_of_lt {start : Nat} (lt : findNextZeroBit map size start < size) :
    start ≤ findNextZeroBit map size start :=
  le_firstIn_of_lt lt

theorem wordsBit_of_lt_findNextZeroBit {start j : Nat} (le : start ≤ j)
    (lt : j < findNextZeroBit map size start) : wordsBit map j = true := by
  simpa using firstIn_false (p := fun i => !wordsBit map i) le lt

theorem findNextBit_le {lo hi : Nat} : findNextBit map hi lo ≤ hi := firstIn_le

theorem le_findNextBit {lo hi : Nat} (le : lo ≤ hi) : lo ≤ findNextBit map hi lo := le_firstIn le

theorem wordsBit_findNextBit {lo hi : Nat} (lt : findNextBit map hi lo < hi) :
    wordsBit map (findNextBit map hi lo) = true :=
  firstIn_true lt

theorem wordsBit_of_lt_findNextBit {lo hi j : Nat} (le : lo ≤ j) (lt : j < findNextBit map hi lo) :
    wordsBit map j = false :=
  firstIn_false le lt

theorem FreeArea.clear {mask i : Nat} (pos : 0 < nr) (free : FreeArea map size nr mask i) :
    i < size ∧ wordsBit map i = false :=
  ⟨by have := free.2.1; omega, free.2.2 i le_rfl (by omega)⟩

theorem not_freeArea_below_index (pos : 0 < nr) {start i : Nat} (le : start ≤ i)
    (lt : i < alignMask (findNextZeroBit map size start) (2 ^ k - 1)) :
    ¬FreeArea map size nr (2 ^ k - 1) i := by
  intro free
  obtain ⟨-, clear⟩ := free.clear pos
  have past : findNextZeroBit map size start ≤ i := by
    by_contra before
    rw [@wordsBit_of_lt_findNextZeroBit map size start i le (by omega)] at clear
    cases clear
  exact absurd (alignMask_le past free.1) (by omega)

/-- Each round of the search from `start` either ends with the first free window from
`start0` on, or past `size` when there is none, or goes again past a set bit in the window it
tried, with no free window skipped. -/
theorem bitmapFindNextZeroAreaLoop_spec (pos : 0 < nr) (start0 : Nat) :
    ∀ {fuel start : Nat}, size + 1 ≤ fuel + min start size → start0 ≤ start →
      (∀ i, start0 ≤ i → i < start → ¬FreeArea map size nr (2 ^ k - 1) i) →
      AreaOutcome map size start0 nr (2 ^ k - 1)
        (bitmapFindNextZeroAreaLoop map size nr (2 ^ k - 1) fuel start)
  | 0, start, enough, _, _ => absurd enough (by omega)
  | fuel + 1, start, enough, past, skipped => by
    rw [bitmapFindNextZeroAreaLoop]
    have zle : findNextZeroBit map size start ≤ size := findNextZeroBit_le
    have above := le_alignMask (k := k) (findNextZeroBit map size start)
    have aligned := alignMask_aligned (k := k) (findNextZeroBit map size start)
    have below : ∀ i, start0 ≤ i → i < alignMask (findNextZeroBit map size start) (2 ^ k - 1) →
        ¬FreeArea map size nr (2 ^ k - 1) i := by
      intro i ge lt
      by_cases early : i < start
      · exact skipped i ge early
      · exact not_freeArea_below_index pos (by omega) lt
    have startz := fun lt => @le_findNextZeroBit_of_lt map size start lt
    generalize findNextZeroBit map size start = z at zle above aligned below startz
    generalize alignMask z (2 ^ k - 1) = index at above aligned below
    dsimp only
    split
    · next beyond =>
      -- a window from `index` on would end past `size`
      refine .inr ⟨fun i ge free => ?_, beyond⟩
      by_cases lt : i < index
      · exact below i ge lt free
      · have := free.2.1
        omega
    · next fits =>
      have zlt : z < size := by omega
      have le_z := startz zlt
      have ge_i : index ≤ findNextBit map (index + nr) index := le_findNextBit (by omega)
      have le_end : findNextBit map (index + nr) index ≤ index + nr := findNextBit_le
      have set_i := fun lt => @wordsBit_findNextBit map index (index + nr) lt
      have clear_before := fun j (lo : index ≤ j) lt =>
        @wordsBit_of_lt_findNextBit map index (index + nr) j lo lt
      generalize findNextBit map (index + nr) index = i at ge_i le_end set_i clear_before
      split
      · next blocked =>
        apply bitmapFindNextZeroAreaLoop_spec pos start0 (by omega) (by omega)
        intro c ge lt free
        by_cases low : c < index
        · exact below c ge low free
        · -- the window at `c` holds the set bit `i`
          have hit := set_i blocked
          rw [free.2.2 i (by omega) (by omega)] at hit
          cases hit
      · next clear =>
        refine .inl ⟨⟨by omega, aligned, by omega, fun j lo hi => clear_before j lo (by omega)⟩, ?_⟩
        rintro c ⟨ge, free⟩
        by_contra lt
        exact below c ge (by omega) free

/-- For `nr ≥ 1` and `align_mask = 2^k - 1`, `bitmap_find_next_zero_area` returns the first
free window from `start` on, or a value past `size` when there is none. -/
theorem bitmapFindNextZeroArea_spec (map : Nat → BitVec 64) (size start nr k : Nat) (pos : 0 < nr) :
    AreaOutcome map size start nr (2 ^ k - 1) (bitmapFindNextZeroArea map size start nr (2 ^ k - 1)) :=
  bitmapFindNextZeroAreaLoop_spec pos start (by omega) le_rfl fun _ ge lt => absurd lt (by omega)

end Area

/-- For `nr = 0` every window inside the bitmap is free, but the search starts from the first
clear bit: with bit 0 set, `size = 1`, `start = 0` and no alignment it returns 1, not 0. -/
theorem bitmapFindNextZeroArea_skips_empty_window :
    FreeArea (fun _ => 1) 1 0 0 0 ∧ bitmapFindNextZeroArea (fun _ => 1) 1 0 0 0 = 1 :=
  ⟨⟨rfl, by omega, fun _ _ hi => absurd hi (by omega)⟩, by decide⟩

/-! #### At the width of `unsigned long` -/

theorem toNat_and_not (x mask : UInt64) : (x &&& ~~~mask).toNat = x.toNat - (x.toNat &&& mask.toNat) := by
  have apart : (x.toBitVec &&& ~~~mask.toBitVec) &&& (x.toBitVec &&& mask.toBitVec) = 0 := by
    ext i
    simp only [BitVec.getElem_and, BitVec.getElem_not]
    cases x.toBitVec[i] <;> cases mask.toBitVec[i] <;> simp
  have whole : (x.toBitVec &&& ~~~mask.toBitVec) + (x.toBitVec &&& mask.toBitVec) = x.toBitVec := by
    rw [BitVec.add_eq_or_of_and_eq_zero _ _ apart]
    ext i
    simp only [BitVec.getElem_or, BitVec.getElem_and, BitVec.getElem_not]
    cases x.toBitVec[i] <;> cases mask.toBitVec[i] <;> rfl
  have sum := BitVec.toNat_add_of_and_eq_zero apart
  rw [whole, BitVec.toNat_and x.toBitVec mask.toBitVec] at sum
  simp only [UInt64.toNat_toBitVec] at sum
  show (x.toBitVec &&& ~~~mask.toBitVec).toNat = _
  omega

/-- The `again:` loop of `bitmap_find_next_zero_area` with the code's types: `index`, `end` and
`start` are `unsigned long`, whose sums wrap modulo `2^64`, and `nr` is an `unsigned int`. -/
def bitmapFindNextZeroAreaLoop64 (map : Nat → BitVec 64) (size : UInt64) (nr : UInt32) (mask : UInt64) :
    Nat → UInt64 → UInt64
  | 0, start => start
  | fuel + 1, start =>
    let index := (findNextZeroBit map size.toNat start.toNat).toUInt64
    -- `__ALIGN_MASK(index, align_mask)`
    let index := (index + mask) &&& ~~~mask
    let end_ := index + nr.toUInt64
    if end_ > size then end_
    else
      let i := (findNextBit map end_.toNat index.toNat).toUInt64
      if i < end_ then bitmapFindNextZeroAreaLoop64 map size nr mask fuel (i + 1) else index

/-- `bitmap_find_next_zero_area(map, size, start, nr, align_mask)` with the code's types. -/
def bitmapFindNextZeroArea64 (map : Nat → BitVec 64) (size start : UInt64) (nr : UInt32) (mask : UInt64) :
    UInt64 :=
  bitmapFindNextZeroAreaLoop64 map size nr mask (size.toNat + 1) start

section Width

variable {map : Nat → BitVec 64} {size mask : UInt64} {nr : UInt32}

theorem bitmapFindNextZeroAreaLoop64_toNat (sizeLt : size.toNat < 2 ^ 62) (maskLt : mask.toNat < 2 ^ 62) :
    ∀ fuel (start : UInt64), (bitmapFindNextZeroAreaLoop64 map size nr mask fuel start).toNat =
      bitmapFindNextZeroAreaLoop map size.toNat nr.toNat mask.toNat fuel start.toNat
  | 0, _ => rfl
  | fuel + 1, start => by
    have nrLt := nr.toNat_lt
    simp only [bitmapFindNextZeroAreaLoop64, bitmapFindNextZeroAreaLoop]
    have zle : findNextZeroBit map size.toNat start.toNat ≤ size.toNat := findNextZeroBit_le
    generalize findNextZeroBit map size.toNat start.toNat = z at zle ⊢
    -- `index`: the aligned first clear bit, below `2^63`
    have index : ((z.toUInt64 + mask) &&& ~~~mask).toNat = alignMask z mask.toNat := by
      rw [toNat_and_not, UInt64.toNat_add, UInt64.toNat_ofNat_of_lt' (by unfold UInt64.size; omega), Nat.mod_eq_of_lt (by omega)]
      rfl
    have indexLe : alignMask z mask.toNat ≤ z + mask.toNat := Nat.sub_le _ _
    generalize (z.toUInt64 + mask) &&& ~~~mask = idx at index ⊢
    generalize alignMask z mask.toNat = a at index indexLe ⊢
    -- `end = index + nr`
    have endEq : (idx + nr.toUInt64).toNat = a + nr.toNat := by
      rw [UInt64.toNat_add, index, UInt32.toNat_toUInt64]
      exact Nat.mod_eq_of_lt (by omega)
    have beyond : idx + nr.toUInt64 > size ↔ size.toNat < a + nr.toNat := by
      rw [gt_iff_lt, UInt64.lt_iff_toNat_lt, endEq]
    by_cases past : size.toNat < a + nr.toNat
    · rw [if_pos (beyond.mpr past), if_pos past, endEq]
    · rw [if_neg (mt beyond.mp past), if_neg past, endEq, index]
      have ile : findNextBit map (a + nr.toNat) a ≤ a + nr.toNat := findNextBit_le
      generalize findNextBit map (a + nr.toNat) a = i at ile ⊢
      have iWord : i.toUInt64.toNat = i := UInt64.toNat_ofNat_of_lt' (by unfold UInt64.size; omega)
      have blocked : i.toUInt64 < idx + nr.toUInt64 ↔ i < a + nr.toNat := by
        rw [UInt64.lt_iff_toNat_lt, iWord, endEq]
      by_cases hit : i < a + nr.toNat
      · -- `start = i + 1`, below `2^64`
        have next : (i.toUInt64 + 1).toNat = i + 1 := by
          rw [UInt64.toNat_add, iWord, UInt64.toNat_one]
          exact Nat.mod_eq_of_lt (by omega)
        rw [if_pos (blocked.mpr hit), if_pos hit, bitmapFindNextZeroAreaLoop64_toNat sizeLt maskLt fuel, next]
      · rw [if_neg (mt blocked.mp hit), if_neg hit, index]

/-- At the code's width, for `size < 2^62`, `nr ≥ 1` and `align_mask = 2^k - 1` with `k < 62`,
`bitmap_find_next_zero_area` returns the first free window from `start` on, or a value past
`size` when there is none. -/
theorem bitmapFindNextZeroArea64_spec (sizeLt : size.toNat < 2 ^ 62) {k : Nat} (kLt : k < 62)
    (maskEq : mask.toNat = 2 ^ k - 1) (pos : 0 < nr.toNat) (start : UInt64) :
    AreaOutcome map size.toNat start.toNat nr.toNat (2 ^ k - 1)
      (bitmapFindNextZeroArea64 map size start nr mask).toNat := by
  have maskLt : mask.toNat < 2 ^ 62 := by
    have := Nat.pow_lt_pow_right (by decide : 1 < 2) kLt
    omega
  unfold bitmapFindNextZeroArea64
  rw [bitmapFindNextZeroAreaLoop64_toNat sizeLt maskLt, maskEq]
  exact bitmapFindNextZeroArea_spec map _ _ _ k pos

/-- Four clear bits aligned to four after the four set bits of each word. -/
theorem bitmapFindNextZeroArea64_spec_aligned :
    (16 : UInt64).toNat < 2 ^ 62 ∧ 2 < 62 ∧ (3 : UInt64).toNat = 2 ^ 2 - 1 ∧ 0 < (4 : UInt32).toNat ∧
      AreaOutcome (fun _ => 0x0f) (16 : UInt64).toNat (0 : UInt64).toNat (4 : UInt32).toNat (2 ^ 2 - 1)
        (bitmapFindNextZeroArea64 (fun _ => 0x0f) 16 0 4 3).toNat :=
  ⟨by decide, by decide, by decide, by decide,
    bitmapFindNextZeroArea64_spec (by decide) (by decide) (by decide) (by decide) 0⟩

end Width

/-! ### Regions: `__reg_op` -/

/-- The requests `__reg_op` serves: `REG_OP_ISFREE`, `REG_OP_ALLOC`, `REG_OP_RELEASE`. -/
inductive RegOp where
  | isFree | alloc | release
  deriving DecidableEq, Repr

/-- The mask of `__reg_op` for the region of `2^order` bits at `pos`: `nbitsinlong` ones, built
in two steps so as not to shift by `BITS_PER_LONG`, moved to the region's offset in its first
word. -/
def regOpMask (pos order : Nat) : BitVec 64 :=
  let nbitsinlong := min (2 ^ order) bitsPerLong
  let mask : BitVec 64 := 1 <<< (nbitsinlong - 1)
  let mask := mask + (mask - 1)
  mask <<< (pos - pos / bitsPerLong * bitsPerLong)

/-- `__reg_op(bitmap, pos, order, reg_op)`: whether the region is free, for `REG_OP_ISFREE`,
and the bitmap it leaves. The region takes `BITS_TO_LONGS(2^order)` words from `pos / 64` on,
each under the same mask. -/
def regOp (bitmap : Nat → BitVec 64) (pos order : Nat) (op : RegOp) :
    Bool × (Nat → BitVec 64) :=
  let index := pos / bitsPerLong
  let nlongsReg := bitsToLongs (2 ^ order)
  let mask := regOpMask pos order
  match op with
  | .isFree => ((List.range nlongsReg).all fun i => bitmap (index + i) &&& mask == 0, bitmap)
  | .alloc =>
    (false, fun a => if index ≤ a ∧ a < index + nlongsReg then bitmap a ||| mask else bitmap a)
  | .release =>
    (false, fun a => if index ≤ a ∧ a < index + nlongsReg then bitmap a &&& ~~~mask else bitmap a)

/-- The loop `for (pos = 0; (end = pos + (1 << order)) <= bits; pos = end)` of
`bitmap_find_free_region` from `pos`, for `fuel` rounds. -/
def bitmapFindFreeRegionLoop (bitmap : Nat → BitVec 64) (bits order : Nat) :
    Nat → Nat → Except Errno Nat × (Nat → BitVec 64)
  | 0, _ => (.error .noMem, bitmap)
  | fuel + 1, pos =>
    if pos + 2 ^ order ≤ bits then
      if (regOp bitmap pos order .isFree).1 then (.ok pos, (regOp bitmap pos order .alloc).2)
      else bitmapFindFreeRegionLoop bitmap bits order fuel (pos + 2 ^ order)
    else (.error .noMem, bitmap)

/-- `bitmap_find_free_region(bitmap, bits, order)`: the position of the region it sets, or
`-ENOMEM`, and the bitmap it leaves. The loop takes at most `bits / 2^order + 1` rounds. -/
def bitmapFindFreeRegion (bitmap : Nat → BitVec 64) (bits order : Nat) :
    Except Errno Nat × (Nat → BitVec 64) :=
  bitmapFindFreeRegionLoop bitmap bits order (bits / 2 ^ order + 1) 0

def bitmapReleaseRegion (bitmap : Nat → BitVec 64) (pos order : Nat) : Nat → BitVec 64 :=
  (regOp bitmap pos order .release).2

/-- `bitmap_allocate_region(bitmap, pos, order)`: 0, or `-EBUSY` when the region is not
free. -/
def bitmapAllocateRegion (bitmap : Nat → BitVec 64) (pos order : Nat) :
    Except Errno Unit × (Nat → BitVec 64) :=
  if (regOp bitmap pos order .isFree).1 then (.ok (), (regOp bitmap pos order .alloc).2)
  else (.error .busy, bitmap)

/-! #### The mask covers the region -/

theorem regOpMask_eq (pos order : Nat) :
    regOpMask pos order = BitVec.ofNat 64 (2 ^ min (2 ^ order) 64 - 1) <<< (pos % 64) := by
  have offset : pos - pos / bitsPerLong * bitsPerLong = pos % 64 := by
    unfold bitsPerLong
    omega
  unfold regOpMask
  dsimp only
  rw [offset]
  congr 1
  rcases Nat.lt_or_ge order 6 with small | large
  · interval_cases order <;> decide
  · have whole : min (2 ^ order) 64 = 64 :=
      min_eq_right (le_trans (by decide) (Nat.pow_le_pow_right (by decide) large))
    simp only [bitsPerLong, whole]
    decide

theorem getLsbD_regOpMask (pos order : Nat) {b : Nat} (hb : b < 64) :
    (regOpMask pos order).getLsbD b = decide (pos % 64 ≤ b ∧ b - pos % 64 < min (2 ^ order) 64) := by
  rw [regOpMask_eq, BitVec.getLsbD_shiftLeft, BitVec.getLsbD_ofNat, Nat.testBit_two_pow_sub_one]
  by_cases off : pos % 64 ≤ b
  · simp [hb, off, show b - pos % 64 < 64 by omega]
  · simp [off, show b < pos % 64 by omega]

/-- For a region aligned to its size, bit `i` lies under the mask in one of the region's words
exactly when it lies in the region: one word for orders up to 6, whole words above. -/
theorem regOp_covers {pos order : Nat} (aligned : pos % 2 ^ order = 0) (i : Nat) :
    (pos / 64 ≤ i / 64 ∧ i / 64 < pos / 64 + bitsToLongs (2 ^ order) ∧
      (regOpMask pos order).getLsbD (i % 64) = true) ↔ (pos ≤ i ∧ i < pos + 2 ^ order) := by
  rw [getLsbD_regOpMask pos order (Nat.mod_lt i (by decide)), decide_eq_true_iff]
  unfold bitsToLongs bitsPerLong
  rcases Nat.lt_or_ge order 6 with small | large
  · interval_cases order <;> simp only [Nat.reducePow] at aligned ⊢ <;> omega
  · obtain ⟨t, ht⟩ : ∃ t, 2 ^ order = 64 * t :=
      ⟨2 ^ (order - 6), by
        rw [show (64 : Nat) = 2 ^ 6 from rfl, ← Nat.pow_add, show 6 + (order - 6) = order by omega]⟩
    have word : pos % 64 = 0 := by
      rw [ht] at aligned
      exact Nat.mod_eq_zero_of_dvd (dvd_trans (Dvd.intro t rfl) (Nat.dvd_of_mod_eq_zero aligned))
    have one : 1 ≤ t := by
      have := Nat.two_pow_pos order
      omega
    rw [ht]
    omega

/-! #### What the region operations do -/

/-- The region of `2^order` bits at `pos` that `bitmap_find_free_region` looks for: aligned,
inside the bitmap, and clear. -/
def FreeRegion (bitmap : Nat → BitVec 64) (bits order pos : Nat) : Prop :=
  pos % 2 ^ order = 0 ∧ pos + 2 ^ order ≤ bits ∧
    ∀ i, pos ≤ i → i < pos + 2 ^ order → wordsBit bitmap i = false

/-- What `bitmap_find_free_region` may return: the first free region, with exactly its bits
set, or `-ENOMEM` with the bitmap unchanged when no region is free. -/
def FreeRegionOutcome (bitmap : Nat → BitVec 64) (bits order : Nat) :
    Except Errno Nat × (Nat → BitVec 64) → Prop
  | (.ok p, after) => IsLeast {q | FreeRegion bitmap bits order q} p ∧
      ∀ i, wordsBit after i = (wordsBit bitmap i || decide (p ≤ i ∧ i < p + 2 ^ order))
  | (.error e, after) => e = .noMem ∧ after = bitmap ∧ ∀ q, ¬FreeRegion bitmap bits order q

section Region

variable {bitmap : Nat → BitVec 64} {pos order : Nat}

theorem regOp_isFree_iff (aligned : pos % 2 ^ order = 0) :
    (regOp bitmap pos order .isFree).1 = true ↔
      ∀ i, pos ≤ i → i < pos + 2 ^ order → wordsBit bitmap i = false := by
  simp only [regOp, List.all_eq_true, List.mem_range, beq_iff_eq, bitsPerLong]
  constructor
  · intro zero i lo hi
    obtain ⟨first, last, under⟩ := (regOp_covers aligned i).mpr ⟨lo, hi⟩
    have word := congrArg (fun v => v.getLsbD (i % 64)) (zero (i / 64 - pos / 64) (by omega))
    simp only [BitVec.getLsbD_and, under, Bool.and_true,
      show pos / 64 + (i / 64 - pos / 64) = i / 64 by omega] at word
    simpa [wordsBit, bitsPerLong] using word
  · intro clear k lt
    apply BitVec.eq_of_getLsbD_eq
    intro b hb
    have zero : (0 : BitVec 64).getLsbD b = false := by simp
    rw [BitVec.getLsbD_and, zero]
    cases under : (regOpMask pos order).getLsbD b
    · exact Bool.and_false _
    · -- a bit under the mask is a bit of the region, which is clear
      have inside := (regOp_covers aligned (64 * (pos / 64 + k) + b)).mp
        ⟨by omega, by omega, by rwa [show (64 * (pos / 64 + k) + b) % 64 = b by omega]⟩
      rw [← wordsBit_word bitmap hb, clear _ inside.1 inside.2, Bool.false_and]

theorem getLsbD_regOpMask_of_word (aligned : pos % 2 ^ order = 0) {i : Nat}
    (inside : pos / 64 ≤ i / 64 ∧ i / 64 < pos / 64 + bitsToLongs (2 ^ order)) :
    (regOpMask pos order).getLsbD (i % 64) = decide (pos ≤ i ∧ i < pos + 2 ^ order) := by
  rw [Bool.eq_iff_iff, decide_eq_true_iff, ← regOp_covers aligned i]
  exact ⟨fun under => ⟨inside.1, inside.2, under⟩, fun h => h.2.2⟩

theorem not_region_of_word (aligned : pos % 2 ^ order = 0) {i : Nat}
    (outside : ¬(pos / 64 ≤ i / 64 ∧ i / 64 < pos / 64 + bitsToLongs (2 ^ order))) :
    ¬(pos ≤ i ∧ i < pos + 2 ^ order) := fun region =>
  have word := (regOp_covers aligned i).mpr region
  outside ⟨word.1, word.2.1⟩

theorem wordsBit_regOp_alloc (aligned : pos % 2 ^ order = 0) (i : Nat) :
    wordsBit (regOp bitmap pos order .alloc).2 i =
      (wordsBit bitmap i || decide (pos ≤ i ∧ i < pos + 2 ^ order)) := by
  simp only [regOp, wordsBit]
  by_cases inside : pos / bitsPerLong ≤ i / bitsPerLong ∧
      i / bitsPerLong < pos / bitsPerLong + bitsToLongs (2 ^ order)
  · rw [if_pos inside, BitVec.getLsbD_or]
    simp only [bitsPerLong] at inside ⊢
    rw [getLsbD_regOpMask_of_word aligned inside]
  · rw [if_neg inside]
    simp only [bitsPerLong] at inside ⊢
    simp [not_region_of_word aligned inside]

theorem wordsBit_bitmapReleaseRegion (aligned : pos % 2 ^ order = 0) (i : Nat) :
    wordsBit (bitmapReleaseRegion bitmap pos order) i =
      (wordsBit bitmap i && !decide (pos ≤ i ∧ i < pos + 2 ^ order)) := by
  simp only [bitmapReleaseRegion, regOp, wordsBit]
  by_cases inside : pos / bitsPerLong ≤ i / bitsPerLong ∧
      i / bitsPerLong < pos / bitsPerLong + bitsToLongs (2 ^ order)
  · rw [if_pos inside, BitVec.getLsbD_and, BitVec.getLsbD_not]
    simp only [bitsPerLong] at inside ⊢
    rw [getLsbD_regOpMask_of_word aligned inside]
    simp [Nat.mod_lt i]
  · rw [if_neg inside]
    simp only [bitsPerLong] at inside ⊢
    simp [not_region_of_word aligned inside]

/-- `bitmap_allocate_region` sets exactly a free region, and leaves a region that is not free
as it was with `-EBUSY`. -/
theorem bitmapAllocateRegion_spec (aligned : pos % 2 ^ order = 0) :
    ((bitmapAllocateRegion bitmap pos order).1 = .ok () ∧
        (∀ i, pos ≤ i → i < pos + 2 ^ order → wordsBit bitmap i = false) ∧
        ∀ i, wordsBit (bitmapAllocateRegion bitmap pos order).2 i =
          (wordsBit bitmap i || decide (pos ≤ i ∧ i < pos + 2 ^ order))) ∨
      (bitmapAllocateRegion bitmap pos order = (.error .busy, bitmap) ∧
        ¬∀ i, pos ≤ i → i < pos + 2 ^ order → wordsBit bitmap i = false) := by
  unfold bitmapAllocateRegion
  split
  · next free =>
    exact .inl ⟨rfl, (regOp_isFree_iff aligned).mp free, wordsBit_regOp_alloc aligned⟩
  · next taken =>
    exact .inr ⟨rfl, fun clear => taken ((regOp_isFree_iff aligned).mpr clear)⟩

theorem bitmapAllocateRegion_spec_aligned :
    8 % 2 ^ 3 = 0 ∧
      (((bitmapAllocateRegion (fun _ => 0) 8 3).1 = .ok () ∧
          (∀ i, 8 ≤ i → i < 8 + 2 ^ 3 → wordsBit (fun _ => 0) i = false) ∧
          ∀ i, wordsBit (bitmapAllocateRegion (fun _ => 0) 8 3).2 i =
            (wordsBit (fun _ => 0) i || decide (8 ≤ i ∧ i < 8 + 2 ^ 3))) ∨
        (bitmapAllocateRegion (fun _ => 0) 8 3 = (.error .busy, fun _ => 0) ∧
          ¬∀ i, 8 ≤ i → i < 8 + 2 ^ 3 → wordsBit (fun _ => 0) i = false)) :=
  ⟨by decide, @bitmapAllocateRegion_spec (fun _ => 0) 8 3 (by decide)⟩

theorem eq_of_aligned {q : Nat} (hq : q % 2 ^ order = 0) (hp : pos % 2 ^ order = 0)
    (le : pos ≤ q) (lt : q < pos + 2 ^ order) : q = pos := by
  obtain ⟨a, rfl⟩ := Nat.dvd_of_mod_eq_zero hq
  obtain ⟨b, rfl⟩ := Nat.dvd_of_mod_eq_zero hp
  have ge : b ≤ a := Nat.le_of_mul_le_mul_left le (Nat.two_pow_pos order)
  have lt' : a < b + 1 := Nat.lt_of_mul_lt_mul_left (a := 2 ^ order) (by rw [Nat.mul_succ]; omega)
  rw [show a = b by omega]

/-- Each round of the region search at the aligned `pos` sets the region there if it is free
and otherwise moves on to the next, with no free region skipped; the rounds end at `bits`. -/
theorem bitmapFindFreeRegionLoop_spec (bits : Nat) :
    ∀ {fuel pos : Nat}, pos % 2 ^ order = 0 → bits < pos + fuel * 2 ^ order →
      (∀ q < pos, ¬FreeRegion bitmap bits order q) →
      FreeRegionOutcome bitmap bits order (bitmapFindFreeRegionLoop bitmap bits order fuel pos)
  | 0, pos, _, enough, skipped => by
    refine ⟨rfl, rfl, fun q free => ?_⟩
    by_cases lt : q < pos
    · exact skipped q lt free
    · have := free.2.1
      omega
  | fuel + 1, pos, aligned, enough, skipped => by
    rw [bitmapFindFreeRegionLoop]
    split
    · next fits =>
      split
      · next free =>
        refine ⟨⟨⟨aligned, fits, (regOp_isFree_iff aligned).mp free⟩, fun q hq => ?_⟩,
          wordsBit_regOp_alloc aligned⟩
        by_contra lt
        exact skipped q (by omega) hq
      · next taken =>
        apply bitmapFindFreeRegionLoop_spec bits
          (by rw [Nat.add_mod_right, aligned]) (by rw [Nat.succ_mul] at enough; omega)
        intro q lt free
        by_cases early : q < pos
        · exact skipped q early free
        · -- the only aligned position of the region at `pos` is `pos`
          obtain rfl := eq_of_aligned free.1 aligned (by omega) lt
          exact taken ((regOp_isFree_iff aligned).mpr free.2.2)
    · next beyond =>
      refine ⟨rfl, rfl, fun q free => ?_⟩
      by_cases early : q < pos
      · exact skipped q early free
      · have := free.2.1
        omega

theorem bitmapFindFreeRegion_spec (bitmap : Nat → BitVec 64) (bits order : Nat) :
    FreeRegionOutcome bitmap bits order (bitmapFindFreeRegion bitmap bits order) := by
  have enough := Nat.lt_div_mul_add (a := bits) (Nat.two_pow_pos order)
  exact bitmapFindFreeRegionLoop_spec bits (Nat.zero_mod _) (by rw [Nat.succ_mul]; omega)
    fun q lt => absurd lt (Nat.not_lt_zero q)

theorem bitmapReleaseRegion_findFreeRegion {bits p : Nat} {after : Nat → BitVec 64}
    (found : bitmapFindFreeRegion bitmap bits order = (.ok p, after)) :
    bitmapReleaseRegion after p order = bitmap := by
  have out := bitmapFindFreeRegion_spec bitmap bits order
  rw [found] at out
  obtain ⟨⟨⟨aligned, -, clear⟩, -⟩, set⟩ := out
  funext a
  apply BitVec.eq_of_getLsbD_eq
  intro b hb
  rw [← wordsBit_word _ hb, ← wordsBit_word _ hb, wordsBit_bitmapReleaseRegion aligned, set]
  by_cases inside : p ≤ 64 * a + b ∧ 64 * a + b < p + 2 ^ order
  · simp [inside, clear _ inside.1 inside.2]
  · simp [inside]

end Region

/-- For `nr ≥ 1` and `align_mask = 2^k - 1`, `bitmap_find_next_zero_area` returns the first
free window from `start` on, or a value past `size` when there is none; for every order,
`bitmap_find_free_region` sets exactly the first free aligned region, or returns `-ENOMEM` and
changes nothing; and `bitmap_release_region` of the region it set gives the bitmap back. -/
theorem bitmapZeroArea_freeRegion_spec (map : Nat → BitVec 64) (size start nr k : Nat)
    (bitmap : Nat → BitVec 64) (bits order : Nat) (pos : 0 < nr) :
    AreaOutcome map size start nr (2 ^ k - 1)
        (bitmapFindNextZeroArea map size start nr (2 ^ k - 1)) ∧
      FreeRegionOutcome bitmap bits order (bitmapFindFreeRegion bitmap bits order) ∧
      ∀ p after, bitmapFindFreeRegion bitmap bits order = (.ok p, after) →
        bitmapReleaseRegion after p order = bitmap :=
  ⟨bitmapFindNextZeroArea_spec map size start nr k pos, bitmapFindFreeRegion_spec bitmap bits order,
    fun _ _ found => bitmapReleaseRegion_findFreeRegion found⟩

/-- With bits 1, 2, 5 and 6 set the first two clear bits in a row start at 3; with bits 1 and 2
set the first free region of order 1 is at 4. -/
theorem bitmapZeroArea_freeRegion_spec_partial :
    0 < 2 ∧ bitmapFindNextZeroArea (fun _ => 0x66) 8 0 2 (2 ^ 0 - 1) = 3 ∧
      (bitmapFindFreeRegion (fun _ => 0x06) 8 1).1 = .ok 4 ∧
      (AreaOutcome (fun _ => 0x66) 8 0 2 (2 ^ 0 - 1)
          (bitmapFindNextZeroArea (fun _ => 0x66) 8 0 2 (2 ^ 0 - 1)) ∧
        FreeRegionOutcome (fun _ => 0x06) 8 1 (bitmapFindFreeRegion (fun _ => 0x06) 8 1) ∧
        ∀ p after, bitmapFindFreeRegion (fun _ => 0x06) 8 1 = (.ok p, after) →
          bitmapReleaseRegion after p 1 = fun _ => 0x06) :=
  ⟨by decide, by decide, rfl, bitmapZeroArea_freeRegion_spec (fun _ => 0x66) 8 0 2 0 (fun _ => 0x06) 8 1 (by decide)⟩

end LinuxKernel
