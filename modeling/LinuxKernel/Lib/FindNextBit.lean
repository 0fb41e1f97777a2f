import LinuxKernel.Lib.BitmapArea

/-!
# Searching and filling a bitmap a word at a time (`lib/find_next_bit.c`, `lib/bitmap.c`)

`find_next_bit`, `find_next_zero_bit` and the `find_first` loops return the first set (clear)
bit of `[offset, size)`, or `size` (`findNextBit_eq_firstIn`); `bitmap_set` and `bitmap_clear`
change exactly the bits of `[start, start + nr)` (`bitmapFill_spec`).
-/

namespace LinuxKernel.FindNextBit

open Bitmap (firstIn firstIn_eq_of_true firstIn_eq_hi firstIn_split)

/-- `__ffs(word)`: the position of the lowest set bit of a nonzero word. -/
def ffs (word : BitVec 64) : Nat := word.ctz.toNat

/-- `ffz(word)`, `__ffs(~word)`: the position of the lowest clear bit. -/
def ffz (word : BitVec 64) : Nat := ffs (~~~word)

theorem ffz_eq_ffs_not (word : BitVec 64) : ffz word = ffs (~~~word) := rfl

/-! ### `find_next_bit` -/

/-- `found_first:` of `find_next_bit`: the word `tmp` cut to its low `size` bits. -/
def foundFirstBit (tmp : BitVec 64) (result size : Nat) : Nat :=
  let tmp := tmp &&& (BitVec.allOnes 64 >>> (bitsPerLong - size))
  if tmp = 0 then result + size else result + ffs tmp

/-- The loop `while (size & ~(BITS_PER_LONG-1))` of `find_next_bit` over the whole words from
word `p` on, then the last word, for `fuel` rounds. -/
def nextBitWords (map : Nat → BitVec 64) : Nat → Nat → Nat → Nat → Option Nat
  | 0, _, _, _ => none
  | fuel + 1, p, result, size =>
    if bitsPerLong ≤ size then
      if map p ≠ 0 then some (result + ffs (map p))
      else nextBitWords map fuel (p + 1) (result + bitsPerLong) (size - bitsPerLong)
    else if size = 0 then some result
    else some (foundFirstBit (map p) result size)

theorem nextBitWords_succ (map : Nat → BitVec 64) (fuel p result size : Nat) :
    nextBitWords map (fuel + 1) p result size =
      if bitsPerLong ≤ size then
        if map p ≠ 0 then some (result + ffs (map p))
        else nextBitWords map fuel (p + 1) (result + bitsPerLong) (size - bitsPerLong)
      else if size = 0 then some result
      else some (foundFirstBit (map p) result size) :=
  rfl

def findNextBit (map : Nat → BitVec 64) (size offset : Nat) : Option Nat :=
  if offset ≥ size then some size
  else
    let p := offset / bitsPerLong
    -- `offset & ~(BITS_PER_LONG-1)`
    let result := p * bitsPerLong
    let size := size - result
    let offset := offset % bitsPerLong
    if offset ≠ 0 then
      let tmp := map p &&& (BitVec.allOnes 64 <<< offset)
      if size < bitsPerLong then some (foundFirstBit tmp result size)
      else if tmp ≠ 0 then some (result + ffs tmp)
      else nextBitWords map (size / bitsPerLong) (p + 1) (result + bitsPerLong) (size - bitsPerLong)
    else nextBitWords map (size / bitsPerLong + 1) p result size

/-- `find_first_bit(addr, size)`: the loop of `find_next_bit` from word 0. -/
def findFirstBit (map : Nat → BitVec 64) (size : Nat) : Option Nat :=
  nextBitWords map (size / bitsPerLong + 1) 0 0 size

/-! ### `find_next_zero_bit` -/

/-- `found_first:` of `find_next_zero_bit`: the word `tmp` with its bits from `size` on set. -/
def foundFirstZeroBit (tmp : BitVec 64) (result size : Nat) : Nat :=
  let tmp := tmp ||| (BitVec.allOnes 64 <<< size)
  if tmp = BitVec.allOnes 64 then result + size else result + ffz tmp

/-- The whole-word loop of `find_next_zero_bit`, then the last word, for `fuel` rounds. -/
def nextZeroBitWords (map : Nat → BitVec 64) : Nat → Nat → Nat → Nat → Option Nat
  | 0, _, _, _ => none
  | fuel + 1, p, result, size =>
    if bitsPerLong ≤ size then
      if ~~~map p ≠ 0 then some (result + ffz (map p))
      else nextZeroBitWords map fuel (p + 1) (result + bitsPerLong) (size - bitsPerLong)
    else if size = 0 then some result
    else some (foundFirstZeroBit (map p) result size)

theorem nextZeroBitWords_succ (map : Nat → BitVec 64) (fuel p result size : Nat) :
    nextZeroBitWords map (fuel + 1) p result size =
      if bitsPerLong ≤ size then
        if ~~~map p ≠ 0 then some (result + ffz (map p))
        else nextZeroBitWords map fuel (p + 1) (result + bitsPerLong) (size - bitsPerLong)
      else if size = 0 then some result
      else some (foundFirstZeroBit (map p) result size) :=
  rfl

def findNextZeroBit (map : Nat → BitVec 64) (size offset : Nat) : Option Nat :=
  if offset ≥ size then some size
  else
    let p := offset / bitsPerLong
    let result := p * bitsPerLong
    let size := size - result
    let offset := offset % bitsPerLong
    if offset ≠ 0 then
      let tmp := map p ||| (BitVec.allOnes 64 >>> (bitsPerLong - offset))
      if size < bitsPerLong then some (foundFirstZeroBit tmp result size)
      else if ~~~tmp ≠ 0 then some (result + ffz tmp)
      else nextZeroBitWords map (size / bitsPerLong) (p + 1) (result + bitsPerLong) (size - bitsPerLong)
    else nextZeroBitWords map (size / bitsPerLong + 1) p result size

def findFirstZeroBit (map : Nat → BitVec 64) (size : Nat) : Option Nat :=
  nextZeroBitWords map (size / bitsPerLong + 1) 0 0 size

/-! ### The masks and `__ffs` -/

theorem getLsbD_allOnes_shiftLeft (s : Nat) {b : Nat} (hb : b < 64) :
    (BitVec.allOnes 64 <<< s).getLsbD b = decide (s ≤ b) := by
  rw [BitVec.getLsbD_shiftLeft, BitVec.getLsbD_allOnes]
  by_cases le : s ≤ b
  · simp [hb, le, show b - s < 64 by omega]
  · simp [le, show b < s by omega]

theorem getLsbD_allOnes_ushiftRight (s : Nat) {b : Nat} (hb : b < 64) :
    (BitVec.allOnes 64 >>> (bitsPerLong - s)).getLsbD b = decide (b < s) := by
  rw [BitVec.getLsbD_ushiftRight, BitVec.getLsbD_allOnes, bitsPerLong, decide_eq_decide]
  omega

theorem ffs_spec {word : BitVec 64} (nonzero : word ≠ 0) :
    ffs word < 64 ∧ word.getLsbD (ffs word) = true ∧ ∀ j < ffs word, word.getLsbD j = false := by
  refine ⟨?_, BitVec.getLsbD_true_ctz_of_ne_zero nonzero, fun j lt => BitVec.getLsbD_false_of_lt_ctz lt⟩
  have lt := BitVec.ctz_lt_iff_ne_zero.mpr nonzero
  rw [BitVec.lt_def] at lt
  exact lt

theorem wordsBit_eq (map : Nat → BitVec 64) (i : Nat) :
    wordsBit map i = (map (i / 64)).getLsbD (i % 64) :=
  rfl

theorem wordsBit_word (map : Nat → BitVec 64) (p : Nat) {b : Nat} (hb : b < 64) :
    wordsBit map (p * 64 + b) = (map p).getLsbD b := by
  have word : (p * 64 + b) / 64 = p := by omega
  have bit : (p * 64 + b) % 64 = b := by omega
  rw [wordsBit_eq, word, bit]

/-- The search over the bits `[s, e)` of one word: a word `tmp` holding exactly the bits of that
range where `P` holds is 0 when there are none, and otherwise its `__ffs` is the first. -/
theorem firstIn_word {P : Nat → Bool} {tmp : BitVec 64} {r s e : Nat} (se : s ≤ e) (e64 : e ≤ 64)
    (bits : ∀ b < 64, tmp.getLsbD b = (decide (s ≤ b ∧ b < e) && P (r + b))) :
    firstIn P (r + s) (r + e) = if tmp = 0 then r + e else r + ffs tmp := by
  split
  · rename_i zero
    refine firstIn_eq_hi fun j lo hi => ?_
    have := bits (j - r) (by omega)
    simpa [zero, show r + (j - r) = j by omega, show s ≤ j - r ∧ j - r < e by omega] using this.symm
  · rename_i nonzero
    obtain ⟨lt, set, below⟩ := ffs_spec nonzero
    rw [bits _ lt, Bool.and_eq_true, decide_eq_true_eq] at set
    refine firstIn_eq_of_true (by omega) (by omega) set.2 fun j lo hi => ?_
    have := below (j - r) (by omega)
    rw [bits _ (by omega), show r + (j - r) = j by omega] at this
    simpa [show s ≤ j - r ∧ j - r < e by omega] using this

theorem foundFirstBit_eq {P : Nat → Bool} {tmp : BitVec 64} {r s size : Nat} (le : s ≤ size)
    (small : size < 64) (bits : ∀ b < 64, tmp.getLsbD b = (decide (s ≤ b) && P (r + b))) :
    foundFirstBit tmp r size = firstIn P (r + s) (r + size) := by
  have cut : ∀ b < 64, (tmp &&& (BitVec.allOnes 64 >>> (bitsPerLong - size))).getLsbD b =
      (decide (s ≤ b ∧ b < size) && P (r + b)) := by
    intro b hb
    rw [BitVec.getLsbD_and, getLsbD_allOnes_ushiftRight _ hb, bits b hb]
    by_cases lo : s ≤ b <;> by_cases hi : b < size <;> simp [lo, hi]
  rw [firstIn_word le (by omega) cut]
  rfl

/-! ### The searches are the first position of the range -/

/-- The loop over whole words from word `p` on, with `size` bits left, is the search of
`[p * 64, p * 64 + size)`, given more rounds than whole words. By induction on the fuel: a
nonzero word holds the first position, a zero one passes the search on to the next. -/
theorem nextBitWords_eq (map : Nat → BitVec 64) :
    ∀ (fuel p size : Nat), size / 64 < fuel →
      nextBitWords map fuel p (p * 64) size = some (firstIn (wordsBit map) (p * 64) (p * 64 + size)) := by
  intro fuel
  induction fuel with
  | zero => intro p size enough; omega
  | succ fuel ih =>
    intro p size enough
    rw [nextBitWords_succ]
    unfold bitsPerLong
    by_cases full : 64 ≤ size
    · rw [if_pos full]
      -- word `p` is the search of its own 64 bits
      have word : firstIn (wordsBit map) (p * 64) (p * 64 + 64) =
          if map p = 0 then p * 64 + 64 else p * 64 + ffs (map p) := by
        refine firstIn_word (r := p * 64) (s := 0) (by omega) (Nat.le_refl _) fun b hb => ?_
        rw [wordsBit_word map p hb]
        simp [hb]
      rw [firstIn_split (show p * 64 ≤ p * 64 + 64 by omega) (show p * 64 + 64 ≤ p * 64 + size by omega),
        word]
      by_cases zero : map p = 0
      · -- a zero word: the search goes on at word `p + 1`
        have rest := ih (p + 1) (size - 64) (by omega)
        rw [Nat.succ_mul, Nat.add_assoc, Nat.add_sub_cancel' full] at rest
        rw [if_neg (not_not.mpr zero), if_pos zero, if_neg (Nat.lt_irrefl _), rest]
      · have lt := (ffs_spec zero).1
        rw [if_pos zero, if_neg zero, if_pos (by omega)]
    · rw [if_neg full]
      by_cases empty : size = 0
      · rw [if_pos empty, empty, Nat.add_zero]
        exact congrArg some (firstIn_eq_hi fun j lo hi => by omega).symm
      · rw [if_neg empty]
        have bits : ∀ b < 64, (map p).getLsbD b = (decide (0 ≤ b) && wordsBit map (p * 64 + b)) := by
          intro b hb
          rw [wordsBit_word map p hb]
          simp
        rw [foundFirstBit_eq (Nat.zero_le _) (by omega) bits, Nat.add_zero]

/-- `find_next_bit` is the search of `[offset, size)`: past the first word holding `offset`,
masked below it, the search goes on through the loop over whole words. -/
theorem findNextBit_eq_firstIn (map : Nat → BitVec 64) (size offset : Nat) :
    findNextBit map size offset = some (firstIn (wordsBit map) offset size) := by
  unfold findNextBit bitsPerLong
  by_cases past : offset ≥ size
  · rw [if_pos past, firstIn_eq_hi fun j lo hi => by omega]
  rw [if_neg past]
  -- `offset` is bit `offset % 64` of word `offset / 64`
  have split := Nat.div_add_mod offset 64
  have bits : ∀ b < 64, (map (offset / 64) &&& (BitVec.allOnes 64 <<< (offset % 64))).getLsbD b =
      (decide (offset % 64 ≤ b) && wordsBit map (offset / 64 * 64 + b)) := by
    intro b hb
    rw [BitVec.getLsbD_and, getLsbD_allOnes_shiftLeft _ hb, wordsBit_word map _ hb, Bool.and_comm]
  by_cases inWord : offset % 64 ≠ 0
  · simp only [if_pos inWord]
    by_cases short : size - offset / 64 * 64 < 64
    · -- the range ends in the first word
      rw [if_pos short, foundFirstBit_eq (by omega) short bits]
      congr 2 <;> omega
    rw [if_neg short]
    have word := firstIn_word (P := wordsBit map) (r := offset / 64 * 64) (s := offset % 64) (e := 64)
      (by omega) (Nat.le_refl _) fun b hb => by rw [bits b hb]; simp [hb]
    rw [show offset / 64 * 64 + offset % 64 = offset by omega] at word
    rw [firstIn_split (show offset ≤ offset / 64 * 64 + 64 by omega)
      (show offset / 64 * 64 + 64 ≤ size by omega), word]
    by_cases zero : map (offset / 64) &&& (BitVec.allOnes 64 <<< (offset % 64)) = 0
    · -- nothing from `offset` on in the first word: the loop takes over at the next one
      have rest := nextBitWords_eq map ((size - offset / 64 * 64) / 64) (offset / 64 + 1)
        (size - offset / 64 * 64 - 64) (by omega)
      rw [Nat.succ_mul, Nat.add_assoc, show 64 + (size - offset / 64 * 64 - 64) = size - offset / 64 * 64 by omega,
        Nat.add_sub_cancel' (by omega)] at rest
      rw [if_neg (not_not.mpr zero), if_pos zero, if_neg (Nat.lt_irrefl _), rest]
    · have lt := (ffs_spec zero).1
      rw [if_pos zero, if_neg zero, if_pos (by omega)]
  · -- `offset` starts a word: the loop runs from there
    rw [if_neg inWord]
    have start : offset / 64 * 64 = offset := by omega
    have rest := nextBitWords_eq map ((size - offset / 64 * 64) / 64 + 1) (offset / 64)
      (size - offset / 64 * 64) (Nat.lt_succ_self _)
    rw [rest, start, Nat.add_sub_cancel' (by omega)]

theorem findFirstBit_eq_firstIn (map : Nat → BitVec 64) (size : Nat) :
    findFirstBit map size = some (firstIn (wordsBit map) 0 size) := by
  have whole := nextBitWords_eq map (size / 64 + 1) 0 size (Nat.lt_succ_self _)
  rw [Nat.zero_mul, Nat.zero_add] at whole
  exact whole

/-! ### The zero searches are the searches of the complement -/

theorem wordsBit_not (map : Nat → BitVec 64) (i : Nat) :
    wordsBit (fun q => ~~~map q) i = !wordsBit map i := by
  rw [wordsBit_eq, wordsBit_eq, BitVec.getLsbD_not, decide_eq_true (Nat.mod_lt i (by decide)),
    Bool.true_and]

theorem not_or_allOnes_shiftLeft (w : BitVec 64) (s : Nat) :
    ~~~(w ||| BitVec.allOnes 64 <<< s) = ~~~w &&& (BitVec.allOnes 64 >>> (bitsPerLong - s)) := by
  refine BitVec.eq_of_getLsbD_eq fun b hb => ?_
  rw [BitVec.getLsbD_not, BitVec.getLsbD_or, BitVec.getLsbD_and, BitVec.getLsbD_not,
    getLsbD_allOnes_shiftLeft _ hb, getLsbD_allOnes_ushiftRight _ hb]
  by_cases lt : b < s <;> simp [hb, lt, Nat.not_le.mpr, Nat.le_of_not_lt]

theorem not_or_allOnes_ushiftRight (w : BitVec 64) (s : Nat) :
    ~~~(w ||| BitVec.allOnes 64 >>> (bitsPerLong - s)) = ~~~w &&& (BitVec.allOnes 64 <<< s) := by
  refine BitVec.eq_of_getLsbD_eq fun b hb => ?_
  rw [BitVec.getLsbD_not, BitVec.getLsbD_or, BitVec.getLsbD_and, BitVec.getLsbD_not,
    getLsbD_allOnes_shiftLeft _ hb, getLsbD_allOnes_ushiftRight _ hb]
  by_cases lt : b < s <;> simp [hb, lt, Nat.not_le.mpr, Nat.le_of_not_lt]

theorem eq_allOnes_iff_not_eq_zero (w : BitVec 64) : w = BitVec.allOnes 64 ↔ ~~~w = 0 := by
  constructor
  · rintro rfl
    simp
  · intro zero
    simpa using congrArg (~~~·) zero

theorem foundFirstZeroBit_eq_not (tmp : BitVec 64) (r size : Nat) :
    foundFirstZeroBit tmp r size = foundFirstBit (~~~tmp) r size := by
  unfold foundFirstZeroBit foundFirstBit
  simp only [ffz_eq_ffs_not, eq_allOnes_iff_not_eq_zero, not_or_allOnes_shiftLeft]

theorem nextZeroBitWords_eq_not (map : Nat → BitVec 64) :
    ∀ (fuel p result size : Nat),
      nextZeroBitWords map fuel p result size = nextBitWords (fun q => ~~~map q) fuel p result size := by
  intro fuel
  induction fuel with
  | zero => intro p result size; rfl
  | succ fuel ih =>
    intro p result size
    rw [nextZeroBitWords_succ, nextBitWords_succ]
    by_cases full : bitsPerLong ≤ size
    · simp only [if_pos full, ffz_eq_ffs_not, ih]
    · rw [if_neg full, if_neg full, foundFirstZeroBit_eq_not]

theorem findNextZeroBit_eq_not (map : Nat → BitVec 64) (size offset : Nat) :
    findNextZeroBit map size offset = findNextBit (fun q => ~~~map q) size offset := by
  unfold findNextZeroBit findNextBit
  simp only [nextZeroBitWords_eq_not, ffz_eq_ffs_not, foundFirstZeroBit_eq_not, not_or_allOnes_ushiftRight]

theorem findNextZeroBit_eq_firstIn (map : Nat → BitVec 64) (size offset : Nat) :
    findNextZeroBit map size offset = some (firstIn (fun i => !wordsBit map i) offset size) := by
  rw [findNextZeroBit_eq_not, findNextBit_eq_firstIn, funext (wordsBit_not map)]

theorem findFirstZeroBit_eq_firstIn (map : Nat → BitVec 64) (size : Nat) :
    findFirstZeroBit map size = some (firstIn (fun i => !wordsBit map i) 0 size) := by
  rw [findFirstZeroBit, nextZeroBitWords_eq_not, ← findFirstBit, findFirstBit_eq_firstIn,
    funext (wordsBit_not map)]

/-! ### `bitmap_set` and `bitmap_clear` -/

/-- `BITMAP_FIRST_WORD_MASK(start)`: the bits of a word from `start % BITS_PER_LONG` up. -/
def firstWordMask (start : Nat) : BitVec 64 := BitVec.allOnes 64 <<< (start % bitsPerLong)

/-- `BITMAP_LAST_WORD_MASK(nbits)`: the bits of the last word below `nbits`. -/
def lastWordMask (nbits : Nat) : BitVec 64 :=
  if nbits % bitsPerLong ≠ 0 then ((1 : BitVec 64) <<< (nbits % bitsPerLong)) - 1 else BitVec.allOnes 64

/-- The loop `while (nr - bits_to_set >= 0)` of `bitmap_set` and `bitmap_clear`, writing `op` of
each word and the mask, for `fuel` rounds: the bitmap, the word `p`, the count `nr` and the mask
it leaves. -/
def fillLoop (op : BitVec 64 → BitVec 64 → BitVec 64) :
    Nat → (Nat → BitVec 64) → Nat → Nat → Nat → BitVec 64 →
      Option ((Nat → BitVec 64) × Nat × Nat × BitVec 64)
  | 0, _, _, _, _, _ => none
  | fuel + 1, map, p, nr, bitsToSet, maskToSet =>
    if bitsToSet ≤ nr then
      fillLoop op fuel (Function.update map p (op (map p) maskToSet)) (p + 1) (nr - bitsToSet)
        bitsPerLong (BitVec.allOnes 64)
    else some (map, p, nr, maskToSet)

/-- The body shared by `bitmap_set` and `bitmap_clear`, with `op` the write of a word under a
mask (`*p |= mask` or `*p &= ~mask`). The first round of the loop takes at least one bit and the
others 64, so `nr / BITS_PER_LONG + 2` rounds are enough. -/
def bitmapFill (op : BitVec 64 → BitVec 64 → BitVec 64) (map : Nat → BitVec 64) (start nr : Nat) :
    Option (Nat → BitVec 64) := do
  let size := start + nr
  let (map, p, nr, maskToSet) ← fillLoop op (nr / bitsPerLong + 2) map (start / bitsPerLong) nr
    (bitsPerLong - start % bitsPerLong) (firstWordMask start)
  if nr ≠ 0 then some (Function.update map p (op (map p) (maskToSet &&& lastWordMask size)))
  else some map

def bitmapSet (map : Nat → BitVec 64) (start nr : Nat) : Option (Nat → BitVec 64) :=
  bitmapFill (fun word mask => word ||| mask) map start nr

def bitmapClear (map : Nat → BitVec 64) (start nr : Nat) : Option (Nat → BitVec 64) :=
  bitmapFill (fun word mask => word &&& ~~~mask) map start nr

theorem wordsBit_update (map : Nat → BitVec 64) (p : Nat) (w : BitVec 64) (i : Nat) :
    wordsBit (Function.update map p w) i = if i / 64 = p then w.getLsbD (i % 64) else wordsBit map i := by
  rw [wordsBit_eq, wordsBit_eq]
  by_cases word : i / 64 = p
  · rw [if_pos word, word, Function.update_self]
  · rw [if_neg word, Function.update_of_ne word]

section Fill

variable {op : BitVec 64 → BitVec 64 → BitVec 64} {f : Bool → Bool → Bool}

/-- The bitmap `map` is `map0` with each bit of `[lo, hi)` written by `f`. -/
def Filled (f : Bool → Bool → Bool) (map0 : Nat → BitVec 64) (lo hi : Nat) (map : Nat → BitVec 64) :
    Prop :=
  ∀ i, wordsBit map i = f (wordsBit map0 i) (decide (lo ≤ i ∧ i < hi))

/-- Writing word `p` under a mask of its bits `[a, e)` takes the written range from `p * 64 + a`
on to `p * 64 + e`, when `op` writes each bit by `f` and `f` keeps a bit whose mask bit is
clear. -/
theorem Filled.update (bitwise : ∀ word mask b, b < 64 → (op word mask).getLsbD b = f (word.getLsbD b) (mask.getLsbD b))
    (keep : ∀ x, f x false = x) {map0 map : Nat → BitVec 64} {start p a e : Nat} {mask : BitVec 64}
    (filled : Filled f map0 start (p * 64 + a) map) (startLe : start ≤ p * 64 + a) (ae : a ≤ e)
    (e64 : e ≤ 64) (maskBits : ∀ b < 64, mask.getLsbD b = decide (a ≤ b ∧ b < e)) :
    Filled f map0 start (p * 64 + e) (Function.update map p (op (map p) mask)) := by
  intro i
  have lt := Nat.mod_lt i (show 64 > 0 by decide)
  rw [wordsBit_update]
  by_cases word : i / 64 = p
  · -- in word `p`: the bit was done before `p * 64 + a`, and is written by the mask from there
    have old : (map p).getLsbD (i % 64) = wordsBit map i := by rw [wordsBit_eq, word]
    rw [if_pos word, bitwise _ _ _ lt, maskBits _ lt, old, filled i]
    by_cases done : i < p * 64 + a
    · rw [decide_eq_false (show ¬(a ≤ i % 64 ∧ i % 64 < e) by omega), keep]
      congr 1
      simp only [decide_eq_decide]
      omega
    · rw [decide_eq_false (show ¬(start ≤ i ∧ i < p * 64 + a) by omega), keep]
      congr 1
      simp only [decide_eq_decide]
      omega
  · -- another word: the range grew only inside word `p`
    rw [if_neg word, filled i]
    congr 1
    simp only [decide_eq_decide]
    omega

/-- What holds at each round of the loop of `bitmap_fill` from `start`, with `total = start + nr`
at the call: the bits from `start` up to `cur = p * 64 + (64 - bits)`, the next bit to write, are
written, `nr` bits are left after `cur`, and the mask covers word `p` from `cur` up. -/
structure FillInv (f : Bool → Bool → Bool) (map0 : Nat → BitVec 64) (start total : Nat)
    (map : Nat → BitVec 64) (p nr bits : Nat) (mask : BitVec 64) : Prop where
  bits_pos : 0 < bits
  bits_le : bits ≤ 64
  start_le : start ≤ p * 64 + (64 - bits)
  left : p * 64 + (64 - bits) + nr = total
  mask_bits : ∀ b < 64, mask.getLsbD b = decide (64 - bits ≤ b)
  filled : Filled f map0 start (p * 64 + (64 - bits)) map

theorem FillInv.init (keep : ∀ x, f x false = x) (map : Nat → BitVec 64) (start nr : Nat) :
    FillInv f map start (start + nr) map (start / bitsPerLong) nr (bitsPerLong - start % bitsPerLong)
      (firstWordMask start) := by
  unfold bitsPerLong firstWordMask bitsPerLong
  have cur : start / 64 * 64 + (64 - (64 - start % 64)) = start := by omega
  refine ⟨by omega, by omega, by omega, by omega, fun b hb => ?_, ?_⟩
  · rw [getLsbD_allOnes_shiftLeft _ hb, decide_eq_decide]
    omega
  · intro i
    rw [cur, decide_eq_false (show ¬(start ≤ i ∧ i < start) by omega), keep]

theorem FillInv.step (bitwise : ∀ word mask b, b < 64 → (op word mask).getLsbD b = f (word.getLsbD b) (mask.getLsbD b))
    (keep : ∀ x, f x false = x) {map0 map : Nat → BitVec 64} {start total p nr bits : Nat}
    {mask : BitVec 64} (inv : FillInv f map0 start total map p nr bits mask) (go : bits ≤ nr) :
    FillInv f map0 start total (Function.update map p (op (map p) mask)) (p + 1) (nr - bits)
      bitsPerLong (BitVec.allOnes 64) := by
  unfold bitsPerLong
  have next : (p + 1) * 64 + (64 - 64) = p * 64 + 64 := by omega
  have filled := inv.filled.update bitwise keep inv.start_le (e := 64) (by omega) (Nat.le_refl _) fun b hb => by
    rw [inv.mask_bits b hb, decide_eq_decide]
    omega
  have left := inv.left
  have bitsLe := inv.bits_le
  refine ⟨by decide, Nat.le_refl _, by have := inv.start_le; omega, by omega, fun b hb => ?_, ?_⟩
  · rw [BitVec.getLsbD_allOnes, decide_eq_decide]
    omega
  rw [next]
  exact filled

theorem fillLoop_spec (bitwise : ∀ word mask b, b < 64 → (op word mask).getLsbD b = f (word.getLsbD b) (mask.getLsbD b))
    (keep : ∀ x, f x false = x) (map0 : Nat → BitVec 64) (start total : Nat) :
    ∀ (fuel : Nat) (map : Nat → BitVec 64) (p nr bits : Nat) (mask : BitVec 64),
      FillInv f map0 start total map p nr bits mask → (nr + 64 - bits) / 64 < fuel →
        ∃ map' p' nr' bits' mask', fillLoop op fuel map p nr bits mask = some (map', p', nr', mask') ∧
          FillInv f map0 start total map' p' nr' bits' mask' ∧ nr' < bits' := by
  intro fuel
  induction fuel with
  | zero => intro map p nr bits mask _ enough; omega
  | succ fuel ih =>
    intro map p nr bits mask inv enough
    rw [fillLoop]
    by_cases go : bits ≤ nr
    · rw [if_pos go]
      exact ih _ _ _ _ _ (inv.step bitwise keep go) (by have := inv.bits_le; unfold bitsPerLong; omega)
    · rw [if_neg go]
      exact ⟨map, p, nr, bits, mask, rfl, inv, by omega⟩

theorem getLsbD_lastWordMask (nbits : Nat) {b : Nat} (hb : b < 64) :
    (lastWordMask nbits).getLsbD b = decide (nbits % 64 = 0 ∨ b < nbits % 64) := by
  unfold lastWordMask bitsPerLong
  by_cases full : nbits % 64 = 0
  · rw [if_neg (not_not.mpr full), BitVec.getLsbD_allOnes, decide_eq_decide]
    omega
  · rw [if_pos full, Bitmap.getLsbD_lowMask (Nat.mod_lt _ (by decide))]
    simp [full]

/-- `bitmap_set` and `bitmap_clear` write exactly the bits of `[start, start + nr)`, when `op`
writes each bit by `f` and `f` keeps a bit whose mask bit is clear. -/
theorem bitmapFill_spec (bitwise : ∀ word mask b, b < 64 → (op word mask).getLsbD b = f (word.getLsbD b) (mask.getLsbD b))
    (keep : ∀ x, f x false = x) (map : Nat → BitVec 64) (start nr : Nat) :
    ∃ map', bitmapFill op map start nr = some map' ∧ Filled f map start (start + nr) map' := by
  have init := FillInv.init keep map start nr
  obtain ⟨map', p, nr', bits, mask, loop, inv, below⟩ :=
    fillLoop_spec bitwise keep map start (start + nr) (nr / bitsPerLong + 2) map _ _ _ _ init
      (by unfold bitsPerLong; omega)
  have cur := inv.left
  have bitsLe := inv.bits_le
  rw [bitmapFill, loop]
  by_cases rest : nr' ≠ 0
  · -- the last word is written from `cur` to `start + nr`, which ends inside it
    refine ⟨_, if_pos rest, ?_⟩
    have ends : (start + nr) % 64 = 64 - bits + nr' := by omega
    have lastBits : ∀ b < 64, (mask &&& lastWordMask (start + nr)).getLsbD b =
        decide (64 - bits ≤ b ∧ b < 64 - bits + nr') := by
      intro b hb
      rw [BitVec.getLsbD_and, inv.mask_bits b hb, getLsbD_lastWordMask _ hb, ends]
      rw [← Bool.decide_and, decide_eq_decide]
      omega
    have filled := inv.filled.update bitwise keep inv.start_le (by omega) (by omega) lastBits
    rw [show p * 64 + (64 - bits + nr') = start + nr by omega] at filled
    exact filled
  · refine ⟨_, if_neg rest, ?_⟩
    have filled := inv.filled
    rw [show p * 64 + (64 - bits) = start + nr by omega] at filled
    exact filled

end Fill

theorem bitmapSet_spec (map : Nat → BitVec 64) (start nr : Nat) :
    ∃ map', bitmapSet map start nr = some map' ∧
      ∀ i, wordsBit map' i = (wordsBit map i || decide (start ≤ i ∧ i < start + nr)) :=
  bitmapFill_spec (f := (· || ·)) (fun _ _ _ _ => BitVec.getLsbD_or ..) Bool.or_false map start nr

theorem bitmapClear_spec (map : Nat → BitVec 64) (start nr : Nat) :
    ∃ map', bitmapClear map start nr = some map' ∧
      ∀ i, wordsBit map' i = (wordsBit map i && !decide (start ≤ i ∧ i < start + nr)) :=
  bitmapFill_spec (f := fun x m => x && !m)
    (fun _ _ b hb => by rw [BitVec.getLsbD_and, BitVec.getLsbD_not, decide_eq_true hb, Bool.true_and])
    (fun x => by rw [Bool.not_false, Bool.and_true]) map start nr

/-! ### The word-at-a-time code and the bitwise definitions -/

/-- `r` is the first position of `[lo, hi)` where `P` holds, or `hi` when there is none. -/
def IsFirstIn (P : Nat → Bool) (lo hi r : Nat) : Prop :=
  (lo ≤ r ∧ r < hi ∧ P r = true ∧ ∀ j, lo ≤ j → j < r → P j = false) ∨
    (r = hi ∧ ∀ j, lo ≤ j → j < hi → P j = false)

theorem isFirstIn_firstIn (P : Nat → Bool) (lo hi : Nat) : IsFirstIn P lo hi (firstIn P lo hi) :=
  (Bitmap.firstIn_cases P lo hi).symm

/-- For every bitmap, size and offset, `find_next_bit` and `find_next_zero_bit` return the first
set (clear) bit of `[offset, size)`, or `size`; `find_first_bit` and `find_first_zero_bit` are
their cases at offset 0; and `bitmap_set` and `bitmap_clear` change exactly the bits of
`[start, start + nr)`. -/
theorem findBit_bitmapFill_bitwise (map : Nat → BitVec 64) (size offset start nr : Nat) :
    (∃ r, findNextBit map size offset = some r ∧ IsFirstIn (wordsBit map) offset size r) ∧
      (∃ r, findNextZeroBit map size offset = some r ∧
        IsFirstIn (fun i => !wordsBit map i) offset size r) ∧
      findFirstBit map size = findNextBit map size 0 ∧
      findFirstZeroBit map size = findNextZeroBit map size 0 ∧
      (∃ map', bitmapSet map start nr = some map' ∧
        ∀ i, wordsBit map' i = (wordsBit map i || decide (start ≤ i ∧ i < start + nr))) ∧
      (∃ map', bitmapClear map start nr = some map' ∧
        ∀ i, wordsBit map' i = (wordsBit map i && !decide (start ≤ i ∧ i < start + nr))) := by
  refine ⟨⟨_, findNextBit_eq_firstIn map size offset, isFirstIn_firstIn _ _ _⟩,
    ⟨_, findNextZeroBit_eq_firstIn map size offset, isFirstIn_firstIn _ _ _⟩, ?_, ?_,
    bitmapSet_spec map start nr, bitmapClear_spec map start nr⟩
  · rw [findFirstBit_eq_firstIn, findNextBit_eq_firstIn]
  · rw [findFirstZeroBit_eq_firstIn, findNextZeroBit_eq_firstIn]

end LinuxKernel.FindNextBit
