import LinuxKernel.Foundation.Bitmap

/-!
# Bitmap shifts (lib/bitmap.c)

`__bitmap_shift_right` and `__bitmap_shift_left` on a 64-bit kernel, for `shift <= bits`.
Memory maps word addresses to words, so `dst` and `src` may be the same; each loop reads
`src` when it reads, and the bits of the last word from `bits` on may hold anything.
-/

namespace LinuxKernel

open Bitmap

def bitsPerLong : Nat := 64

def bitsToLongs (bits : Nat) : Nat := (bits + bitsPerLong - 1) / bitsPerLong

def memsetLongs (mem : Nat → BitVec 64) (start count : Nat) : Nat → BitVec 64 :=
  fun a => if start ≤ a ∧ a < start + count then 0 else mem a

theorem memsetLongs_apply (mem : Nat → BitVec 64) (start count a : Nat) :
    memsetLongs mem start count a = if start ≤ a ∧ a < start + count then 0 else mem a := rfl

/-- Bit `i` of the words `src[0]`, `src[1]`, .... -/
def wordsBit (src : Nat → BitVec 64) (i : Nat) : Bool :=
  (src (i / bitsPerLong)).getLsbD (i % bitsPerLong)

/-- Bit `i` of the bitmap at word address `base`. -/
def bitmapBit (mem : Nat → BitVec 64) (base i : Nat) : Bool :=
  wordsBit (fun j => mem (base + j)) i

/-! ## The model -/

/-- `upper` in the loop of `__bitmap_shift_right`: the word above, whose low `rem` bits
become the top bits of `dst[k]`. -/
def bitmapShiftRightUpper (src : Nat → BitVec 64) (lim left off rem k : Nat) : BitVec 64 :=
  if rem = 0 ∨ lim ≤ off + k + 1 then 0
  else if off + k + 1 = lim - 1 ∧ left ≠ 0 then src (off + k + 1) &&& (((1 : BitVec 64) <<< left) - 1)
  else src (off + k + 1)

/-- `lower` in the loop of `__bitmap_shift_right`. -/
def bitmapShiftRightLower (src : Nat → BitVec 64) (lim left off k : Nat) : BitVec 64 :=
  if left ≠ 0 ∧ off + k = lim - 1 then src (off + k) &&& (((1 : BitVec 64) <<< left) - 1)
  else src (off + k)

/-- The word `dst[k]` that the loop of `__bitmap_shift_right` stores, from the words `src[j]`
as they are when it reads them. The store and the `dst[k] &= mask` after it are one store of
the masked word. -/
def bitmapShiftRightWord (src : Nat → BitVec 64) (lim left off rem k : Nat) : BitVec 64 :=
  let word := bitmapShiftRightUpper src lim left off rem k <<< (bitsPerLong - rem) |||
    bitmapShiftRightLower src lim left off k >>> rem
  if left ≠ 0 ∧ k = lim - 1 then word &&& (((1 : BitVec 64) <<< left) - 1) else word

/-- The loop `for (k = 0; off + k < lim; ++k)` of `__bitmap_shift_right`, at `k` with `n`
rounds to go. -/
def bitmapShiftRightLoop (dst src lim left off rem : Nat) :
    Nat → Nat → (Nat → BitVec 64) → Nat → BitVec 64
  | _, 0, mem => mem
  | k, n + 1, mem =>
    bitmapShiftRightLoop dst src lim left off rem (k + 1) n
      (Function.update mem (dst + k)
        (bitmapShiftRightWord (fun j => mem (src + j)) lim left off rem k))

def bitmapShiftRight (mem : Nat → BitVec 64) (dst src shift bits : Nat) : Nat → BitVec 64 :=
  let lim := bitsToLongs bits
  let left := bits % bitsPerLong
  let off := shift / bitsPerLong
  let rem := shift % bitsPerLong
  let mem := bitmapShiftRightLoop dst src lim left off rem 0 (lim - off) mem
  if off ≠ 0 then memsetLongs mem (dst + (lim - off)) off else mem

/-- `lower` in the loop of `__bitmap_shift_left`: the word below, whose top `rem` bits
become the bottom bits of `dst[k + off]`. -/
def bitmapShiftLeftLower (src : Nat → BitVec 64) (rem k : Nat) : BitVec 64 :=
  if rem ≠ 0 ∧ 0 < k then src (k - 1) else 0

/-- `upper` in the loop of `__bitmap_shift_left`. -/
def bitmapShiftLeftUpper (src : Nat → BitVec 64) (lim left k : Nat) : BitVec 64 :=
  if left ≠ 0 ∧ k = lim - 1 then src k &&& (((1 : BitVec 64) <<< left) - 1) else src k

/-- The word `dst[k + off]` that the loop of `__bitmap_shift_left` stores, from the words
`src[j]` as they are when it reads them. -/
def bitmapShiftLeftWord (src : Nat → BitVec 64) (lim left off rem k : Nat) : BitVec 64 :=
  let word := bitmapShiftLeftLower src rem k >>> (bitsPerLong - rem) |||
    bitmapShiftLeftUpper src lim left k <<< rem
  if left ≠ 0 ∧ k + off = lim - 1 then word &&& (((1 : BitVec 64) <<< left) - 1) else word

/-- The loop `for (k = lim - off - 1; k >= 0; --k)` of `__bitmap_shift_left` with `n` rounds to
go, the next one for `k = n - 1`. -/
def bitmapShiftLeftLoop (dst src lim left off rem : Nat) :
    Nat → (Nat → BitVec 64) → Nat → BitVec 64
  | 0, mem => mem
  | k + 1, mem =>
    bitmapShiftLeftLoop dst src lim left off rem k
      (Function.update mem (dst + (k + off))
        (bitmapShiftLeftWord (fun j => mem (src + j)) lim left off rem k))

def bitmapShiftLeft (mem : Nat → BitVec 64) (dst src shift bits : Nat) : Nat → BitVec 64 :=
  let lim := bitsToLongs bits
  let left := bits % bitsPerLong
  let off := shift / bitsPerLong
  let rem := shift % bitsPerLong
  let mem := bitmapShiftLeftLoop dst src lim left off rem (lim - off) mem
  if off ≠ 0 then memsetLongs mem dst off else mem

/-! ## One word -/

section Word

variable {bits : Nat}

theorem bitsToLongs_bounds (pos : 0 < bits) :
    64 * (bitsToLongs bits - 1) < bits ∧ bits ≤ 64 * bitsToLongs bits := by
  unfold bitsToLongs bitsPerLong
  omega

theorem getLsbD_masked (x : BitVec 64) {c : Prop} [Decidable c] {w b : Nat} (pos : 0 < bits)
    (masked : c ↔ bits % 64 ≠ 0 ∧ w = bitsToLongs bits - 1) (lt : w < bitsToLongs bits)
    (hb : b < 64) :
    (if c then x &&& (((1 : BitVec 64) <<< (bits % 64)) - 1) else x).getLsbD b =
      (decide (64 * w + b < bits) && x.getLsbD b) := by
  have bounds := bitsToLongs_bounds pos
  by_cases last : c
  · obtain ⟨notWhole, rfl⟩ := masked.mp last
    rw [if_pos last, BitVec.getLsbD_and, getLsbD_lowMask (by omega), Bool.and_comm]
    congr 2
    apply propext
    omega
  · -- every bit of a word before the last, or of a full last word, is below `bits`
    have below : 64 * w + b < bits := by
      rw [masked] at last
      omega
    simp [last, below]

theorem wordsBit_word (src : Nat → BitVec 64) {w b : Nat} (hb : b < 64) :
    wordsBit src (64 * w + b) = (src w).getLsbD b := by
  unfold wordsBit bitsPerLong
  rw [show (64 * w + b) / 64 = w by omega, show (64 * w + b) % 64 = b by omega]

theorem decide_lt_and_decide_lt {p q n : Nat} (le : p ≤ q) :
    (decide (p < n) && decide (q < n)) = decide (q < n) := by
  by_cases fits : q < n
  · simp [fits, show p < n by omega]
  · simp [fits]

variable (src : Nat → BitVec 64) {shift : Nat}

theorem bitmapShiftRightLower_getLsbD (pos : 0 < bits) {k b : Nat}
    (lt : shift / 64 + k < bitsToLongs bits) (hb : b < 64) :
    (bitmapShiftRightLower src (bitsToLongs bits) (bits % 64) (shift / 64)
      k).getLsbD b =
      (decide (64 * (shift / 64 + k) + b < bits) &&
        wordsBit src (64 * (shift / 64 + k) + b)) := by
  rw [bitmapShiftRightLower, getLsbD_masked _ pos Iff.rfl lt hb, wordsBit_word src hb]

theorem bitmapShiftRightUpper_getLsbD (pos : 0 < bits) {k b : Nat}
    (rem : shift % 64 ≠ 0) (hb : b < 64) :
    (bitmapShiftRightUpper src (bitsToLongs bits) (bits % 64) (shift / 64)
      (shift % 64) k).getLsbD b =
      (decide (64 * (shift / 64 + k + 1) + b < bits) &&
        wordsBit src (64 * (shift / 64 + k + 1) + b)) := by
  have bounds := bitsToLongs_bounds pos
  unfold bitmapShiftRightUpper
  by_cases beyond : bitsToLongs bits ≤ shift / 64 + k + 1
  · -- no word above: its bits would lie past `bits`
    have past : ¬ 64 * (shift / 64 + k + 1) + b < bits := by omega
    simp [if_pos (Or.inr beyond), past]
  · rw [if_neg (not_or.mpr ⟨rem, beyond⟩), getLsbD_masked _ pos and_comm (by omega) hb,
      wordsBit_word src hb]

theorem bitmapShiftRightWord_getLsbD (pos : 0 < bits) {k b : Nat}
    (lt : shift / 64 + k < bitsToLongs bits) (hb : b < 64) :
    (bitmapShiftRightWord src (bitsToLongs bits) (bits % 64) (shift / 64)
      (shift % 64) k).getLsbD b =
      (decide (64 * k + b + shift < bits) && wordsBit src (64 * k + b + shift)) := by
  have split := (Nat.div_add_mod shift 64).symm
  have remLt : shift % 64 < 64 := Nat.mod_lt _ (by decide)
  unfold bitmapShiftRightWord bitsPerLong
  dsimp only
  rw [getLsbD_masked _ pos Iff.rfl (by omega) hb]
  have funnel := getLsbD_funnelRight
    (bitmapShiftRightUpper src (bitsToLongs bits) (bits % 64) (shift / 64)
      (shift % 64) k)
    (bitmapShiftRightLower src (bitsToLongs bits) (bits % 64) (shift / 64) k)
    hb remLt (fun zero => if_pos (Or.inl zero))
  rw [funnel]
  split_ifs with inLower
  · -- the bit comes from `src[off + k]`
    rw [bitmapShiftRightLower_getLsbD src pos lt inLower,
      show 64 * (shift / 64 + k) + (b + shift % 64) =
        64 * k + b + shift by omega, ← Bool.and_assoc,
      decide_lt_and_decide_lt (by omega)]
  · -- the bit comes from `src[off + k + 1]`
    rw [bitmapShiftRightUpper_getLsbD src pos (by omega) (by omega),
      show 64 * (shift / 64 + k + 1) + (b + shift % 64 - 64) =
        64 * k + b + shift by omega, ← Bool.and_assoc,
      decide_lt_and_decide_lt (by omega)]

theorem bitmapShiftLeftUpper_getLsbD (pos : 0 < bits) {k b : Nat} (lt : k < bitsToLongs bits)
    (hb : b < 64) :
    (bitmapShiftLeftUpper src (bitsToLongs bits) (bits % 64) k).getLsbD b =
      (decide (64 * k + b < bits) && wordsBit src (64 * k + b)) := by
  rw [bitmapShiftLeftUpper, getLsbD_masked _ pos Iff.rfl lt hb, wordsBit_word src hb]

theorem bitmapShiftLeftLower_getLsbD {k b : Nat} (hb : b < 64) (rem : shift % 64 ≠ 0)
    (above : 0 < k) :
    (bitmapShiftLeftLower src (shift % 64) k).getLsbD b = wordsBit src (64 * (k - 1) + b) := by
  rw [bitmapShiftLeftLower, if_pos ⟨rem, above⟩, wordsBit_word src hb]

theorem bitmapShiftLeftWord_getLsbD (pos : 0 < bits) {k b : Nat}
    (lt : k + shift / 64 < bitsToLongs bits) (hb : b < 64) :
    (bitmapShiftLeftWord src (bitsToLongs bits) (bits % 64) (shift / 64) (shift % 64) k).getLsbD b =
      (decide (64 * (k + shift / 64) + b < bits) && decide (shift ≤ 64 * (k + shift / 64) + b) &&
        wordsBit src (64 * (k + shift / 64) + b - shift)) := by
  have split := (Nat.div_add_mod shift 64).symm
  have remLt : shift % 64 < 64 := Nat.mod_lt _ (by decide)
  unfold bitmapShiftLeftWord bitsPerLong
  dsimp only
  rw [getLsbD_masked _ pos Iff.rfl lt hb]
  have funnel := getLsbD_funnelLeft (bitmapShiftLeftLower src (shift % 64) k)
    (bitmapShiftLeftUpper src (bitsToLongs bits) (bits % 64) k) hb remLt
    (fun zero => if_neg fun nonzero => nonzero.1 zero)
  rw [funnel, Bool.and_assoc]
  split_ifs with inUpper
  · -- the bit comes from `src[k]`, whose mask adds nothing below `bits`
    have le : shift ≤ 64 * (k + shift / 64) + b := by omega
    have absorb : (decide (64 * (k + shift / 64) + b < bits) &&
        decide (64 * (k + shift / 64) + b - shift < bits)) =
        decide (64 * (k + shift / 64) + b < bits) := by
      rw [Bool.and_comm]
      exact decide_lt_and_decide_lt (by omega)
    rw [bitmapShiftLeftUpper_getLsbD src pos (by omega) (by omega), decide_eq_true le,
      Bool.true_and, show 64 * k + (b - shift % 64) = 64 * (k + shift / 64) + b - shift by omega,
      ← Bool.and_assoc, absorb]
  · by_cases first : k = 0
    · -- below `shift`: nothing is shifted in
      subst first
      have below : ¬ shift ≤ 64 * (shift / 64) + b := by omega
      simp [bitmapShiftLeftLower, below]
    · -- the bit comes from `src[k - 1]`
      have le : shift ≤ 64 * (k + shift / 64) + b := by omega
      rw [bitmapShiftLeftLower_getLsbD src (by omega) (by omega) (by omega), decide_eq_true le,
        Bool.true_and,
        show 64 * (k - 1) + (b + 64 - shift % 64) = 64 * (k + shift / 64) + b - shift by omega]

end Word

/-! ## The loops

The right shift stores `dst[0]`, `dst[1]`, ... and reads `src` at and above the word it stores;
the left shift stores from the top down and reads `src` at and below. So when `dst` and `src`
are the same bitmap, every word is read before it is overwritten; when they lie apart, no store
reaches `src`. -/

/-- The bitmaps of `lim` words at `dst` and `src` are the same, or do not overlap. -/
def BitmapApart (dst src lim : Nat) : Prop := dst = src ∨ dst + lim ≤ src ∨ src + lim ≤ dst

section Loops

variable {dst src lim left off rem : Nat} {mem0 mem : Nat → BitVec 64}

theorem bitmapShiftRightWord_congr {s s' : Nat → BitVec 64} {k : Nat}
    (same : ∀ j, off + k ≤ j → j < lim → s j = s' j) (lt : off + k < lim) :
    bitmapShiftRightWord s lim left off rem k = bitmapShiftRightWord s' lim left off rem k := by
  have lower : bitmapShiftRightLower s lim left off k = bitmapShiftRightLower s' lim left off k := by
    unfold bitmapShiftRightLower
    rw [same _ le_rfl lt]
  have upper : bitmapShiftRightUpper s lim left off rem k =
      bitmapShiftRightUpper s' lim left off rem k := by
    unfold bitmapShiftRightUpper
    by_cases none : rem = 0 ∨ lim ≤ off + k + 1
    · rw [if_pos none, if_pos none]
    · rw [if_neg none, if_neg none, same _ (by omega) (by omega)]
  unfold bitmapShiftRightWord
  rw [lower, upper]

theorem bitmapShiftLeftWord_congr {s s' : Nat → BitVec 64} {k : Nat}
    (same : ∀ j ≤ k, s j = s' j) :
    bitmapShiftLeftWord s lim left off rem k = bitmapShiftLeftWord s' lim left off rem k := by
  unfold bitmapShiftLeftWord bitmapShiftLeftLower bitmapShiftLeftUpper
  rw [same k le_rfl, same (k - 1) (Nat.sub_le k 1)]

/-- The rounds `j < k` of the loop of `__bitmap_shift_right` have stored their words, computed
from the source as it was, and nothing else has changed. -/
structure ShiftRightInv (mem0 mem : Nat → BitVec 64) (dst src lim left off rem k : Nat) :
    Prop where
  stored : ∀ j < k,
    mem (dst + j) = bitmapShiftRightWord (fun i => mem0 (src + i)) lim left off rem j
  frame : ∀ a, a < dst ∨ dst + k ≤ a → mem a = mem0 a

theorem ShiftRightInv.step {k : Nat} (inv : ShiftRightInv mem0 mem dst src lim left off rem k)
    (apart : BitmapApart dst src lim) (lt : off + k < lim) :
    ShiftRightInv mem0 (Function.update mem (dst + k)
      (bitmapShiftRightWord (fun i => mem (src + i)) lim left off rem k)) dst src lim left off
      rem (k + 1) := by
  -- the words this round reads lie at or above `src + off + k`, where nothing is stored yet
  have same : ∀ j, off + k ≤ j → j < lim → mem (src + j) = mem0 (src + j) := by
    intro j lo hi
    apply inv.frame
    unfold BitmapApart at apart
    omega
  constructor
  · intro j lt'
    by_cases here : j = k
    · rw [here, Function.update_self]
      exact bitmapShiftRightWord_congr same lt
    · rw [Function.update_of_ne (by omega)]
      exact inv.stored j (by omega)
  · intro a outside
    rw [Function.update_of_ne (by omega)]
    exact inv.frame a (by omega)

theorem bitmapShiftRightLoop_inv (apart : BitmapApart dst src lim) :
    ∀ n k mem, ShiftRightInv mem0 mem dst src lim left off rem k → off + k + n ≤ lim →
      ShiftRightInv mem0 (bitmapShiftRightLoop dst src lim left off rem k n mem) dst src lim left
        off rem (k + n) := by
  intro n
  induction n with
  | zero => exact fun k mem inv _ => inv
  | succ n ih =>
    intro k mem inv fits
    have next := ih (k + 1) _ (inv.step apart (by omega)) (by omega)
    rwa [show k + 1 + n = k + (n + 1) by omega] at next

/-- The rounds `j ≥ n` of the loop of `__bitmap_shift_left` have stored their words at
`dst + (j + off)`, computed from the source as it was, and nothing else has changed. -/
structure ShiftLeftInv (mem0 mem : Nat → BitVec 64) (dst src lim left off rem n : Nat) :
    Prop where
  stored : ∀ j, n ≤ j → j + off < lim →
    mem (dst + (j + off)) = bitmapShiftLeftWord (fun i => mem0 (src + i)) lim left off rem j
  frame : ∀ a, a < dst + (n + off) ∨ dst + lim ≤ a → mem a = mem0 a

theorem ShiftLeftInv.step {k : Nat} (inv : ShiftLeftInv mem0 mem dst src lim left off rem (k + 1))
    (apart : BitmapApart dst src lim) (lt : k + off < lim) :
    ShiftLeftInv mem0 (Function.update mem (dst + (k + off))
      (bitmapShiftLeftWord (fun i => mem (src + i)) lim left off rem k)) dst src lim left off
      rem k := by
  -- the words this round reads lie at or below `src + k`, where nothing is stored yet
  have same : ∀ j ≤ k, mem (src + j) = mem0 (src + j) := by
    intro j le
    apply inv.frame
    unfold BitmapApart at apart
    omega
  constructor
  · intro j lo hi
    by_cases here : j = k
    · rw [here, Function.update_self]
      exact bitmapShiftLeftWord_congr same
    · rw [Function.update_of_ne (by omega)]
      exact inv.stored j (by omega) hi
  · intro a outside
    rw [Function.update_of_ne (by omega)]
    exact inv.frame a (by omega)

theorem bitmapShiftLeftLoop_inv (apart : BitmapApart dst src lim) :
    ∀ n mem, ShiftLeftInv mem0 mem dst src lim left off rem n → n + off ≤ lim →
      ShiftLeftInv mem0 (bitmapShiftLeftLoop dst src lim left off rem n mem) dst src lim left
        off rem 0 := by
  intro n
  induction n with
  | zero => exact fun mem inv _ => inv
  | succ n ih =>
    intro mem inv fits
    exact ih _ (inv.step apart (by omega)) (by omega)

end Loops

/-! ## Whole shifts -/

section Shift

variable (mem : Nat → BitVec 64) {dst src shift bits : Nat}

theorem bitsToLongs_shift_le (le : shift ≤ bits) : shift / 64 ≤ bitsToLongs bits := by
  unfold bitsToLongs bitsPerLong
  omega

theorem bitmapShiftRightLoop_whole (apart : BitmapApart dst src (bitsToLongs bits))
    (le : shift ≤ bits) :
    ShiftRightInv mem (bitmapShiftRightLoop dst src (bitsToLongs bits) (bits % 64) (shift / 64)
      (shift % 64) 0 (bitsToLongs bits - shift / 64) mem) dst src (bitsToLongs bits) (bits % 64)
      (shift / 64) (shift % 64) (bitsToLongs bits - shift / 64) := by
  have start : ShiftRightInv mem mem dst src (bitsToLongs bits) (bits % 64) (shift / 64)
      (shift % 64) 0 := ⟨fun j lt => absurd lt (Nat.not_lt_zero j), fun _ _ => rfl⟩
  have run := bitmapShiftRightLoop_inv apart (bitsToLongs bits - shift / 64) 0 mem start
    (by have := bitsToLongs_shift_le le; omega)
  rwa [Nat.zero_add] at run

theorem bitmapShiftLeftLoop_whole (apart : BitmapApart dst src (bitsToLongs bits))
    (le : shift ≤ bits) :
    ShiftLeftInv mem (bitmapShiftLeftLoop dst src (bitsToLongs bits) (bits % 64) (shift / 64)
      (shift % 64) (bitsToLongs bits - shift / 64) mem) dst src (bitsToLongs bits) (bits % 64)
      (shift / 64) (shift % 64) 0 := by
  have offLe := bitsToLongs_shift_le le
  have start : ShiftLeftInv mem mem dst src (bitsToLongs bits) (bits % 64) (shift / 64)
      (shift % 64) (bitsToLongs bits - shift / 64) :=
    ⟨fun j lo hi => absurd hi (by omega), fun _ _ => rfl⟩
  exact bitmapShiftLeftLoop_inv apart (bitsToLongs bits - shift / 64) mem start (by omega)

theorem bitmapShiftRight_apply (apart : BitmapApart dst src (bitsToLongs bits))
    (le : shift ≤ bits) {k : Nat} (lt : k < bitsToLongs bits) :
    bitmapShiftRight mem dst src shift bits (dst + k) =
      if shift / 64 + k < bitsToLongs bits then
        bitmapShiftRightWord (fun j => mem (src + j)) (bitsToLongs bits) (bits % 64) (shift / 64)
          (shift % 64) k
      else 0 := by
  have offLe := bitsToLongs_shift_le le
  have run := bitmapShiftRightLoop_whole mem apart le
  unfold bitmapShiftRight bitsPerLong
  split_ifs with cleared inLoop
  · rw [memsetLongs_apply, if_neg (by omega)]
    exact run.stored k (by omega)
  · rw [memsetLongs_apply, if_pos (by omega)]
  · exact run.stored k (by omega)
  · -- with no whole-word shift the loop covers every word
    exfalso
    omega

theorem bitmapShiftLeft_apply (apart : BitmapApart dst src (bitsToLongs bits))
    (le : shift ≤ bits) {k : Nat} (lt : k < bitsToLongs bits) :
    bitmapShiftLeft mem dst src shift bits (dst + k) =
      if shift / 64 ≤ k then
        bitmapShiftLeftWord (fun j => mem (src + j)) (bitsToLongs bits) (bits % 64) (shift / 64)
          (shift % 64) (k - shift / 64)
      else 0 := by
  have offLe := bitsToLongs_shift_le le
  have run := bitmapShiftLeftLoop_whole mem apart le
  -- the loop stored word `k` when `off ≤ k`
  have stored : shift / 64 ≤ k → bitmapShiftLeftLoop dst src (bitsToLongs bits) (bits % 64)
      (shift / 64) (shift % 64) (bitsToLongs bits - shift / 64) mem (dst + k) =
      bitmapShiftLeftWord (fun j => mem (src + j)) (bitsToLongs bits) (bits % 64) (shift / 64)
        (shift % 64) (k - shift / 64) := by
    intro above
    have word := run.stored (k - shift / 64) (Nat.zero_le _) (by omega)
    rwa [show k - shift / 64 + shift / 64 = k by omega] at word
  unfold bitmapShiftLeft bitsPerLong
  split_ifs with cleared above
  · rw [memsetLongs_apply, if_neg (by omega)]
    exact stored (by omega)
  · rw [memsetLongs_apply, if_pos (by omega)]
  · exact stored (by omega)
  · exfalso
    omega

theorem bitmapShiftRight_frame (apart : BitmapApart dst src (bitsToLongs bits))
    (le : shift ≤ bits) {a : Nat} (outside : a < dst ∨ dst + bitsToLongs bits ≤ a) :
    bitmapShiftRight mem dst src shift bits a = mem a := by
  have offLe := bitsToLongs_shift_le le
  have run := bitmapShiftRightLoop_whole mem apart le
  unfold bitmapShiftRight bitsPerLong
  split_ifs
  · rw [memsetLongs_apply, if_neg (by omega)]
    exact run.frame a (by omega)
  · exact run.frame a (by omega)

theorem bitmapShiftLeft_frame (apart : BitmapApart dst src (bitsToLongs bits))
    (le : shift ≤ bits) {a : Nat} (outside : a < dst ∨ dst + bitsToLongs bits ≤ a) :
    bitmapShiftLeft mem dst src shift bits a = mem a := by
  have offLe := bitsToLongs_shift_le le
  have run := bitmapShiftLeftLoop_whole mem apart le
  unfold bitmapShiftLeft bitsPerLong
  split_ifs
  · rw [memsetLongs_apply, if_neg (by omega)]
    exact run.frame a (by omega)
  · exact run.frame a (by omega)

theorem bitmapShiftRight_bit (apart : BitmapApart dst src (bitsToLongs bits)) (pos : 0 < bits)
    (le : shift ≤ bits) {i : Nat} (lt : i < 64 * bitsToLongs bits) :
    bitmapBit (bitmapShiftRight mem dst src shift bits) dst i =
      (decide (i + shift < bits) && bitmapBit mem src (i + shift)) := by
  have bounds := bitsToLongs_bounds pos
  have split := Nat.div_add_mod i 64
  have word := bitmapShiftRight_apply mem apart le (k := i / 64) (by omega)
  unfold bitmapBit
  show (bitmapShiftRight mem dst src shift bits (dst + i / 64)).getLsbD (i % 64) = _
  rw [word]
  split_ifs with inLoop
  · rw [bitmapShiftRightWord_getLsbD _ pos inLoop (Nat.mod_lt _ (by decide)), split]
  · -- a cleared word: its bits would come from past `bits`
    have past : ¬ i + shift < bits := by
      have := Nat.div_add_mod shift 64
      omega
    simp [past]

example : bitmapShiftRight (fun _ => 0xF0) 0 0 4 8 0 = 0x0F := by decide

theorem bitmapShiftLeft_bit (apart : BitmapApart dst src (bitsToLongs bits)) (pos : 0 < bits)
    (le : shift ≤ bits) {i : Nat} (lt : i < 64 * bitsToLongs bits) :
    bitmapBit (bitmapShiftLeft mem dst src shift bits) dst i =
      (decide (i < bits) && decide (shift ≤ i) && bitmapBit mem src (i - shift)) := by
  have split := Nat.div_add_mod i 64
  have word := bitmapShiftLeft_apply mem apart le (k := i / 64) (by omega)
  unfold bitmapBit
  show (bitmapShiftLeft mem dst src shift bits (dst + i / 64)).getLsbD (i % 64) = _
  rw [word]
  split_ifs with above
  · rw [bitmapShiftLeftWord_getLsbD _ pos (by omega) (Nat.mod_lt _ (by decide)),
      show i / 64 - shift / 64 + shift / 64 = i / 64 by omega, split]
  · -- a cleared word: below `shift`
    have below : ¬ shift ≤ i := by
      have := Nat.div_add_mod shift 64
      omega
    simp [below]

end Shift

theorem bitmapShift_exact (mem : Nat → BitVec 64) {dst src shift bits : Nat}
    (apart : BitmapApart dst src (bitsToLongs bits)) (pos : 0 < bits) (le : shift ≤ bits) :
    ∀ i < 64 * bitsToLongs bits,
      bitmapBit (bitmapShiftRight mem dst src shift bits) dst i =
          (decide (i + shift < bits) && bitmapBit mem src (i + shift)) ∧
        bitmapBit (bitmapShiftLeft mem dst src shift bits) dst i =
          (decide (i < bits) && decide (shift ≤ i) && bitmapBit mem src (i - shift)) :=
  fun _ lt => ⟨bitmapShiftRight_bit mem apart pos le lt, bitmapShiftLeft_bit mem apart pos le lt⟩

/-- Both shifts write only the `BITS_TO_LONGS(bits)` words of `dst`, for a `dst` that is `src` or
lies apart from it: every other word of memory keeps its value. -/
theorem bitmapShift_frame (mem : Nat → BitVec 64) {dst src shift bits : Nat}
    (apart : BitmapApart dst src (bitsToLongs bits)) (le : shift ≤ bits) {a : Nat}
    (outside : a < dst ∨ dst + bitsToLongs bits ≤ a) :
    bitmapShiftRight mem dst src shift bits a = mem a ∧ bitmapShiftLeft mem dst src shift bits a = mem a :=
  ⟨bitmapShiftRight_frame mem apart le outside, bitmapShiftLeft_frame mem apart le outside⟩

/-- Two words copied shifted from the two words below them: the word above is kept. -/
theorem bitmapShift_frame_apart :
    BitmapApart 2 0 (bitsToLongs 128) ∧ 3 ≤ 128 ∧ (4 < 2 ∨ 2 + bitsToLongs 128 ≤ 4) ∧
      bitmapShiftRight (fun a => BitVec.ofNat 64 (a + 1)) 2 0 3 128 4 = BitVec.ofNat 64 5 ∧
        bitmapShiftLeft (fun a => BitVec.ofNat 64 (a + 1)) 2 0 3 128 4 = BitVec.ofNat 64 5 :=
  have apart : BitmapApart 2 0 (bitsToLongs 128) := Or.inr (Or.inr (by decide))
  ⟨apart, by decide, by decide, bitmapShift_frame (fun a => BitVec.ofNat 64 (a + 1)) apart (by decide) (by decide)⟩

/-- A bitmap of 130 bits shifted in place by 67. -/
theorem bitmapShift_exact_in_place :
    BitmapApart 0 0 (bitsToLongs 130) ∧ 0 < 130 ∧ 67 ≤ 130 ∧
      ∀ i < 64 * bitsToLongs 130,
        bitmapBit (bitmapShiftRight (fun a => BitVec.ofNat 64 (a + 1)) 0 0 67 130) 0 i =
            (decide (i + 67 < 130) && bitmapBit (fun a => BitVec.ofNat 64 (a + 1)) 0 (i + 67)) ∧
          bitmapBit (bitmapShiftLeft (fun a => BitVec.ofNat 64 (a + 1)) 0 0 67 130) 0 i =
            (decide (i < 130) && decide (67 ≤ i) &&
              bitmapBit (fun a => BitVec.ofNat 64 (a + 1)) 0 (i - 67)) :=
  ⟨Or.inl rfl, by decide, by decide,
    bitmapShift_exact (fun a => BitVec.ofNat 64 (a + 1)) (Or.inl rfl) (by decide) (by decide)⟩

end LinuxKernel
