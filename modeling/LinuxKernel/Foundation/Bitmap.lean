import Mathlib.Data.BitVec
import Mathlib.Data.Fintype.Card

/-!
# Bitmaps

A word of `w` bits as a set of positions: `__set_bit`, `__clear_bit`, `find_next_zero_bit`
and `count`. A shift of several words builds each output word from two neighbours
(`getLsbD_funnelRight`, `getLsbD_funnelLeft`).
-/

namespace Bitmap

variable {w : Nat}

/-- A word of 64 positions has a position 0: the instance the slot literals of a 64-slot
layer are built with. -/
instance neZero64 : NeZero (64 : Nat) := Nat.instNeZeroSucc

def setBit (b : BitVec w) (n : Nat) : BitVec w := b ||| BitVec.twoPow w n

def clearBit (b : BitVec w) (n : Nat) : BitVec w := b &&& ~~~BitVec.twoPow w n

/-- The scan of `find_next_zero_bit` over the `k` positions from `n` on. -/
def scanZero (b : BitVec w) : Nat → Nat → Nat
  | _, 0 => w
  | n, k + 1 => if b.getLsbD n then scanZero b (n + 1) k else n

def findNextZero (b : BitVec w) (n : Nat) : Nat := scanZero b n (w - n)

/-- `find_next_bit(b, w, n)`: `find_next_zero_bit` over the complement. -/
def findNextBit (b : BitVec w) (n : Nat) : Nat := findNextZero (~~~b) n

@[simp] theorem getLsbD_setBit (b : BitVec w) (n m : Nat) :
    (setBit b n).getLsbD m = (b.getLsbD m || decide (n < w) && decide (n = m)) := by
  simp [setBit, BitVec.getLsbD_twoPow]

@[simp] theorem getLsbD_clearBit (b : BitVec w) (n m : Nat) :
    (clearBit b n).getLsbD m = (b.getLsbD m && !(decide (n < w) && decide (n = m))) := by
  by_cases hm : m < w
  · by_cases hn : n = m
    · subst hn
      simp [clearBit, hm]
    · simp [clearBit, hm, hn, Ne.symm hn]
  · have ge : w ≤ m := by omega
    rw [BitVec.getLsbD_of_ge _ _ ge, BitVec.getLsbD_of_ge _ _ ge, Bool.false_and]

theorem getLsbD_clearBit_self (b : BitVec w) (n : Nat) : (clearBit b n).getLsbD n = false := by
  rw [getLsbD_clearBit]
  by_cases hn : n < w
  · simp [hn]
  · simp [hn, BitVec.getLsbD_of_ge b n (by omega)]

theorem ext {a b : BitVec w} (h : ∀ m < w, a.getLsbD m = b.getLsbD m) : a = b :=
  BitVec.eq_of_getLsbD_eq fun m hm => h m hm

theorem eq_allOnes_iff (b : BitVec w) : b = BitVec.allOnes w ↔ ∀ m < w, b.getLsbD m = true := by
  constructor
  · rintro rfl m hm
    simp [hm]
  · intro h
    exact ext fun m hm => by simp [h m hm, hm]

/-! ## Two-word shifts and masks -/

theorem getLsbD_lowMask {left : Nat} (lt : left < w) (b : Nat) :
    (((1 : BitVec w) <<< left) - 1).getLsbD b = decide (b < left) := by
  have pow : 2 ^ left < 2 ^ w := Nat.pow_lt_pow_right (by decide) lt
  have pos : 0 < 2 ^ left := Nat.two_pow_pos left
  -- the mask is the number `2 ^ left - 1`, whose set bits are those below `left`
  have val : (((1 : BitVec w) <<< left) - 1).toNat = 2 ^ left - 1 := by
    have one : (1 : BitVec w).toNat = 1 := by
      simp
      omega
    rw [BitVec.toNat_sub, BitVec.toNat_shiftLeft, one, Nat.shiftLeft_eq, one_mul,
      Nat.mod_eq_of_lt pow]
    rw [show 2 ^ w - 1 + 2 ^ left = (2 ^ left - 1) + 2 ^ w by omega, Nat.add_mod_right,
      Nat.mod_eq_of_lt (by omega)]
  rw [← BitVec.testBit_toNat, val, Nat.testBit_two_pow_sub_one]

theorem getLsbD_funnelRight (upper lower : BitVec w) {r b : Nat} (hb : b < w) (hr : r < w)
    (zero : r = 0 → upper = 0) :
    (upper <<< (w - r) ||| lower >>> r).getLsbD b =
      if b + r < w then lower.getLsbD (b + r) else upper.getLsbD (b + r - w) := by
  by_cases r0 : r = 0
  · subst r0
    simp [zero rfl, hb]
  · simp only [BitVec.getLsbD_or, BitVec.getLsbD_shiftLeft, BitVec.getLsbD_ushiftRight]
    split_ifs with fits
    · simp [show b < w - r by omega, Nat.add_comm r b]
    · simp [hb, show ¬ b < w - r by omega, show b - (w - r) = b + r - w by omega,
        BitVec.getLsbD_of_ge lower (r + b) (by omega)]

theorem getLsbD_funnelLeft (lower upper : BitVec w) {r b : Nat} (hb : b < w) (hr : r < w)
    (zero : r = 0 → lower = 0) :
    (lower >>> (w - r) ||| upper <<< r).getLsbD b =
      if r ≤ b then upper.getLsbD (b - r) else lower.getLsbD (b + w - r) := by
  by_cases r0 : r = 0
  · subst r0
    simp [zero rfl, hb]
  · simp only [BitVec.getLsbD_or, BitVec.getLsbD_shiftLeft, BitVec.getLsbD_ushiftRight]
    split_ifs with fits
    · simp [hb, show ¬ b < r by omega, BitVec.getLsbD_of_ge lower (w - r + b) (by omega)]
    · simp [show b < r by omega, show w - r + b = b + w - r by omega]

section Scan

variable (b : BitVec w)

theorem scanZero_ge (n k : Nat) : n ≤ scanZero b n k ∨ scanZero b n k = w := by
  induction k generalizing n with
  | zero => exact .inr rfl
  | succ k ih =>
    rw [scanZero]
    split
    · rcases ih (n + 1) with h | h
      exacts [.inl (by omega), .inr h]
    · exact .inl le_rfl

theorem scanZero_spec (n k : Nat) :
    (∀ m, n ≤ m → m < scanZero b n k → m < n + k → b.getLsbD m = true) ∧
      (scanZero b n k = w ∨ (n ≤ scanZero b n k ∧ scanZero b n k < n + k ∧
        b.getLsbD (scanZero b n k) = false)) := by
  induction k generalizing n with
  | zero => exact ⟨fun m h₁ _ h₂ => absurd h₂ (by omega), .inl rfl⟩
  | succ k ih =>
    rw [scanZero]
    split
    · rename_i set
      obtain ⟨passed, found⟩ := ih (n + 1)
      refine ⟨fun m h₁ h₂ h₃ => ?_, ?_⟩
      · rcases Nat.eq_or_lt_of_le h₁ with rfl | lt
        exacts [set, passed m lt h₂ (by omega)]
      · rcases found with found | ⟨h₁, h₂, clear⟩
        exacts [.inl found, .inr ⟨by omega, by omega, clear⟩]
    · rename_i clear
      exact ⟨fun m h₁ h₂ _ => absurd h₂ (by omega), .inr ⟨le_rfl, by omega, by simpa using clear⟩⟩

end Scan

section Find

variable {b : BitVec w} {n : Nat}

theorem findNextZero_le (b : BitVec w) (n : Nat) : findNextZero b n ≤ w := by
  rcases (scanZero_spec b n (w - n)).2 with h | ⟨h₀, h, -⟩
  · exact (show findNextZero b n = w from h).le
  · have : findNextZero b n < n + (w - n) := h
    have : n ≤ findNextZero b n := h₀
    omega

/-- `find_next_zero_bit` finds a clear position at or after `n`, every position it passes is set,
and it returns `w` only when every position from `n` on is set. -/
theorem findNextZero_clear (h : findNextZero b n < w) :
    n ≤ findNextZero b n ∧ b.getLsbD (findNextZero b n) = false := by
  rcases (scanZero_spec b n (w - n)).2 with eq | ⟨h₁, -, clear⟩
  · exact absurd (show findNextZero b n = w from eq) h.ne
  · exact ⟨h₁, clear⟩

theorem getLsbD_of_lt_findNextZero {m : Nat} (h₁ : n ≤ m) (h₂ : m < findNextZero b n) :
    b.getLsbD m = true :=
  (scanZero_spec b n (w - n)).1 m h₁ h₂ (by have := findNextZero_le b n; omega)

theorem findNextZero_eq_of_clear {m : Nat} (hm : n ≤ m) (hw : m < w) (clear : b.getLsbD m = false)
    (set : ∀ j, n ≤ j → j < m → b.getLsbD j = true) : findNextZero b n = m := by
  rcases Nat.lt_trichotomy (findNextZero b n) m with lt | eq | gt
  · obtain ⟨le, clear'⟩ := findNextZero_clear (lt_trans lt hw)
    rw [set _ le lt] at clear'
    cases clear'
  · exact eq
  · rw [getLsbD_of_lt_findNextZero hm gt] at clear
    cases clear

theorem findNextBit_set (h : findNextBit b n < w) :
    n ≤ findNextBit b n ∧ b.getLsbD (findNextBit b n) = true := by
  obtain ⟨le, clear⟩ := findNextZero_clear (b := ~~~b) h
  refine ⟨le, ?_⟩
  rw [BitVec.getLsbD_not, Bool.and_eq_false_iff] at clear
  rcases clear with outside | set
  · exact absurd h (by simpa [findNextBit] using outside)
  · simpa [findNextBit] using set

theorem findNextBit_ge (n : Nat) : n ≤ findNextBit b n ∨ findNextBit b n = w :=
  scanZero_ge (~~~b) n (w - n)

theorem findNextBit_zero (n : Nat) : findNextBit (0 : BitVec w) n = w := by
  have le : findNextBit (0 : BitVec w) n ≤ w := findNextZero_le _ n
  by_contra ne
  have set := (findNextBit_set (b := 0) (lt_of_le_of_ne le ne)).2
  simp at set

theorem find?_range'_eq_findNextZero {f : Nat → Bool} {base l : Nat}
    (hf : ∀ m < w, f (base + m) = b.getLsbD m) (hn : n ≤ l) (hl : l ≤ w) :
    (List.range' (base + n) (l - n)).find? (fun p => !f p) =
      if findNextZero b n < l then some (base + findNextZero b n) else none := by
  split
  · rename_i lt
    obtain ⟨le, clear⟩ := findNextZero_clear (lt_of_lt_of_le lt hl)
    rw [List.find?_range'_eq_some, List.mem_range'_1]
    refine ⟨by rw [hf _ (by omega), clear]; rfl, ⟨by omega, by omega⟩, ?_⟩
    intro j lo hi
    obtain ⟨m, rfl⟩ : ∃ m, j = base + m := ⟨j - base, by omega⟩
    rw [hf m (by omega), getLsbD_of_lt_findNextZero (n := n) (m := m) (by omega) (by omega)]
    rfl
  · rename_i ge
    rw [List.find?_range'_eq_none]
    intro j lo hi
    obtain ⟨m, rfl⟩ : ∃ m, j = base + m := ⟨j - base, by omega⟩
    rw [hf m (by omega), getLsbD_of_lt_findNextZero (n := n) (m := m) (by omega) (by omega)]
    rfl

theorem find?_range'_eq_findNextBit {f : Nat → Bool} {base l : Nat}
    (hf : ∀ m < w, f (base + m) = b.getLsbD m) (hn : n ≤ l) (hl : l ≤ w) :
    (List.range' (base + n) (l - n)).find? f =
      if findNextBit b n < l then some (base + findNextBit b n) else none := by
  have complement : ∀ m < w, (fun p => !f p) (base + m) = (~~~b).getLsbD m := by
    intro m lt
    simp [hf m lt, lt]
  have := @find?_range'_eq_findNextZero w (~~~b) n (fun p => !f p) base l complement hn hl
  simp only [Bool.not_not] at this
  exact this

end Find

/-! ### The first position of a range -/

/-- The first position of `[lo, hi)` where `p` holds, or `hi` when there is none. -/
def firstIn (p : Nat → Bool) (lo hi : Nat) : Nat := ((List.range' lo (hi - lo)).find? p).getD hi

section FirstIn

variable {p : Nat → Bool} {lo hi : Nat}

theorem firstIn_cases (p : Nat → Bool) (lo hi : Nat) :
    (firstIn p lo hi = hi ∧ ∀ j, lo ≤ j → j < hi → p j = false) ∨
      (lo ≤ firstIn p lo hi ∧ firstIn p lo hi < hi ∧ p (firstIn p lo hi) = true ∧
        ∀ j, lo ≤ j → j < firstIn p lo hi → p j = false) := by
  unfold firstIn
  cases find : (List.range' lo (hi - lo)).find? p with
  | none =>
    refine .inl ⟨rfl, fun j le lt => ?_⟩
    have := List.find?_eq_none.mp find j (List.mem_range'_1.mpr ⟨le, by omega⟩)
    simpa using this
  | some i =>
    simp only [Option.getD_some]
    obtain ⟨holds, mem, before⟩ := List.find?_range'_eq_some.mp find
    rw [List.mem_range'_1] at mem
    exact .inr ⟨mem.1, by omega, holds, fun j le lt => by simpa using before j le lt⟩

theorem firstIn_le : firstIn p lo hi ≤ hi := by
  rcases firstIn_cases p lo hi with ⟨eq, -⟩ | ⟨-, lt, -⟩ <;> omega

theorem le_firstIn (le : lo ≤ hi) : lo ≤ firstIn p lo hi := by
  rcases firstIn_cases p lo hi with ⟨eq, -⟩ | ⟨ge, -⟩ <;> omega

theorem le_firstIn_of_lt (lt : firstIn p lo hi < hi) : lo ≤ firstIn p lo hi := by
  rcases firstIn_cases p lo hi with ⟨eq, -⟩ | ⟨ge, -⟩ <;> omega

theorem firstIn_false {j : Nat} (le : lo ≤ j) (lt : j < firstIn p lo hi) : p j = false := by
  rcases firstIn_cases p lo hi with ⟨eq, none⟩ | ⟨-, -, -, before⟩
  · exact none j le (by omega)
  · exact before j le lt

theorem firstIn_true (lt : firstIn p lo hi < hi) : p (firstIn p lo hi) = true := by
  rcases firstIn_cases p lo hi with ⟨eq, -⟩ | ⟨-, -, holds, -⟩
  · omega
  · exact holds

theorem firstIn_eq_of_true {r : Nat} (le : lo ≤ r) (lt : r < hi) (holds : p r = true)
    (before : ∀ j, lo ≤ j → j < r → p j = false) : firstIn p lo hi = r := by
  rcases Nat.lt_trichotomy (firstIn p lo hi) r with below | same | above
  · -- an earlier position found would be one where `p` fails
    have found := firstIn_true (p := p) (lt_trans below lt)
    rw [before _ (le_firstIn_of_lt (lt_trans below lt)) below] at found
    cases found
  · exact same
  · rw [firstIn_false le above] at holds
    cases holds

theorem firstIn_eq_hi (none : ∀ j, lo ≤ j → j < hi → p j = false) : firstIn p lo hi = hi := by
  rcases firstIn_cases p lo hi with ⟨eq, -⟩ | ⟨ge, lt, holds, -⟩
  · exact eq
  · rw [none _ ge lt] at holds
    cases holds

theorem firstIn_split {mid : Nat} (loLe : lo ≤ mid) (midLe : mid ≤ hi) :
    firstIn p lo hi = if firstIn p lo mid < mid then firstIn p lo mid else firstIn p mid hi := by
  split
  · rename_i found
    exact firstIn_eq_of_true (le_firstIn_of_lt found) (by omega) (firstIn_true found)
      fun j le lt => firstIn_false le lt
  · rename_i missed
    have passed : firstIn p lo mid = mid := le_antisymm firstIn_le (by omega)
    rcases firstIn_cases p mid hi with ⟨eq, none⟩ | ⟨ge, lt, holds, before⟩
    · rw [eq]
      refine firstIn_eq_hi fun j le lt => ?_
      by_cases low : j < mid
      · exact firstIn_false le (passed ▸ low)
      · exact none j (by omega) lt
    · refine firstIn_eq_of_true (by omega) lt holds fun j le below => ?_
      by_cases low : j < mid
      · exact firstIn_false le (passed ▸ low)
      · exact before j (by omega) below

end FirstIn

/-! ### Counting -/

/-- The number of positions where `f` is set. -/
def count (f : Fin w → Bool) : Nat := (Finset.univ.filter fun n => f n = true).card

/-- The number of set bits of `b`. -/
def weight (b : BitVec w) : Nat := count fun n : Fin w => b.getLsbD n

section Count

variable {f g : Fin w → Bool}

theorem count_of_set {n : Fin w} (hf : f n = false) (hg : g n = true) (same : ∀ m, m ≠ n → g m = f m) :
    count g = count f + 1 := by
  have eq : Finset.univ.filter (fun m => g m = true) = insert n (Finset.univ.filter fun m => f m = true) := by
    ext m
    by_cases hm : m = n
    · subst hm
      simp [hg]
    · simp [hm, same m hm]
  rw [count, eq, Finset.card_insert_of_notMem (by simp [hf]), count]

theorem count_eq_zero : count f = 0 ↔ ∀ n, f n = false := by
  simp [count, Finset.card_eq_zero, Finset.filter_eq_empty_iff]

theorem count_le : count f ≤ w := by
  have := Finset.card_filter_le Finset.univ fun n => f n = true
  rwa [Finset.card_univ, Fintype.card_fin] at this

theorem count_eq_iff : count f = w ↔ ∀ n, f n = true := by
  constructor
  · intro h n
    have := Finset.eq_univ_of_card _ (h.trans (Fintype.card_fin w).symm)
    simpa using Finset.ext_iff.mp this n
  · intro h
    simp [count, h]

theorem eq_false_of_count_eq_one {n : Fin w} (h : count f = 1) (hn : f n = true) {m : Fin w}
    (hm : m ≠ n) : f m = false := by
  obtain ⟨a, ha⟩ := Finset.card_eq_one.mp h
  have mem : ∀ i, f i = true ↔ i = a := fun i => by simpa using Finset.ext_iff.mp ha i
  rw [(mem n).mp hn] at hm
  cases hf : f m
  · rfl
  · exact absurd ((mem m).mp hf) hm

end Count

@[simp] theorem weight_zero : weight (0 : BitVec w) = 0 :=
  count_eq_zero.mpr fun _ => BitVec.getLsbD_zero

theorem weight_setBit {b : BitVec w} {n : Fin w} (clear : b.getLsbD n = false) :
    weight (setBit b n) = weight b + 1 :=
  count_of_set (f := fun m : Fin w => b.getLsbD m) (g := fun m : Fin w => (setBit b n).getLsbD m)
    clear (by simp [n.isLt]) fun m hm => by rw [getLsbD_setBit]; simp [Fin.val_ne_of_ne (Ne.symm hm)]

theorem weight_clearBit {b : BitVec w} {n : Fin w} (set : b.getLsbD n = true) :
    weight (clearBit b n) + 1 = weight b :=
  (count_of_set (f := fun m : Fin w => (clearBit b n).getLsbD m) (g := fun m : Fin w => b.getLsbD m)
    (getLsbD_clearBit_self b n) set fun m hm => by rw [getLsbD_clearBit]; simp [Fin.val_ne_of_ne (Ne.symm hm)]).symm

end Bitmap
