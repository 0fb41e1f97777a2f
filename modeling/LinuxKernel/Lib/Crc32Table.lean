import LinuxKernel.Lib.Crc32

/-!
# CRC32: the generated tables

What `gen_crc32table.c` writes. Row 0 is filled by linearity: `crc32init_le_generic` halves the
index (`initLeHalve_spec`), `crc32init_be` doubles it (`initBeDouble_spec`); the row loop steps
each entry eight more times per row (`initColumns_entry`).
-/

namespace LinuxKernel.Crc32

open Lfsr

/-! ### The bit steps are the register's steps -/

theorem and_one_ne_zero (crc : BitVec 32) : crc &&& 1 ≠ 0 ↔ crc.getLsbD 0 = true := by
  rw [show (1 : BitVec 32) = 1#32 from rfl, BitVec.and_one_eq_setWidth_ofBool_getLsbD]
  cases crc.getLsbD 0 <;> decide

theorem and_top_ne_zero (crc : BitVec 32) : crc &&& 0x80000000 ≠ 0 ↔ crc.getMsbD 0 = true := by
  have bit : ∀ i, (crc &&& 0x80000000).getLsbD i = (decide (i = 31) && crc.getMsbD 0) := by
    intro i
    rw [show (0x80000000 : BitVec 32) = BitVec.twoPow 32 31 by decide, BitVec.getLsbD_and,
      BitVec.getLsbD_twoPow, BitVec.getMsbD_eq_getLsbD]
    by_cases last : i = 31
    · subst last; simp [Bool.and_comm]
    · simp [last, Ne.symm last]
  constructor
  · intro nonzero
    by_contra top
    apply nonzero
    apply BitVec.eq_of_getLsbD_eq
    intro i _
    rw [bit, Bool.eq_false_iff.mpr top]
    simp
  · intro top zero
    have := bit 31
    rw [zero, top] at this
    simp at this

theorem crcLeBit_eq (polynomial : BitVec 32) : crcLeBit polynomial = stepRight polynomial := by
  funext crc
  simp only [crcLeBit, stepRight, and_one_ne_zero]

theorem crcBeBit_eq (polynomial : BitVec 32) : crcBeBit polynomial = stepLeft polynomial := by
  funext crc
  simp only [crcBeBit, stepLeft, and_top_ne_zero]

/-! ### Row 0 of the little-endian table -/

/-- `log2` of the table size: the number of steps row 0 holds. -/
def tableBits (bits : CrcBits) : Nat := if bits.toNat > 8 then 8 else bits.toNat

theorem tableSize_eq (bits : CrcBits) : tableSize bits = 2 ^ tableBits bits := by
  cases bits <;> rfl

theorem tableBits_le (bits : CrcBits) : tableBits bits ≤ 8 := by
  cases bits <;> decide

theorem tableBits_pos (bits : CrcBits) : 0 < tableBits bits := by
  cases bits <;> decide

theorem ofNat_add_of_disjoint {a b : Nat}
    (disjoint : ∀ i, a.testBit i = true → b.testBit i = false) :
    BitVec.ofNat 32 (a + b) = BitVec.ofNat 32 a ^^^ BitVec.ofNat 32 b := by
  have bits : ∀ i, (BitVec.ofNat 32 a).getLsbD i = true → (BitVec.ofNat 32 b).getLsbD i = false := by
    intro i ha
    rw [BitVec.getLsbD_ofNat] at ha ⊢
    rw [disjoint i (Bool.and_eq_true_iff.mp ha).2, Bool.and_false]
  have none : BitVec.ofNat 32 a &&& BitVec.ofNat 32 b = 0 := by
    apply BitVec.eq_of_getLsbD_eq
    intro i _
    rw [BitVec.getLsbD_and, BitVec.ofNat_eq_ofNat, BitVec.getLsbD_zero]
    cases h : (BitVec.ofNat 32 a).getLsbD i
    · rfl
    · rw [bits i h, Bool.and_false]
  rw [BitVec.ofNat_add, BitVec.add_eq_or_of_and_eq_zero _ _ none]
  apply BitVec.eq_of_getLsbD_eq
  intro i _
  rw [BitVec.getLsbD_or, BitVec.getLsbD_xor]
  cases h : (BitVec.ofNat 32 a).getLsbD i
  · rw [Bool.false_or, Bool.false_xor]
  · rw [bits i h]; rfl

theorem ofNat_two_pow_add {k j : Nat} (hj : 2 ^ (k + 1) ∣ j) :
    BitVec.ofNat 32 (2 ^ k + j) = BitVec.ofNat 32 (2 ^ k) ^^^ BitVec.ofNat 32 j := by
  obtain ⟨m, rfl⟩ := hj
  apply ofNat_add_of_disjoint
  intro i hi
  rw [Nat.testBit_two_pow] at hi
  rw [Nat.testBit_two_pow_mul, decide_eq_false (by simp at hi; omega), Bool.false_and]

theorem ofNat_two_pow_add_lt {k j : Nat} (hj : j < 2 ^ k) :
    BitVec.ofNat 32 (2 ^ k + j) = BitVec.ofNat 32 (2 ^ k) ^^^ BitVec.ofNat 32 j := by
  apply ofNat_add_of_disjoint
  intro i hi
  rw [Nat.testBit_two_pow] at hi
  simp only [decide_eq_true_eq] at hi
  subst hi
  exact Nat.testBit_lt_two_pow hj

theorem iterate_stepRight_two_pow (polynomial : BitVec 32) {b k : Nat} (hk : k ≤ b) (hb : b < 32) :
    (stepRight polynomial)^[b] (BitVec.ofNat 32 (2 ^ k)) = (stepRight polynomial)^[b - k] 1 := by
  have down : (stepRight polynomial)^[k] (BitVec.ofNat 32 (2 ^ k)) = 1 := by
    rw [iterate_stepRight_of_low_clear polynomial k _ (fun i hi => by
      rw [BitVec.getLsbD_ofNat, Nat.testBit_two_pow, decide_eq_false (by omega : k ≠ i),
        Bool.and_false])]
    apply BitVec.eq_of_getLsbD_eq
    intro i hi
    simp only [BitVec.getLsbD_ushiftRight, BitVec.getLsbD_ofNat, Nat.testBit_two_pow]
    by_cases zero : i = 0
    · subst zero; simp; omega
    · have : (1 : BitVec 32).getLsbD i = false := by
        simp [BitVec.getLsbD_one, zero]
      rw [this]; simp; omega
  rw [show b = (b - k) + k by omega, Function.iterate_add_apply, down, Nat.add_sub_cancel]

section GeneratorLe

variable (polynomial : BitVec 32)

theorem eq_or_eq_add_of_dvd {K j n : Nat} (hj : K ∣ j) (hn : K ∣ n) (lo : j ≤ n)
    (hi : n < j + 2 * K) : n = j ∨ n = j + K := by
  obtain ⟨q, hq⟩ : K ∣ n - j := Nat.dvd_sub hn hj
  have : K * q < K * 2 := by omega
  have : q < 2 := Nat.lt_of_mul_lt_mul_left this
  rcases (by omega : q = 0 ∨ q = 1) with rfl | rfl
  · left; rw [Nat.mul_zero] at hq; omega
  · right; rw [Nat.mul_one] at hq; omega

theorem ne_add_of_dvd {K j n : Nat} (positive : 0 < K) (hj : 2 * K ∣ j) (hn : 2 * K ∣ n) :
    n ≠ K + j := by
  intro eq
  have : 2 * K ∣ K := by
    have := Nat.dvd_sub hn hj
    rwa [eq, Nat.add_sub_cancel] at this
  have := Nat.le_of_dvd positive this
  omega

/-- One pass of the first loop, for `i = 2 ^ k`: with every entry at a multiple of
`2 ^ (k + 1)` right and `crc` the entry for `2 ^ k`, the pass from `j` on makes every entry at
a multiple of `2 ^ k` right. -/
theorem initLeFill_spec {b k size j : Nat} {crc : BitVec 32} {tab : Table}
    (positive : 0 < 2 ^ k)
    (hcrc : crc = (stepRight polynomial)^[b] (BitVec.ofNat 32 (2 ^ k)))
    (hj : 2 ^ (k + 1) ∣ j)
    (upper : ∀ n < size, 2 ^ (k + 1) ∣ n →
      tab.entry 0 n = (stepRight polynomial)^[b] (BitVec.ofNat 32 n))
    (done : ∀ n < j, 2 ^ k ∣ n → tab.entry 0 n = (stepRight polynomial)^[b] (BitVec.ofNat 32 n)) :
    ∀ n < size, 2 ^ k ∣ n →
      (initLeFill size (2 ^ k) positive crc tab j).entry 0 n =
        (stepRight polynomial)^[b] (BitVec.ofNat 32 n) := by
  have double : 2 ^ (k + 1) = 2 * 2 ^ k := by rw [Nat.pow_succ, Nat.mul_comm]
  induction tab, j using initLeFill.induct size (2 ^ k) positive crc with
  | case1 tab j inside ih =>
    rw [initLeFill, if_pos inside]
    -- the entry written, `2 ^ k + j`, is `crc ^ tab[0][j]`: the entries for `2 ^ k` and `j`
    have written : crc ^^^ tab.entry 0 j =
        (stepRight polynomial)^[b] (BitVec.ofNat 32 (2 ^ k + j)) := by
      rw [hcrc, upper j inside hj, ofNat_two_pow_add hj, iterate_stepRight_xor]
    apply ih (by rw [double] at hj ⊢; exact Nat.dvd_add hj (Nat.dvd_refl _))
    · intro n hn multiple
      rw [Table.entry_set, if_neg (fun ⟨_, eq⟩ => ne_add_of_dvd positive (double ▸ hj)
        (double ▸ multiple) eq)]
      exact upper n hn multiple
    · intro n hn multiple
      rw [Table.entry_set]
      by_cases at_written : n = 2 ^ k + j
      · rw [if_pos ⟨rfl, at_written⟩, at_written, written]
      · rw [if_neg (fun ⟨_, eq⟩ => at_written eq)]
        by_cases before : n < j
        · exact done n before multiple
        · have : n = j := by
            rcases eq_or_eq_add_of_dvd (Nat.dvd_trans (Dvd.intro_left 2 rfl) (double ▸ hj))
              multiple (by omega) (by omega) with eq | eq
            · exact eq
            · omega
          subst this
          exact upper n inside hj
  | case2 tab j outside =>
    rw [initLeFill, if_neg outside]
    intro n hn multiple
    exact done n (by omega) multiple

theorem initLeHalve_two_pow (size k : Nat) (crc : BitVec 32) (tab : Table) :
    initLeHalve size polynomial (2 ^ k) crc tab =
      initLeHalve size polynomial (2 ^ k >>> 1) (crcLeBit polynomial crc)
        (initLeFill size (2 ^ k) (Nat.two_pow_pos k) (crcLeBit polynomial crc) tab 0) := by
  rw [initLeHalve, dif_neg (Nat.two_pow_pos k).ne']

/-- The first loop of `crc32init_le_generic` from the pass for `2 ^ k` on: with `crc` the
register `b - (k + 1)` steps from 1 and the entries at multiples of `2 ^ (k + 1)` right, the
loop leaves every entry of row 0 right. -/
theorem initLeHalve_spec {b size : Nat} (hb : b < 32) :
    ∀ k < b, ∀ crc tab, crc = (stepRight polynomial)^[b - (k + 1)] 1 →
      (∀ n < size, 2 ^ (k + 1) ∣ n →
        tab.entry 0 n = (stepRight polynomial)^[b] (BitVec.ofNat 32 n)) →
      ∀ n < size, (initLeHalve size polynomial (2 ^ k) crc tab).entry 0 n =
        (stepRight polynomial)^[b] (BitVec.ofNat 32 n) := by
  intro k
  induction k with
  | zero =>
    intro hk crc tab hcrc upper
    rw [initLeHalve_two_pow, show (2 ^ 0 : Nat) >>> 1 = 0 by rfl, initLeHalve, dif_pos rfl]
    -- the last pass, for 1, leaves every entry right
    have stepped : crcLeBit polynomial crc =
        (stepRight polynomial)^[b] (BitVec.ofNat 32 (2 ^ 0)) := by
      rw [crcLeBit_eq, hcrc, iterate_stepRight_two_pow polynomial (Nat.zero_le b) hb,
        ← Function.iterate_succ_apply' (stepRight polynomial)]
      congr 1
      omega
    have fill := initLeFill_spec polynomial (Nat.two_pow_pos 0) stepped (Nat.dvd_zero _)
      upper (fun n hn => absurd hn (Nat.not_lt_zero n))
    intro n hn
    exact fill n hn (Nat.one_dvd n)
  | succ k ih =>
    intro hk crc tab hcrc upper
    rw [initLeHalve_two_pow, show 2 ^ (k + 1) >>> 1 = 2 ^ k by
      rw [Nat.shiftRight_eq_div_pow, Nat.pow_succ, pow_one, Nat.mul_div_cancel _ (by omega)]]
    have stepped : crcLeBit polynomial crc = (stepRight polynomial)^[b - (k + 1)] 1 := by
      rw [crcLeBit_eq, hcrc, ← Function.iterate_succ_apply' (stepRight polynomial)]
      congr 1
      omega
    have entry : crcLeBit polynomial crc =
        (stepRight polynomial)^[b] (BitVec.ofNat 32 (2 ^ (k + 1))) := by
      rw [stepped, iterate_stepRight_two_pow polynomial (by omega) hb]
    apply ih (by omega) _ _ stepped
    exact initLeFill_spec polynomial (Nat.two_pow_pos (k + 1)) entry (Nat.dvd_zero _) upper
      (fun n hn => absurd hn (Nat.not_lt_zero n))

/-- The inner row loop writes column `i` of the rows from `j` on, each one more row step than
the last, as long as the row step reads only row 0, which the loop never writes. -/
theorem initRows_entry {rowStep : Table → BitVec 32 → BitVec 32}
    (reads0 : ∀ tab tab' : Table, (∀ m, tab.entry 0 m = tab'.entry 0 m) → rowStep tab = rowStep tab')
    (rows i : Nat) (crc : BitVec 32) (tab : Table) (j : Nat) (hj : 1 ≤ j) (r n : Nat) :
    (initRows rowStep rows i crc tab j).entry r n =
      if n = i ∧ j ≤ r ∧ r < rows then (rowStep tab)^[r - j + 1] crc else tab.entry r n := by
  induction crc, tab, j using initRows.induct rowStep rows i with
  | case1 crc tab j inside next ih =>
    rw [initRows, if_pos inside]
    dsimp only
    have same : rowStep (tab.set j i next) = rowStep tab :=
      reads0 _ _ (fun m => by rw [Table.entry_set, if_neg (by omega)])
    rw [ih (by omega), same, Table.entry_set,
      show next = rowStep tab crc from rfl]
    by_cases later : n = i ∧ j + 1 ≤ r ∧ r < rows
    · rw [if_pos later, if_pos ⟨later.1, by omega, later.2.2⟩, ← Function.iterate_succ_apply]
      congr 1
      omega
    · rw [if_neg later]
      by_cases here : r = j ∧ n = i
      · rw [if_pos here, if_pos ⟨here.2, by omega, by omega⟩, show r - j + 1 = 1 by omega]
        rfl
      · rw [if_neg here, if_neg (fun ⟨at_i, from_j, below⟩ =>
          if h : r = j then here ⟨h, at_i⟩ else later ⟨at_i, by omega, below⟩)]
  | case2 crc tab j outside =>
    rw [initRows, if_neg outside, if_neg (by omega)]

theorem initColumns_entry {rowStep : Table → BitVec 32 → BitVec 32}
    (reads0 : ∀ tab tab' : Table, (∀ m, tab.entry 0 m = tab'.entry 0 m) → rowStep tab = rowStep tab')
    (size rows : Nat) (tab : Table) (i r n : Nat) :
    (initColumns rowStep size rows tab i).entry r n =
      if 1 ≤ r ∧ r < rows ∧ i ≤ n ∧ n < size then (rowStep tab)^[r] (tab.entry 0 n)
      else tab.entry r n := by
  induction tab, i using initColumns.induct rowStep size rows with
  | case1 tab i inside ih =>
    rw [initColumns, if_pos inside, ih]
    -- the column just written leaves row 0, and so the row step, as they were
    have row0 : ∀ m, (initRows rowStep rows i (tab.entry 0 i) tab 1).entry 0 m = tab.entry 0 m := by
      intro m
      rw [initRows_entry reads0 _ _ _ _ _ le_rfl, if_neg (by omega)]
    have same : rowStep (initRows rowStep rows i (tab.entry 0 i) tab 1) = rowStep tab :=
      reads0 _ _ row0
    rw [same, row0, initRows_entry reads0 _ _ _ _ _ le_rfl]
    by_cases later : 1 ≤ r ∧ r < rows ∧ i + 1 ≤ n ∧ n < size
    · rw [if_pos later, if_pos ⟨later.1, later.2.1, by omega, later.2.2.2⟩]
    · rw [if_neg later]
      by_cases here : n = i ∧ 1 ≤ r ∧ r < rows
      · rw [if_pos here, if_pos ⟨here.2.1, here.2.2, by omega, by omega⟩, here.1,
          show r - 1 + 1 = r by omega]
      · rw [if_neg here, if_neg (fun ⟨one, below, from_i, inside_n⟩ =>
          if h : n = i then here ⟨h, one, below⟩ else later ⟨one, below, by omega, inside_n⟩)]
  | case2 tab i outside =>
    rw [initColumns, if_neg outside, if_neg (by omega)]

/-- A table of the `k`-step values of every `k`-bit index computes `k` steps of any word:
its entry for the low `k` bits, and the word moved down `k` places. -/
theorem entry_xor_shiftRight {tab : Table} {k : Nat}
    (row0 : ∀ m < 2 ^ k, tab.entry 0 m = (stepRight polynomial)^[k] (BitVec.ofNat 32 m))
    (c : BitVec 32) :
    tab.entry 0 (c &&& lowMask 32 k).toNat ^^^ (c >>> k) = (stepRight polynomial)^[k] c := by
  have small : (c &&& lowMask 32 k).toNat < 2 ^ k := by
    rw [BitVec.toNat_and]
    calc c.toNat &&& (lowMask 32 k).toNat ≤ (lowMask 32 k).toNat := Nat.and_le_right
      _ < 2 ^ k := by
        rw [lowMask, BitVec.toNat_ofNat]
        exact lt_of_le_of_lt (Nat.mod_le _ _) (Nat.sub_lt (Nat.two_pow_pos k) Nat.one_pos)
  rw [row0 _ small, BitVec.ofNat_toNat, BitVec.setWidth_eq, ← iterate_stepRight_split]

theorem leRowStep_reads0 (tab tab' : Table) (same : ∀ m, tab.entry 0 m = tab'.entry 0 m) :
    leRowStep tab = leRowStep tab' := by
  funext c
  simp only [leRowStep, same]

theorem crc32initLeGeneric_entry (bits : CrcBits) (tab : Table) {r n : Nat}
    (hr : r < tableRows bits) (hn : n < tableSize bits) :
    (crc32initLeGeneric bits polynomial tab).entry r n =
      (stepRight polynomial)^[tableBits bits * (r + 1)] (BitVec.ofNat 32 n) := by
  have b_pos := tableBits_pos bits
  have b_le := tableBits_le bits
  have size_eq := tableSize_eq bits
  -- row 0 after the first loop: `b` steps of every index
  have row0 : ∀ m < tableSize bits,
      (initLeHalve (tableSize bits) polynomial (tableSize bits >>> 1) 1
        (tab.set 0 0 0)).entry 0 m = (stepRight polynomial)^[tableBits bits] (BitVec.ofNat 32 m) := by
    have half : tableSize bits >>> 1 = 2 ^ (tableBits bits - 1) := by
      rw [size_eq, Nat.shiftRight_eq_div_pow, pow_one,
        show tableBits bits = (tableBits bits - 1) + 1 by omega, Nat.pow_succ,
        Nat.mul_div_cancel _ (by omega), Nat.add_sub_cancel]
    have start : (1 : BitVec 32) =
        (stepRight polynomial)^[tableBits bits - (tableBits bits - 1 + 1)] 1 := by
      rw [show tableBits bits - (tableBits bits - 1 + 1) = 0 by omega]
      rfl
    rw [half]
    apply initLeHalve_spec polynomial (by omega) _ (by omega) _ _ start
    intro m hm multiple
    have zero : m = 0 := by
      rw [show tableBits bits - 1 + 1 = tableBits bits by omega, ← size_eq] at multiple
      exact Nat.eq_zero_of_dvd_of_lt multiple hm
    subst zero
    rw [Table.entry_set, if_pos ⟨rfl, rfl⟩, show BitVec.ofNat 32 0 = 0 from rfl,
      iterate_stepRight_zero]
  simp only [crc32initLeGeneric]
  rw [initColumns_entry leRowStep_reads0]
  by_cases first : r = 0
  · subst first
    rw [if_neg (by omega), row0 n hn, Nat.mul_one]
  · -- more than one row: the configuration slices and the table has 256 entries
    have slices : bits.toNat > 8 := by
      by_contra small
      simp [tableRows, small] at hr
      omega
    have bits8 : tableBits bits = 8 := by simp [tableBits, slices]
    rw [if_pos ⟨by omega, hr, Nat.zero_le n, hn⟩, row0 n hn]
    have step8 : leRowStep (initLeHalve (tableSize bits) polynomial (tableSize bits >>> 1) 1
        (tab.set 0 0 0)) = (stepRight polynomial)^[8] := by
      funext c
      rw [leRowStep, show (0xff : BitVec 32) = lowMask 32 8 by decide]
      exact entry_xor_shiftRight polynomial (fun m hm => by
        rw [row0 m (by rw [size_eq, bits8]; exact hm), bits8]) c
    rw [step8, bits8, ← Function.iterate_mul, ← Function.iterate_add_apply]
    congr 1

end GeneratorLe

/-! ### Row 0 of the big-endian table -/

section GeneratorBe

variable (polynomial : BitVec 32)

theorem iterate_stepLeft_two_pow {b k : Nat} (hk : k < b) (hb : b ≤ 32) :
    (stepLeft polynomial)^[b] (BitVec.ofNat 32 (2 ^ k) <<< (32 - b)) =
      (stepLeft polynomial)^[k + 1] 0x80000000 := by
  have bit : ∀ i, (BitVec.ofNat 32 (2 ^ k) <<< (32 - b)).getLsbD i =
      decide (i = k + (32 - b)) := by
    intro i
    rw [BitVec.getLsbD_shiftLeft, BitVec.getLsbD_ofNat, Nat.testBit_two_pow]
    by_cases at_k : i = k + (32 - b)
    · simp [at_k]; omega
    · simp [at_k]; omega
  have up : (stepLeft polynomial)^[b - (k + 1)] (BitVec.ofNat 32 (2 ^ k) <<< (32 - b)) =
      0x80000000 := by
    rw [iterate_stepLeft_of_high_clear polynomial _ _ (fun i hi => by
      rw [BitVec.getMsbD_eq_getLsbD, bit]; simp; omega)]
    apply BitVec.eq_of_getLsbD_eq
    intro i hi
    rw [BitVec.getLsbD_shiftLeft, bit, show (0x80000000 : BitVec 32) = BitVec.twoPow 32 31 by decide,
      BitVec.getLsbD_twoPow]
    by_cases top : 31 = i
    · subst top; simp; omega
    · simp [top]; omega
  rw [← up, ← Function.iterate_add_apply, Nat.add_sub_cancel' (by omega : k + 1 ≤ b)]

theorem stepLeft_entry_add {b k j : Nat} (hj : j < 2 ^ k) :
    (stepLeft polynomial)^[b] (BitVec.ofNat 32 (2 ^ k + j) <<< (32 - b)) =
      (stepLeft polynomial)^[b] (BitVec.ofNat 32 (2 ^ k) <<< (32 - b)) ^^^
        (stepLeft polynomial)^[b] (BitVec.ofNat 32 j <<< (32 - b)) := by
  rw [ofNat_two_pow_add_lt hj, BitVec.shiftLeft_xor_distrib, iterate_stepLeft_xor]

/-- One pass of the first loop of `crc32init_be`, for `i = 2 ^ k`: with the entries below
`2 ^ k` right and `crc` the entry for `2 ^ k`, the pass from `j` on makes the entries below
`2 ^ (k + 1)` right. -/
theorem initBeFill_spec {b k j : Nat} {crc : BitVec 32} {tab : Table}
    (hcrc : crc = (stepLeft polynomial)^[b] (BitVec.ofNat 32 (2 ^ k) <<< (32 - b)))
    (lower : ∀ n < 2 ^ k,
      tab.entry 0 n = (stepLeft polynomial)^[b] (BitVec.ofNat 32 n <<< (32 - b)))
    (done : ∀ n < j, tab.entry 0 (2 ^ k + n) =
      (stepLeft polynomial)^[b] (BitVec.ofNat 32 (2 ^ k + n) <<< (32 - b))) :
    ∀ n < 2 ^ (k + 1), (initBeFill (2 ^ k) crc tab j).entry 0 n =
      (stepLeft polynomial)^[b] (BitVec.ofNat 32 n <<< (32 - b)) := by
  induction tab, j using initBeFill.induct (2 ^ k) crc with
  | case1 tab j inside ih =>
    rw [initBeFill, if_pos inside]
    apply ih
    · intro n hn
      rw [Table.entry_set, if_neg (by omega)]
      exact lower n hn
    · intro n hn
      rw [Table.entry_set]
      by_cases last : n = j
      · subst last
        rw [if_pos ⟨rfl, rfl⟩, hcrc, lower n inside, stepLeft_entry_add polynomial inside]
      · rw [if_neg (by omega)]
        exact done n (by omega)
  | case2 tab j outside =>
    rw [initBeFill, if_neg outside]
    intro n hn
    by_cases low : n < 2 ^ k
    · exact lower n low
    · have := done (n - 2 ^ k) (by rw [Nat.pow_succ] at hn; omega)
      rwa [Nat.add_sub_cancel' (by omega)] at this

/-- The first loop of `crc32init_be` from the pass for `i = 2 ^ k` on: with `crc` the register
`k` steps from the top bit and the entries below `2 ^ k` right, the loop leaves every entry of
row 0 right. -/
theorem initBeDouble_spec {b : Nat} (hb : b ≤ 32) :
    ∀ d k, d = b - k → k ≤ b → ∀ i (positive : 0 < i), i = 2 ^ k → ∀ crc tab,
      crc = (stepLeft crcpolyBe)^[k] 0x80000000 →
      (∀ n < 2 ^ k, tab.entry 0 n = (stepLeft crcpolyBe)^[b] (BitVec.ofNat 32 n <<< (32 - b))) →
      ∀ n < 2 ^ b, (initBeDouble (2 ^ b) i positive crc tab).entry 0 n =
        (stepLeft crcpolyBe)^[b] (BitVec.ofNat 32 n <<< (32 - b)) := by
  intro d
  induction d with
  | zero =>
    intro k hd hk i positive hi crc tab hcrc lower
    have last : k = b := by omega
    subst last hi
    rw [initBeDouble, if_neg (Nat.lt_irrefl _)]
    exact lower
  | succ d ih =>
    intro k hd hk i positive hi crc tab hcrc lower
    subst hi
    rw [initBeDouble, if_pos (Nat.pow_lt_pow_right (by omega) (by omega))]
    dsimp only
    -- the pass for `2 ^ k`: the register is now the entry for `2 ^ k`
    have entry : crcBeBit crcpolyBe crc =
        (stepLeft crcpolyBe)^[b] (BitVec.ofNat 32 (2 ^ k) <<< (32 - b)) := by
      rw [crcBeBit_eq, hcrc, ← Function.iterate_succ_apply' (stepLeft crcpolyBe),
        iterate_stepLeft_two_pow crcpolyBe (by omega) hb]
    apply ih (k + 1) (by omega) (by omega) _ _ (by rw [Nat.shiftLeft_eq, ← Nat.pow_add])
      _ _ (by rw [crcBeBit_eq, hcrc, ← Function.iterate_succ_apply' (stepLeft crcpolyBe) k])
    exact initBeFill_spec crcpolyBe entry lower (fun n hn => absurd hn (Nat.not_lt_zero n))

/-- A table of the `k`-step values of every `k`-bit index placed at the top computes `k` steps
of any word: its entry for the high `k` bits, and the word moved up `k` places. -/
theorem entry_xor_shiftLeft {tab : Table} {k : Nat} (hk : k ≤ 32)
    (row0 : ∀ m < 2 ^ k,
      tab.entry 0 m = (stepLeft polynomial)^[k] (BitVec.ofNat 32 m <<< (32 - k)))
    (c : BitVec 32) :
    tab.entry 0 (c >>> (32 - k)).toNat ^^^ (c <<< k) = (stepLeft polynomial)^[k] c := by
  have small : (c >>> (32 - k)).toNat < 2 ^ k := by
    rw [BitVec.toNat_ushiftRight, Nat.shiftRight_eq_div_pow, Nat.div_lt_iff_lt_mul (by positivity),
      ← Nat.pow_add, show k + (32 - k) = 32 by omega]
    exact c.isLt
  rw [row0 _ small, BitVec.ofNat_toNat, BitVec.setWidth_eq,
    iterate_stepLeft_split polynomial k hk c]

theorem beRowStep_reads0 (tab tab' : Table) (same : ∀ m, tab.entry 0 m = tab'.entry 0 m) :
    beRowStep tab = beRowStep tab' := by
  funext c
  simp only [beRowStep, same]

theorem crc32initBe_entry (bits : CrcBits) {r n : Nat} (hr : r < tableRows bits)
    (hn : n < tableSize bits) :
    (crc32initBe bits).entry r n = (stepLeft crcpolyBe)^[tableBits bits * (r + 1)]
      (BitVec.ofNat 32 n <<< (32 - tableBits bits)) := by
  have b_le := tableBits_le bits
  have size_eq := tableSize_eq bits
  -- row 0 after the first loop
  have row0 : ∀ m < tableSize bits,
      (initBeDouble (tableSize bits) 1 Nat.one_pos 0x80000000 (Table.zero.set 0 0 0)).entry 0 m =
        (stepLeft crcpolyBe)^[tableBits bits] (BitVec.ofNat 32 m <<< (32 - tableBits bits)) := by
    intro m hm
    rw [size_eq] at hm ⊢
    apply initBeDouble_spec (by omega) _ 0 rfl (Nat.zero_le _) 1 Nat.one_pos rfl _ _ rfl _ m hm
    intro n hn
    have zero : n = 0 := by simpa using hn
    subst zero
    rw [Table.entry_set, if_pos ⟨rfl, rfl⟩]
    simp only [BitVec.ofNat_eq_ofNat, BitVec.zero_shiftLeft]
    exact (iterate_stepLeft_zero _ _).symm
  simp only [crc32initBe]
  rw [initColumns_entry beRowStep_reads0]
  by_cases first : r = 0
  · subst first
    rw [if_neg (by omega), row0 n hn, Nat.mul_one]
  · have slices : bits.toNat > 8 := by
      by_contra small
      simp [tableRows, small] at hr
      omega
    have bits8 : tableBits bits = 8 := by simp [tableBits, slices]
    rw [if_pos ⟨by omega, hr, Nat.zero_le n, hn⟩, row0 n hn]
    have step8 : beRowStep (initBeDouble (tableSize bits) 1 Nat.one_pos 0x80000000
        (Table.zero.set 0 0 0)) = (stepLeft crcpolyBe)^[8] := by
      funext c
      have top : (c >>> 24) &&& (0xff : BitVec 32) = c >>> (32 - 8) := by
        apply BitVec.eq_of_getLsbD_eq
        intro i hi
        rw [BitVec.getLsbD_and, show (0xff : BitVec 32) = lowMask 32 8 by decide, getLsbD_lowMask]
        by_cases low : i < 8
        · simp [low, hi]
        · simp [low, hi, BitVec.getLsbD_of_ge c (24 + i) (by omega)]
      rw [beRowStep, top]
      exact entry_xor_shiftLeft crcpolyBe (by omega) (fun m hm => by
        rw [row0 m (by rw [size_eq, bits8]; exact hm), bits8]) c
    rw [step8, bits8, ← Function.iterate_mul, ← Function.iterate_add_apply]
    congr 1

end GeneratorBe

section Tables

variable (polynomial : BitVec 32)

/-- What a generated little-endian table holds: row `r` at index `m` is `tableBits * (r + 1)`
steps from `m`. -/
def TableLe (bits : CrcBits) (tab : Table) : Prop :=
  ∀ r < tableRows bits, ∀ m < tableSize bits,
    tab.entry r m = (stepRight polynomial)^[tableBits bits * (r + 1)] (BitVec.ofNat 32 m)

theorem tableLe_crc32initLeGeneric (bits : CrcBits) (tab : Table) :
    TableLe polynomial bits (crc32initLeGeneric bits polynomial tab) :=
  fun _ hr _ hm => crc32initLeGeneric_entry polynomial bits tab hr hm

/-- What a generated big-endian table holds: row `r` at index `m` is `tableBits * (r + 1)`
steps from `m` placed at the top of the register, byte-swapped by `tobe` when the configuration
slices. -/
def TableBe (bits : CrcBits) (tab : Table) : Prop :=
  ∀ r < tableRows bits, ∀ m < tableSize bits, tab.entry r m =
    tobe bits ((stepLeft polynomial)^[tableBits bits * (r + 1)]
      (BitVec.ofNat 32 m <<< (32 - tableBits bits)))

theorem tableBe_crc32tableBe (bits : CrcBits) : TableBe crcpolyBe bits (crc32tableBe bits) := by
  intro r hr m hm
  show tobe bits ((crc32initBe bits).entry r m) = _
  rw [crc32initBe_entry bits hr hm]

end Tables

end LinuxKernel.Crc32
