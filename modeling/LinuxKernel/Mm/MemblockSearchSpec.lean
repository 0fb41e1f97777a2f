import LinuxKernel.Mm.MemblockFind
import LinuxKernel.Mm.MemblockFreeSpec
import LinuxKernel.Mm.MemblockBoot

/-!
# `memblock_search` finds the region that holds an address

The loop keeps `SearchInv`; with fewer than `2^31` regions and enough rounds it returns what a
linear scan gives (`regionIndex`). For a size of 0, `memblock_is_region_memory` answers whether
`base` is memory.
-/

namespace LinuxKernel

open MemblockType

/-- The index of the first region that holds `addr`, `-1` if none does. -/
def regionIndex (l : List MemblockRegion) (addr : Nat) : Int :=
  match l.findIdx? fun r => decide (r.base ≤ addr ∧ addr < r.base + r.size) with
  | some i => i
  | none => -1

section Index

variable {l : List MemblockRegion} {addr : Nat}

theorem regionIndex_of_first {i : Nat} (hi : i < l.length)
    (holds : (l.getD i emptyRegion).base ≤ addr ∧ addr < (l.getD i emptyRegion).base + (l.getD i emptyRegion).size)
    (before : ∀ j < i, ¬((l.getD j emptyRegion).base ≤ addr ∧
      addr < (l.getD j emptyRegion).base + (l.getD j emptyRegion).size)) :
    regionIndex l addr = i := by
  have first : l.findIdx? (fun r => decide (r.base ≤ addr ∧ addr < r.base + r.size)) = some i := by
    refine List.findIdx?_eq_some_iff_getElem.mpr ⟨hi, ?_, fun j hj => ?_⟩
    · rw [← List.getD_eq_getElem _ emptyRegion hi]
      exact decide_eq_true holds
    · rw [← List.getD_eq_getElem _ emptyRegion (by omega)]
      exact fun found => before j hj (of_decide_eq_true found)
  simp only [regionIndex, first]

theorem regionIndex_of_none
    (noHolder : ∀ j < l.length, ¬((l.getD j emptyRegion).base ≤ addr ∧
      addr < (l.getD j emptyRegion).base + (l.getD j emptyRegion).size)) :
    regionIndex l addr = -1 := by
  have missing : l.findIdx? (fun r => decide (r.base ≤ addr ∧ addr < r.base + r.size)) = none := by
    refine List.findIdx?_eq_none_iff.mpr fun r hr => ?_
    obtain ⟨j, hj, rfl⟩ := List.getElem_of_mem hr
    rw [← List.getD_eq_getElem _ emptyRegion hj]
    exact decide_eq_false (noHolder j hj)
  simp only [regionIndex, missing]

theorem regionIndex_spec (l : List MemblockRegion) (addr : Nat) :
    (regionIndex l addr = -1 ∧ ∀ r ∈ l, ¬(r.base ≤ addr ∧ addr < r.base + r.size)) ∨
      ∃ i < l.length, regionIndex l addr = i ∧
        (l.getD i emptyRegion).base ≤ addr ∧ addr < (l.getD i emptyRegion).base + (l.getD i emptyRegion).size := by
  unfold regionIndex
  split
  · rename_i i found
    obtain ⟨hi, holds, -⟩ := List.findIdx?_eq_some_iff_getElem.mp found
    rw [← List.getD_eq_getElem _ emptyRegion hi] at holds
    exact .inr ⟨i, hi, rfl, of_decide_eq_true holds⟩
  · rename_i missing
    exact .inl ⟨rfl, fun r hr => of_decide_eq_false (List.findIdx?_eq_none_iff.mp missing r hr)⟩

theorem regionIndex_ne_iff :
    regionIndex l addr ≠ -1 ↔ ∃ r ∈ l, r.base ≤ addr ∧ addr < r.base + r.size := by
  rcases regionIndex_spec l addr with ⟨minus, noHolder⟩ | ⟨i, hi, eq, holds⟩
  · simp only [minus, ne_eq, not_true_eq_false, false_iff]
    exact fun ⟨r, hr, holds⟩ => noHolder r hr holds
  · refine iff_of_true (by omega) ⟨_, ?_, holds⟩
    rw [List.getD_eq_getElem _ _ hi]
    exact List.getElem_mem hi

end Index

/-! ## The loop -/

/-- What the loop of `memblock_search` knows at the top of a round: `[left, right)` is not empty
and no region outside it holds `addr`. -/
structure SearchInv (l : List MemblockRegion) (addr left right : Nat) : Prop where
  lt : left < right
  le : right ≤ l.length
  below : ∀ j < left, (l.getD j emptyRegion).base + (l.getD j emptyRegion).size ≤ addr
  above : ∀ j, right ≤ j → j < l.length → addr < (l.getD j emptyRegion).base

section Loop

variable {l : List MemblockRegion} {addr : Nat} (sorted : l.Pairwise fun a b => a.base + a.size ≤ b.base)
include sorted

theorem base_le_of_le {i j : Nat} (le : i ≤ j) (hj : j < l.length) :
    (l.getD i emptyRegion).base ≤ (l.getD j emptyRegion).base := by
  rcases Nat.lt_or_eq_of_le le with lt | rfl
  · have := getD_end_le_of_pairwise sorted lt hj
    omega
  · exact le_rfl

theorem end_le_of_le {i j : Nat} (le : i ≤ j) (hj : j < l.length) :
    (l.getD i emptyRegion).base + (l.getD i emptyRegion).size ≤
      (l.getD j emptyRegion).base + (l.getD j emptyRegion).size := by
  rcases Nat.lt_or_eq_of_le le with lt | rfl
  · have := getD_end_le_of_pairwise sorted lt hj
    omega
  · exact le_rfl

theorem memblockSearchLoop_eq (small : l.length < 2 ^ 31) :
    ∀ fuel left right, SearchInv l addr left right → right - left < 2 ^ fuel →
      memblockSearchLoop l addr fuel left right = some (regionIndex l addr) := by
  intro fuel
  induction fuel with
  | zero =>
    intro left right inv short
    have := inv.lt
    rw [Nat.pow_zero] at short
    omega
  | succ f ih =>
    intro left right inv short
    have lt := inv.lt
    have le := inv.le
    have halve : 2 ^ (f + 1) = 2 * 2 ^ f := Nat.pow_succ'
    -- `right + left` stays below `2^32`
    have midEq : (right + left) % 2 ^ 32 / 2 = (right + left) / 2 := by
      rw [Nat.mod_eq_of_lt (by omega)]
    simp only [memblockSearchLoop, midEq]
    generalize hm : (right + left) / 2 = mid
    have lo : left ≤ mid := by omega
    have hi : mid < right := by omega
    split_ifs with under goLeft past goRight
    · -- `right = mid`
      refine ih left mid ⟨goLeft, by omega, inv.below, fun j hj hjl => ?_⟩ (by omega)
      exact lt_of_lt_of_le under (base_le_of_le sorted hj hjl)
    · -- `[left, mid)` is empty: every region from `left` on starts above `addr`
      refine congrArg some (regionIndex_of_none fun j hj ⟨start, _⟩ => ?_).symm
      rcases Nat.lt_or_ge j left with before | after
      · have := inv.below j before
        omega
      · have := base_le_of_le sorted (show mid ≤ j by omega) hj
        omega
    · -- `left = mid + 1`
      rw [Nat.mod_eq_of_lt (by omega)] at goRight ⊢
      refine ih (mid + 1) right ⟨goRight, le, fun j hj => ?_, inv.above⟩ (by omega)
      have := end_le_of_le sorted (show j ≤ mid by omega) (by omega)
      omega
    · -- `[mid + 1, right)` is empty: every region up to `mid` ends by `addr`
      rw [Nat.mod_eq_of_lt (by omega)] at goRight
      refine congrArg some (regionIndex_of_none fun j hj ⟨_, ends⟩ => ?_).symm
      rcases Nat.lt_or_ge j right with inside | after
      · have := end_le_of_le sorted (show j ≤ mid by omega) (by omega)
        omega
      · have := inv.above j after hj
        omega
    · -- region `mid` holds `addr`, and every region before it ends by its base
      have first : regionIndex l addr = mid := by
        refine regionIndex_of_first (by omega) ⟨by omega, by omega⟩ fun j hj ⟨_, ends⟩ => ?_
        have := getD_end_le_of_pairwise sorted hj (by omega)
        omega
      rw [first, cInt, if_pos (by omega)]
      congr 1
      omega

theorem holder_unique {i : Nat} (hi : i < l.length)
    (holds : (l.getD i emptyRegion).base ≤ addr ∧ addr < (l.getD i emptyRegion).base + (l.getD i emptyRegion).size)
    {r : MemblockRegion} (hr : r ∈ l) (holds' : r.base ≤ addr ∧ addr < r.base + r.size) :
    r = l.getD i emptyRegion := by
  obtain ⟨j, hj, rfl⟩ := List.getElem_of_mem hr
  rw [← List.getD_eq_getElem _ emptyRegion hj] at holds' ⊢
  rcases Nat.lt_trichotomy j i with before | rfl | after
  · have := getD_end_le_of_pairwise sorted before hi
    omega
  · rfl
  · have := getD_end_le_of_pairwise sorted after hj
    omega

end Loop

theorem memblockSearch_eq {t : MemblockType} (sorted : t.regions.Pairwise fun a b => a.base + a.size ≤ b.base)
    (small : t.regions.length < 2 ^ 31) {fuel : Nat} (enough : 0 < fuel ∧ t.regions.length < 2 ^ fuel)
    (addr : Nat) : memblockSearch fuel t addr = some (regionIndex t.regions addr) := by
  unfold memblockSearch
  rw [Nat.mod_eq_of_lt (by omega)]
  rcases Nat.eq_zero_or_pos t.regions.length with empty | pos
  · -- `regions[0]` of an empty array reads as the empty region
    obtain ⟨f, rfl⟩ := Nat.exists_eq_add_of_lt enough.1
    have none : t.regions = [] := List.length_eq_zero_iff.mp empty
    simp [memblockSearchLoop, none, regionIndex, emptyRegion]
  · exact memblockSearchLoop_eq sorted small fuel 0 t.regions.length
      ⟨pos, le_rfl, fun j hj => absurd hj (Nat.not_lt_zero j), fun j hj hj' => absurd hj' (by omega)⟩
      (by omega)


section Lookup

variable {fuel : Nat} {t : MemblockType} (sorted : t.regions.Pairwise fun a b => a.base + a.size ≤ b.base)
  (small : t.regions.length < 2 ^ 31) (enough : 0 < fuel ∧ t.regions.length < 2 ^ fuel)
include sorted small enough

theorem memblockSearch_covered (addr : Nat) :
    ∃ b : Bool, (memblockSearch fuel t addr).map (fun idx => decide (idx ≠ -1)) = some b ∧
      (b = true ↔ addr ∈ t.covered) := by
  rw [memblockSearch_eq sorted small enough]
  exact ⟨_, rfl, decide_eq_true_iff.trans regionIndex_ne_iff⟩

theorem memblockIsRegionMemory_spec {mb : Memblock} (memory : mb.memory = t) (base size : Nat) :
    ∃ b, memblockIsRegionMemory fuel mb base size = some b ∧
      (b = true ↔ ∃ r ∈ mb.memory.regions, r.base ≤ base ∧ base < r.base + r.size ∧
        base + memblockCapSize base size ≤ r.base + r.size) := by
  subst memory
  unfold memblockIsRegionMemory
  rw [memblockSearch_eq sorted small enough]
  refine ⟨_, rfl, ?_⟩
  dsimp only
  rcases regionIndex_spec mb.memory.regions base with ⟨minus, noHolder⟩ | ⟨i, hi, eq, holds⟩
  · -- no region holds `base`
    simp only [minus, if_true, Bool.false_eq_true, false_iff]
    exact fun ⟨r, hr, start, inside, _⟩ => noHolder r hr ⟨start, inside⟩
  · -- the region found is the one region that holds `base`
    rw [eq, if_neg (by omega), Int.toNat_natCast, decide_eq_true_iff]
    constructor
    · rintro ⟨start, ends⟩
      refine ⟨_, ?_, start, holds.2, ends⟩
      rw [List.getD_eq_getElem _ _ hi]
      exact List.getElem_mem hi
    · rintro ⟨r, hr, start, inside, ends⟩
      rw [← holder_unique sorted hi holds hr ⟨start, inside⟩]
      exact ⟨start, ends⟩

end Lookup

/-- With fewer than `2^31` regions and enough rounds, `memblock_search` returns the index of the
region that holds `addr` or `-1`, so `memblock_is_memory` and `memblock_is_reserved` decide
membership, and `memblock_is_region_memory` whether the region holding `base` reaches
`base + size'`. -/
theorem memblockSearch_exact (fuel : Nat) (enough : 0 < fuel) :
    (∀ (t : MemblockType) (addr : Nat), t.regions.Pairwise (fun a b => a.base + a.size ≤ b.base) →
        t.regions.length < 2 ^ 31 → t.regions.length < 2 ^ fuel →
        ∃ idx, memblockSearch fuel t addr = some idx ∧
          ((idx = -1 ∧ addr ∉ t.covered) ∨
            ∃ i < t.regions.length, idx = i ∧ (t.regions.getD i emptyRegion).base ≤ addr ∧
              addr < (t.regions.getD i emptyRegion).base + (t.regions.getD i emptyRegion).size)) ∧
    (∀ (mb : Memblock) (addr base size : Nat), mb.Wf →
        mb.memory.regions.length < 2 ^ 31 → mb.reserved.regions.length < 2 ^ 31 →
        mb.memory.regions.length < 2 ^ fuel → mb.reserved.regions.length < 2 ^ fuel →
        (∃ b, memblockIsMemory fuel mb addr = some b ∧ (b = true ↔ addr ∈ mb.memory.covered)) ∧
        (∃ b, memblockIsReserved fuel mb addr = some b ∧ (b = true ↔ addr ∈ mb.reserved.covered)) ∧
        (∃ b, memblockIsRegionMemory fuel mb base size = some b ∧
          (b = true ↔ ∃ r ∈ mb.memory.regions, r.base ≤ base ∧ base < r.base + r.size ∧
            base + memblockCapSize base size ≤ r.base + r.size))) := by
  constructor
  · intro t addr sorted small rounds
    refine ⟨_, memblockSearch_eq sorted small ⟨enough, rounds⟩ addr, ?_⟩
    rcases regionIndex_spec t.regions addr with ⟨minus, noHolder⟩ | ⟨i, hi, eq, holds⟩
    · exact .inl ⟨minus, fun ⟨r, hr, holds⟩ => noHolder r hr holds⟩
    · exact .inr ⟨i, hi, eq, holds⟩
  · intro mb addr base size wf memSmall rsvSmall memRounds rsvRounds
    have memSorted := wf.memory.regions.ordered.pairwise
    have rsvSorted := wf.reserved.regions.ordered.pairwise
    exact ⟨memblockSearch_covered memSorted memSmall ⟨enough, memRounds⟩ addr,
      memblockSearch_covered rsvSorted rsvSmall ⟨enough, rsvRounds⟩ addr,
      memblockIsRegionMemory_spec memSorted memSmall ⟨enough, memRounds⟩ rfl base size⟩

/-- Three regions on two nodes: an address in the third is found at index 2, one between the
first two at none. -/
theorem memblockSearch_exact_three_regions :
    let t : MemblockType :=
      ⟨[⟨0x1000, 0x1000, 0⟩, ⟨0x4000, 0x2000, 0⟩, ⟨0x8000, 0x1000, 1⟩], initMemblockRegions, 0x4000, none, false⟩
    0 < 32 ∧ memblockSearch 32 t 0x8800 = some 2 ∧ memblockSearch 32 t 0x3000 = some (-1) ∧
      ∃ idx, memblockSearch 32 t 0x8800 = some idx ∧
        ((idx = -1 ∧ 0x8800 ∉ t.covered) ∨
          ∃ i < t.regions.length, idx = i ∧ (t.regions.getD i emptyRegion).base ≤ 0x8800 ∧
            0x8800 < (t.regions.getD i emptyRegion).base + (t.regions.getD i emptyRegion).size) := by
  intro t
  have sorted : t.regions.Pairwise (fun a b => a.base + a.size ≤ b.base) := by decide
  exact ⟨by decide, by decide, by decide,
    (memblockSearch_exact 32 (by decide)).1 t 0x8800 sorted (by decide) (by decide)⟩

/-- For `size = 0` at the end of a memory region, the empty range lies in that region, but the
search for `base` finds no region and `memblock_is_region_memory` returns `0`. -/
theorem memblockIsRegionMemory_empty_range :
    let mb : Memblock := { memblockInit with memory := ⟨[⟨4096, 4096, 0⟩], initMemblockRegions, 4096, none, false⟩ }
    mb.Wf ∧ memblockIsRegionMemory 32 mb 8192 0 = some false ∧
      ∃ r ∈ mb.memory.regions, r.base ≤ 8192 ∧ 8192 + memblockCapSize 8192 0 ≤ r.base + r.size := by
  intro mb
  refine ⟨⟨⟨.inr ⟨by decide, ?_⟩, rfl, by decide⟩, memblockInit_wf.reserved, le_rfl⟩, by decide,
    ⟨_, List.mem_singleton_self _, by decide, by decide⟩⟩
  unfold MemblockSorted
  decide

end LinuxKernel
