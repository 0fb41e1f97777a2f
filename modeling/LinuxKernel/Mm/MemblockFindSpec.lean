import LinuxKernel.Mm.MemblockFind
import LinuxKernel.Mm.MemblockFreeSpec
import LinuxKernel.Mm.MemblockBoot

/-!
# `memblock_find_in_range_node` finds the highest fit

Over free ranges in descending order the loop returns the highest aligned fit within the bounds,
and `0` only when there is none (`memblockFindLoop_spec`); `memblock_alloc_base_nid` then
reserves it (`addRegion_covers`).
-/

namespace LinuxKernel

open ForEach MemblockType

/-! ## Rounding -/

section Round

variable {x y c : Nat}

theorem roundDown_le : roundDown x y ≤ x := Nat.div_mul_le_self x y

theorem roundDown_mod : roundDown x y % y = 0 := Nat.mul_mod_left _ _

theorem le_roundDown (aligned : c % y = 0) (le : c ≤ x) : c ≤ roundDown x y := by
  have split := Nat.div_add_mod c y
  have mono : c / y * y ≤ x / y * y := Nat.mul_le_mul_right _ (Nat.div_le_div_right le)
  unfold roundDown
  rw [aligned, Nat.add_zero] at split
  rw [Nat.mul_comm] at split
  omega

theorem le_roundUp (pos : 0 < y) (hx : 0 < x) (fits : x + y ≤ 2 ^ 64) : x ≤ roundUp x y := by
  have below := Nat.lt_div_mul_add (a := x - 1) pos
  unfold roundUp
  rw [show (x + ullongMax) % 2 ^ 64 = x - 1 by unfold ullongMax; omega,
    Nat.mod_eq_of_lt (by have := Nat.div_mul_le_self (x - 1) y; omega)]
  omega

end Round

/-! ## The loop over the free ranges -/

/-- `cand` is a place for `size` bytes aligned to `align`, from `lo` on and ending by `hi`, inside
one of `ranges`. -/
def FitsIn (ranges : List FreeRange) (lo hi size align cand : Nat) : Prop :=
  cand % align = 0 ∧ lo ≤ cand ∧ cand + size ≤ hi ∧
    ∃ p ∈ ranges, p.start ≤ cand ∧ cand + size ≤ p.end_

section Loop

variable {lo hi size align : Nat} {p : FreeRange} {rs : List FreeRange}

theorem fitsIn_cons {c : Nat} :
    FitsIn (p :: rs) lo hi size align c ↔
      (c % align = 0 ∧ lo ≤ c ∧ c + size ≤ hi ∧ p.start ≤ c ∧ c + size ≤ p.end_) ∨
        FitsIn rs lo hi size align c := by
  unfold FitsIn
  constructor
  · rintro ⟨aligned, above, below, q, hq, start, ends⟩
    rcases List.mem_cons.mp hq with rfl | hq
    exacts [.inl ⟨aligned, above, below, start, ends⟩, .inr ⟨aligned, above, below, q, hq, start, ends⟩]
  · rintro (⟨aligned, above, below, start, ends⟩ | ⟨aligned, above, below, q, hq, start, ends⟩)
    exacts [⟨aligned, above, below, p, by simp, start, ends⟩,
      ⟨aligned, above, below, q, List.mem_cons_of_mem _ hq, start, ends⟩]

theorem fits_clamp (le : lo ≤ hi) {c : Nat} (above : lo ≤ c) (below : c + size ≤ hi)
    (start : p.start ≤ c) (ends : c + size ≤ p.end_) :
    clamp p.start lo hi ≤ c ∧ c + size ≤ clamp p.end_ lo hi := by
  unfold clamp
  omega

theorem memblockFindLoop_spec (pos : 0 < size) (le : lo ≤ hi) :
    ∀ ranges : List FreeRange, ranges.Pairwise (fun p q => q.end_ ≤ p.start) →
      (∀ p ∈ ranges, p.start ≤ p.end_) →
      (memblockFindLoop lo hi size align ranges = 0 ∧ ∀ c, ¬FitsIn ranges lo hi size align c) ∨
      (FitsIn ranges lo hi size align (memblockFindLoop lo hi size align ranges) ∧
        ∀ c, FitsIn ranges lo hi size align c → c ≤ memblockFindLoop lo hi size align ranges) := by
  intro ranges
  induction ranges with
  | nil =>
    intro _ _
    exact .inl ⟨rfl, fun c ⟨_, _, _, q, hq, _⟩ => by cases hq⟩
  | cons p rs ih =>
    intro sorted ordered
    obtain ⟨lower, sorted'⟩ := List.pairwise_cons.mp sorted
    have hp := ordered p (by simp)
    have rest := ih sorted' fun q hq => ordered q (List.mem_cons_of_mem _ hq)
    -- when `p` has no fit, the loop goes on with what the rest of the ranges give
    have skip : (∀ c, c % align = 0 → lo ≤ c → c + size ≤ hi → p.start ≤ c → c + size ≤ p.end_ → False) →
        (memblockFindLoop lo hi size align rs = 0 ∧ ∀ c, ¬FitsIn (p :: rs) lo hi size align c) ∨
        (FitsIn (p :: rs) lo hi size align (memblockFindLoop lo hi size align rs) ∧
          ∀ c, FitsIn (p :: rs) lo hi size align c → c ≤ memblockFindLoop lo hi size align rs) := by
      intro none
      have drop : ∀ c, FitsIn (p :: rs) lo hi size align c ↔ FitsIn rs lo hi size align c := by
        intro c
        rw [fitsIn_cons]
        exact ⟨fun h => h.resolve_left fun ⟨a, b, c', d, e⟩ => none c a b c' d e, .inr⟩
      simp only [drop]
      exact rest
    simp only [memblockFindLoop]
    split_ifs with short found
    · -- not even `size` bytes below the clamped end
      refine skip fun c _ above below start ends => ?_
      have := (fits_clamp le above below start ends).2
      omega
    · -- the highest aligned place ending by the clamped end starts inside the clamped range
      have down := roundDown_le (x := clamp p.end_ lo hi - size) (y := align)
      have aligned := roundDown_mod (x := clamp p.end_ lo hi - size) (y := align)
      generalize hc : roundDown (clamp p.end_ lo hi - size) align = cand at down aligned found ⊢
      have inside : lo ≤ cand ∧ cand + size ≤ hi ∧ p.start ≤ cand ∧ cand + size ≤ p.end_ := by
        unfold clamp at *
        omega
      refine .inr ⟨fitsIn_cons.mpr (.inl ⟨aligned, inside⟩), fun c fits => ?_⟩
      rcases fitsIn_cons.mp fits with ⟨aligned', above, below, start, ends⟩ | ⟨_, _, _, q, hq, _, ends⟩
      · have within := (fits_clamp le above below start ends).2
        rw [← hc]
        exact le_roundDown aligned' (by omega)
      · -- a fit in a lower range ends by where `p` starts
        have := lower q hq
        omega
    · -- the highest aligned place starts below the clamped start: `p` has no fit
      refine skip fun c aligned above below start ends => ?_
      have within := fits_clamp le above below start ends
      have := le_roundDown aligned (show c ≤ clamp p.end_ lo hi - size by omega)
      omega

theorem fitsIn_max (pos : 0 < size) {ranges : List FreeRange} {c : Nat} :
    FitsIn ranges lo (max lo hi) size align c ↔ FitsIn ranges lo hi size align c := by
  unfold FitsIn
  constructor
  · rintro ⟨aligned, above, below, rest⟩
    exact ⟨aligned, above, by omega, rest⟩
  · rintro ⟨aligned, above, below, rest⟩
    exact ⟨aligned, above, by omega, rest⟩

end Loop

/-- `memblock_find_in_range_node` over ranges in descending order: `0` when nothing fits from
`max(start, PAGE_SIZE)` to `end` (with `MEMBLOCK_ALLOC_ACCESSIBLE` the current limit), else the
highest fit, which is not `0`. -/
theorem memblockFindInRangeNode_spec (mb : Memblock) {ranges : List FreeRange}
    (sorted : ranges.Pairwise fun p q => q.end_ ≤ p.start) (ordered : ∀ p ∈ ranges, p.start ≤ p.end_)
    {start end_ size align : Nat} (pos : 0 < size) :
    let hi := if end_ = memblockAllocAccessible then mb.currentLimit else end_
    (memblockFindInRangeNode mb ranges start end_ size align = 0 ∧
        ∀ c, ¬FitsIn ranges (max start pageSize) hi size align c) ∨
      (memblockFindInRangeNode mb ranges start end_ size align ≠ 0 ∧
        FitsIn ranges (max start pageSize) hi size align (memblockFindInRangeNode mb ranges start end_ size align) ∧
        ∀ c, FitsIn ranges (max start pageSize) hi size align c →
          c ≤ memblockFindInRangeNode mb ranges start end_ size align) := by
  dsimp only
  have loop := @memblockFindLoop_spec _ _ _ align pos (le_max_left (max start pageSize)
    (if end_ = memblockAllocAccessible then mb.currentLimit else end_)) ranges sorted ordered
  unfold memblockFindInRangeNode
  dsimp only
  simp only [fitsIn_max pos] at loop
  rcases loop with ⟨zero, none⟩ | ⟨fits, highest⟩
  · exact .inl ⟨zero, none⟩
  · refine .inr ⟨?_, fits, highest⟩
    have above := fits.2.1
    have page : 0 < max start pageSize := lt_of_lt_of_le (by decide) (le_max_right _ _)
    omega

/-! ## What `memblock_alloc_base_nid` reserves -/

section Add

variable {end_ : Nat} {nid : Int}

theorem addWalk_covers (l : List MemblockRegion) {base x : Nat} (lo : base ≤ x) (hi : x < end_) :
    ∃ r ∈ (memblockAddWalk true end_ nid base l).1, r.base ≤ x ∧ x < r.base + r.size := by
  induction l generalizing base with
  | nil =>
    simp only [memblockAddWalk, if_pos (lo.trans_lt hi), if_true]
    exact ⟨_, List.mem_singleton_self _, lo, by dsimp only; omega⟩
  | cons rgn rest ih =>
    -- a piece put in before `rgn` holds what lies below it, `rgn` what it holds itself, and
    -- the walk over the rest what lies above it
    have piece : ∃ r ∈ [(⟨base, end_ - base, nid⟩ : MemblockRegion)], r.base ≤ x ∧ x < r.base + r.size :=
      ⟨_, List.mem_singleton_self _, lo, by dsimp only; omega⟩
    by_cases above : rgn.base ≥ end_
    · simp only [memblockAddWalk, above, if_true, if_pos (lo.trans_lt hi)]
      obtain ⟨r, hr, holds⟩ := piece
      exact ⟨r, List.mem_append_left _ hr, holds⟩
    by_cases skip : rgn.base + rgn.size ≤ base
    · simp only [memblockAddWalk, above, skip, if_false, if_true]
      obtain ⟨r, hr, holds⟩ := ih lo
      exact ⟨r, List.mem_cons_of_mem _ hr, holds⟩
    have upper : rgn.base + rgn.size ≤ x →
        ∃ r ∈ rgn :: (memblockAddWalk true end_ nid (min (rgn.base + rgn.size) end_) rest).1,
          r.base ≤ x ∧ x < r.base + r.size := by
      intro past
      obtain ⟨r, hr, holds⟩ := ih (show min (rgn.base + rgn.size) end_ ≤ x by omega)
      exact ⟨r, List.mem_cons_of_mem _ hr, holds⟩
    have within : rgn.base ≤ x → x < rgn.base + rgn.size →
        ∃ r ∈ rgn :: (memblockAddWalk true end_ nid (min (rgn.base + rgn.size) end_) rest).1,
          r.base ≤ x ∧ x < r.base + r.size :=
      fun lo' hi' => ⟨rgn, List.mem_cons_self, lo', hi'⟩
    by_cases gap : rgn.base > base
    · simp only [memblockAddWalk, above, skip, gap, if_false, if_true]
      by_cases below : x < rgn.base
      · exact ⟨⟨base, rgn.base - base, nid⟩, List.mem_append_left _ (List.mem_singleton_self _), lo,
          by dsimp only; omega⟩
      obtain ⟨r, hr, holds⟩ := if past : rgn.base + rgn.size ≤ x then upper past else within (by omega) (by omega)
      exact ⟨r, List.mem_append_right _ hr, holds⟩
    · simp only [memblockAddWalk, above, skip, gap, if_false]
      exact if past : rgn.base + rgn.size ≤ x then upper past else within (by omega) (by omega)

variable {fuel : Nat} {env : MemblockEnv} {mb mb' : Memblock} {k : MemblockKind} {base size : Nat}

theorem addRegion_covers (h : memblockAddRegion fuel env mb k base size nid = some (mb', .ok ()))
    (wf : mb.Wf) : Set.Ico base (base + memblockCapSize base size) ⊆ (mb'.type k).covered := by
  rintro x ⟨lo, hi⟩
  cases fuel with
  | zero => simp [memblockAddRegion] at h
  | succ fuel =>
  rcases memblockAddRegion_inv h with ⟨zero, -, -⟩ | ⟨-, empty, rfl, -⟩ |
    ⟨-, -, mb₁, b, -, ⟨-, rfl, -⟩ | ⟨-, -, err⟩⟩
  · omega
  · -- the placeholder becomes the range alone
    rw [type_setType, (wf.type k).placeholder empty]
    exact ⟨_, List.mem_singleton_self _, lo, hi⟩
  · rw [type_setType]
    show ∃ r ∈ (memblockAddInsert (mb₁.type k) base _ nid).regions, r.base ≤ x ∧ x < r.base + r.size
    rw [exists_holds_iff_nodeAt, memblockAddInsert, nodeAt_mergeRegions, ← exists_holds_iff_nodeAt]
    exact addWalk_covers _ lo hi
  · cases err

end Add

section Alloc

variable {fuel : Nat} {env : MemblockEnv} {mb mb' : Memblock} {ranges : List FreeRange}
  {size align maxAddr found : Nat}

theorem memblockAllocBaseNid_inv
    (h : memblockAllocBaseNid fuel env mb ranges size align maxAddr = some (mb', found)) (ne : found ≠ 0) :
    memblockFindInRangeNode mb ranges 0 maxAddr (roundUp size align) align = found ∧
      memblockAddRegion fuel env mb .reserved found (roundUp size align) maxNumnodes = some (mb', .ok ()) := by
  unfold memblockAllocBaseNid at h
  dsimp only at h
  split_ifs at h with zero
  · cases h
    exact absurd rfl ne
  obtain ⟨⟨mb₁, r⟩, add, eq⟩ := Option.map_eq_some_iff.mp h
  cases r with
  | ok u =>
    cases eq
    exact ⟨rfl, add⟩
  | error e =>
    cases eq
    exact absurd rfl ne

theorem memblockAllocBaseNid_reserves (wf : mb.Wf) (sorted : ranges.Pairwise fun p q => q.end_ ≤ p.start)
    (ordered : ∀ p ∈ ranges, p.start ≤ p.end_) (maxOk : maxAddr ≤ ullongMax)
    (h : memblockAllocBaseNid fuel env mb ranges size align maxAddr = some (mb', found)) (ne : found ≠ 0) :
    ∀ x, found ≤ x → x < found + roundUp size align →
      (∃ p ∈ ranges, p.start ≤ x ∧ x < p.end_) ∧ x ∈ mb'.reserved.covered := by
  intro x lo hi
  obtain ⟨find, add⟩ := memblockAllocBaseNid_inv h ne
  have pos : 0 < roundUp size align := by omega
  rcases @memblockFindInRangeNode_spec mb ranges sorted ordered 0 maxAddr _ align pos with
    ⟨zero, -⟩ | ⟨-, fits, -⟩
  · exact absurd (find ▸ zero) ne
  rw [find] at fits
  obtain ⟨-, -, below, p, hp, start, ends⟩ := fits
  -- the block ends by the limit, so the add does not cap it
  have limit : (if maxAddr = memblockAllocAccessible then mb.currentLimit else maxAddr) ≤ ullongMax := by
    split_ifs
    exacts [wf.limit, maxOk]
  have cap : memblockCapSize found (roundUp size align) = roundUp size align := by
    unfold memblockCapSize
    omega
  exact ⟨⟨p, hp, by omega, by omega⟩, addRegion_covers add wf ⟨lo, by rw [cap]; exact hi⟩⟩

end Alloc

/-- Over the ranges the reverse walk yields, `memblock_find_in_range_node` returns the highest fit
inside a free range, `0` only when there is none, and the block `memblock_alloc_base_nid` returns
was free memory of the node and is reserved afterwards; the block is the size rounded up to
`align`, which is at least the size when the sum does not wrap. -/
theorem memblockFindInRangeNode_top_down (mb : Memblock) (wf : mb.Wf)
    (small : mb.memory.regions.length < 2 ^ 31 ∧ mb.reserved.regions.length < 2 ^ 31) (nid : Int) :
    ∃ ranges, Yields (nextFreeMemRangeRev mb.memory.regions mb.reserved.regions nid)
        ullongMax.toUInt64 ullongMax.toUInt64 ranges ∧
      (∀ start end_ size align, 0 < size → align.isPowerOfTwo →
        let hi := if end_ = memblockAllocAccessible then mb.currentLimit else end_
        let free := freeRanges mb.memory.regions mb.reserved.regions nid
        let found := memblockFindInRangeNode mb ranges start end_ size align
        (found = 0 ∧ ∀ c, ¬FitsIn free (max start pageSize) hi size align c) ∨
          (found ≠ 0 ∧ FitsIn free (max start pageSize) hi size align found ∧
            ∀ c, FitsIn free (max start pageSize) hi size align c → c ≤ found)) ∧
      (∀ fuel env size align maxAddr mb' found, maxAddr ≤ ullongMax →
        memblockAllocBaseNid fuel env mb ranges size align maxAddr = some (mb', found) → found ≠ 0 →
        ∀ x, found ≤ x → x < found + roundUp size align →
          ((∃ m ∈ mb.memory.regions, nidSkips nid m = false ∧ m.base ≤ x ∧ x < m.base + m.size) ∧
            x ∉ mb.reserved.covered) ∧ x ∈ mb'.reserved.covered) ∧
      (∀ size align, 0 < size → align.isPowerOfTwo → size + align ≤ 2 ^ 64 → size ≤ roundUp size align) := by
  have memOrd := wf.memory.regions.ordered
  have rsvOrd := wf.reserved.regions.ordered
  -- the reverse walk yields the free ranges from the top down
  have sorted : (freeRanges mb.memory.regions mb.reserved.regions nid).reverse.Pairwise
      fun p q => q.end_ ≤ p.start := List.pairwise_reverse.mpr (freeRanges_sorted memOrd rsvOrd)
  have ordered : ∀ p ∈ (freeRanges mb.memory.regions mb.reserved.regions nid).reverse, p.start ≤ p.end_ :=
    fun p hp => freeRanges_start_le rsvOrd p (List.mem_reverse.mp hp)
  refine ⟨_, nextFreeMemRangeRev_yields memOrd rsvOrd small, ?find, ?alloc, ?round⟩
  case find =>
    intro start end_ size align pos _
    simpa only [FitsIn, List.mem_reverse] using
      @memblockFindInRangeNode_spec mb _ sorted ordered start end_ size align pos
  case alloc =>
    intro fuel env size align maxAddr mb' found maxOk h ne x lo hi
    obtain ⟨⟨p, hp, start, ends⟩, reserved⟩ :=
      memblockAllocBaseNid_reserves wf sorted ordered maxOk h ne x lo hi
    have free := (mem_freeRanges_iff memOrd rsvOrd x).mp ⟨p, List.mem_reverse.mp hp, start, ends⟩
    exact ⟨⟨free.1, fun ⟨r, hr, holds⟩ => free.2 r hr holds⟩, reserved⟩
  case round =>
    intro size align pos power fits
    exact le_roundUp (Nat.pos_of_isPowerOfTwo power) pos fits

/-- A megabyte of memory at 1 MiB with its first page reserved. -/
theorem memblockFindInRangeNode_top_down_added :
    ∃ mb, memblockRun 8 bootEnv memblockInit [.add 0x100000 0x100000, .reserve 0x100000 0x1000] = some mb ∧
      mb.Wf ∧ (mb.memory.regions.length < 2 ^ 31 ∧ mb.reserved.regions.length < 2 ^ 31) ∧
      ∃ ranges, Yields (nextFreeMemRangeRev mb.memory.regions mb.reserved.regions maxNumnodes)
        ullongMax.toUInt64 ullongMax.toUInt64 ranges := by
  obtain ⟨mb, run, wf, small⟩ := @memblockRun_boot_check 8 [.add 0x100000 0x100000, .reserve 0x100000 0x1000]
    (fun mb => mb.memory.regions.length < 2 ^ 31 ∧ mb.reserved.regions.length < 2 ^ 31) _ (by decide +kernel)
  exact ⟨mb, run, wf, small, (memblockFindInRangeNode_top_down mb wf small maxNumnodes).imp fun _ h => h.1⟩

/-- `round_up(ULLONG_MAX, 2)` wraps to `0`: the find then takes the top of the free range for a
block of no bytes, the add of nothing succeeds, and `memblock_alloc_base_nid` returns an address
that is neither free memory nor reserved. -/
theorem memblockAllocBaseNid_size_wraps :
    let mb : Memblock := { memblockInit with memory := ⟨[⟨1048576, 1048576, 0⟩], initMemblockRegions, 1048576, none, false⟩ }
    mb.Wf ∧
      Yields (nextFreeMemRangeRev mb.memory.regions mb.reserved.regions maxNumnodes) ullongMax.toUInt64
        ullongMax.toUInt64 [⟨1048576, 2097152, 0⟩] ∧
      (∀ env, memblockAllocBaseNid 1 env mb [⟨1048576, 2097152, 0⟩] (2 ^ 64 - 1) 2 0 = some (mb, 2097152)) ∧
      2097152 ∉ mb.memory.covered ∧ 2097152 ∉ mb.reserved.covered := by
  intro mb
  refine ⟨⟨⟨.inr ⟨by decide, ?_⟩, rfl, by decide⟩, memblockInit_wf.reserved, le_rfl⟩,
    .yield (by decide) (by decide) (.stop (by decide)), fun env => ?_, ?_, ?_⟩
  · unfold MemblockSorted
    decide
  · -- the find runs for a block of size `0`, and adding `0` bytes changes nothing
    have wraps : roundUp (2 ^ 64 - 1) 2 = 0 := by decide
    have found : memblockFindInRangeNode mb [⟨1048576, 2097152, 0⟩] 0 0 0 2 = 2097152 := by decide
    have added : memblockAddRegion 1 env mb .reserved 2097152 0 maxNumnodes = some (mb, .ok ()) := by
      simp [memblockAddRegion, memblockCapSize]
    simp only [memblockAllocBaseNid, wraps, found, added]
    rfl
  · rintro ⟨r, hr, -, hi⟩
    rw [List.mem_singleton.mp hr] at hi
    simp at hi
  · rintro ⟨r, hr, -, hi⟩
    rw [List.mem_singleton.mp hr] at hi
    simp [emptyRegion] at hi

end LinuxKernel
