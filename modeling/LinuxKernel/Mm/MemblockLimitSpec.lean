import Mathlib.Order.Interval.Finset.Nat
import LinuxKernel.Mm.MemblockBoot
import LinuxKernel.Mm.MemblockFreeSpec

/-!
# `memblock_enforce_memory_limit` keeps the lowest `limit` bytes

The loop stops `limit` bytes into memory (`memblockLimitAddr`) and both arrays lose everything
above; counted with `coveredBelow`, what is left is `min(limit, total_size)` bytes. A removal
that fails with `-ENOMEM` is ignored and keeps everything.
-/

namespace LinuxKernel

open MemblockType

/-! ## Counting covered addresses -/

/-- The number of addresses below `x` that the regions hold. -/
def coveredBelow (l : List MemblockRegion) (x : Nat) : Nat :=
  (l.map fun r => min (r.base + r.size) x - r.base).sum

/-- The lowest `n` addresses the regions hold: those with fewer than `n` held addresses below
them. -/
def lowestBytes (l : List MemblockRegion) (n : Nat) : Set Nat :=
  {x | (∃ r ∈ l, r.base ≤ x ∧ x < r.base + r.size) ∧ coveredBelow l x < n}

section Count

variable {l : List MemblockRegion} {r : MemblockRegion} {x : Nat}

@[simp] theorem coveredBelow_nil : coveredBelow [] x = 0 := rfl

@[simp] theorem coveredBelow_cons :
    coveredBelow (r :: l) x = (min (r.base + r.size) x - r.base) + coveredBelow l x := by
  simp [coveredBelow]

theorem coveredBelow_of_le (le : ∀ r ∈ l, x ≤ r.base) : coveredBelow l x = 0 := by
  induction l with
  | nil => rfl
  | cons r l ih =>
    have := le r (by simp)
    rw [coveredBelow_cons, ih fun r' mem => le r' (List.mem_cons_of_mem _ mem)]
    omega

theorem filter_range_holds (r : MemblockRegion) (x : Nat) :
    (Finset.range x).filter (fun y => r.base ≤ y ∧ y < r.base + r.size) =
      Finset.Ico r.base (min (r.base + r.size) x) := by
  ext y
  simp only [Finset.mem_filter, Finset.mem_range, Finset.mem_Ico]
  omega

theorem coveredBelow_eq_card (sorted : l.Pairwise fun a b => a.base + a.size ≤ b.base) (x : Nat) :
    coveredBelow l x =
      ((Finset.range x).filter fun y => ∃ r ∈ l, r.base ≤ y ∧ y < r.base + r.size).card := by
  induction l with
  | nil => simp
  | cons r l ih =>
    obtain ⟨after, sorted'⟩ := List.pairwise_cons.mp sorted
    -- the addresses of `r` and those of the later regions are apart
    have split : ((Finset.range x).filter fun y => ∃ r' ∈ r :: l, r'.base ≤ y ∧ y < r'.base + r'.size) =
        (Finset.range x).filter (fun y => r.base ≤ y ∧ y < r.base + r.size) ∪
          (Finset.range x).filter (fun y => ∃ r' ∈ l, r'.base ≤ y ∧ y < r'.base + r'.size) := by
      rw [← Finset.filter_or]
      simp only [List.mem_cons, exists_eq_or_imp]
    have apart : Disjoint ((Finset.range x).filter fun y => r.base ≤ y ∧ y < r.base + r.size)
        ((Finset.range x).filter fun y => ∃ r' ∈ l, r'.base ≤ y ∧ y < r'.base + r'.size) := by
      rw [Finset.disjoint_filter]
      rintro y - ⟨-, below⟩ ⟨r', mem, above, -⟩
      have := after r' mem
      omega
    rw [split, Finset.card_union_of_disjoint apart, ← ih sorted', filter_range_holds, Nat.card_Ico,
      coveredBelow_cons]

theorem coveredBelow_mono {x' : Nat} (le : x ≤ x') : coveredBelow l x ≤ coveredBelow l x' := by
  induction l with
  | nil => exact le_rfl
  | cons r l ih =>
    rw [coveredBelow_cons, coveredBelow_cons]
    omega

theorem coveredBelow_lt_succ (held : ∃ r ∈ l, r.base ≤ x ∧ x < r.base + r.size) :
    coveredBelow l x < coveredBelow l (x + 1) := by
  induction l with
  | nil => simp at held
  | cons r l ih =>
    rw [coveredBelow_cons, coveredBelow_cons]
    rcases held with ⟨r', mem, start, inside⟩
    rcases List.mem_cons.mp mem with rfl | mem
    · have := coveredBelow_mono (l := l) (show x ≤ x + 1 by omega)
      omega
    · have := ih ⟨r', mem, start, inside⟩
      omega

theorem sizeSum_eq_coveredBelow (bounded : ∀ r ∈ l, r.base + r.size ≤ ullongMax) :
    sizeSum l = coveredBelow l ullongMax := by
  induction l with
  | nil => rfl
  | cons r l ih =>
    have := bounded r (by simp)
    rw [sizeSum_cons, coveredBelow_cons, ih fun r' mem => bounded r' (List.mem_cons_of_mem _ mem)]
    omega

end Count

/-! ## The cut-off address -/

theorem RegionsOrdered.tail {r : MemblockRegion} {l : List MemblockRegion} (ord : RegionsOrdered (r :: l)) :
    RegionsOrdered l :=
  ⟨(List.pairwise_cons.mp ord.pairwise).2, fun r' mem => ord.bounded r' (List.mem_cons_of_mem _ mem)⟩

section Limit

variable {l : List MemblockRegion} (ord : RegionsOrdered l)
include ord

theorem le_limitAddr {s : Nat} (le : ∀ r ∈ l, s ≤ r.base) (fits : s ≤ ullongMax) (limit : Nat) :
    s ≤ memblockLimitAddr limit l := by
  induction l generalizing limit with
  | nil => exact fits
  | cons r l ih =>
    have := le r (by simp)
    simp only [memblockLimitAddr]
    split_ifs
    · omega
    · exact ih ord.tail (fun r' mem => le r' (List.mem_cons_of_mem _ mem)) _

theorem limitAddr_le_max (limit : Nat) : memblockLimitAddr limit l ≤ ullongMax := by
  induction l generalizing limit with
  | nil => exact le_rfl
  | cons r l ih =>
    have := ord.bounded r (by simp)
    simp only [memblockLimitAddr]
    split_ifs
    · omega
    · exact ih ord.tail _

theorem lt_limitAddr_iff {x : Nat} (held : ∃ r ∈ l, r.base ≤ x ∧ x < r.base + r.size) (limit : Nat) :
    x < memblockLimitAddr limit l ↔ coveredBelow l x < limit := by
  induction l generalizing limit with
  | nil => simp at held
  | cons r l ih =>
    have later := (List.pairwise_cons.mp ord.pairwise).1
    have ends := ord.bounded r (by simp)
    simp only [memblockLimitAddr, coveredBelow_cons]
    rcases held with ⟨r', mem, start, inside⟩
    rcases List.mem_cons.mp mem with rfl | mem
    · -- `x` is in the first region: the later ones start above it
      rw [coveredBelow_of_le fun r'' mem'' => by have := later r'' mem''; omega]
      split_ifs
      · omega
      · have := le_limitAddr ord.tail later ends (limit - r'.size)
        omega
    · -- `x` is in a later region: the first region lies wholly below it
      have := later r' mem
      split_ifs
      · have := coveredBelow l x
        omega
      · have step := ih ord.tail ⟨r', mem, start, inside⟩ (limit - r.size)
        omega

theorem coveredBelow_limitAddr (limit : Nat) :
    coveredBelow l (memblockLimitAddr limit l) = min limit (sizeSum l) := by
  induction l generalizing limit with
  | nil => simp [memblockLimitAddr]
  | cons r l ih =>
    have later := (List.pairwise_cons.mp ord.pairwise).1
    have ends := ord.bounded r (by simp)
    simp only [memblockLimitAddr, sizeSum_cons]
    split_ifs
    · rw [coveredBelow_cons, coveredBelow_of_le fun r' mem => by have := later r' mem; omega]
      omega
    · have past := le_limitAddr ord.tail later ends (limit - r.size)
      rw [coveredBelow_cons, ih ord.tail]
      omega

end Limit

theorem MemblockType.Wf.lt_max {t : MemblockType} (wf : t.Wf) {x : Nat} (held : x ∈ t.covered) : x < ullongMax := by
  obtain ⟨r, mem, -, inside⟩ := held
  have := wf.regions.ordered.bounded r mem
  omega

/-! ## The removals -/

section Remove

variable (fuel : Nat) (env : MemblockEnv) {mb : Memblock} {k : MemblockKind}

theorem memblockRemove_of_room (room : (mb.type k).regions.length + 2 ≤ (mb.type k).max) (base size : Nat) :
    memblockRemove (fuel + 3) env mb k base size =
      some (if memblockCapSize base size = 0 then mb
        else mb.setType k (memblockRemovePhase (mb.type k) base (base + memblockCapSize base size)), .ok ()) := by
  unfold memblockRemove memblockIsolateRange
  by_cases zero : memblockCapSize base size = 0
  · simp [zero, removeRegions_self]
  · have grow : memblockGrow (fuel + 1) env mb k 2 base (memblockCapSize base size) = some (mb, true) := by
      simp only [memblockGrow]
      rw [if_neg (by omega)]
    simp [zero, grow, memblockRemovePhase]

/-- A removal of `[base, ULLONG_MAX)` with room keeps the invariant, leaves the other array and
the room as they were, and takes everything from `base` on out of the array. -/
theorem removeAbove_of_room (wf : mb.Wf) (room : (mb.type k).regions.length + 2 ≤ (mb.type k).max)
    {base : Nat} (le : base ≤ ullongMax) :
    ∃ mb', memblockRemove (fuel + 3) env mb k base ullongMax = some (mb', .ok ()) ∧ mb'.Wf ∧
      (∀ k', k' ≠ k → mb'.type k' = mb.type k') ∧ (mb'.type k).max = (mb.type k).max ∧
      (mb'.type k).covered = (mb.type k).covered \ Set.Ici base := by
  have cap : memblockCapSize base ullongMax = ullongMax - base := by
    unfold memblockCapSize
    omega
  have h := memblockRemove_of_room fuel env room base ullongMax
  refine ⟨_, h, ?_, fun k' ne => ?_, ?_, ?_⟩
  · split_ifs with zero
    · exact wf
    · exact wf.setType ((wf.type k).removePhase (by omega))
  · split_ifs
    · rfl
    · exact type_setType_of_ne ne.symm
  · split_ifs <;> simp
  · -- the removal takes out `[base, ULLONG_MAX)`, and the array holds nothing from `ULLONG_MAX` on
    rw [(remove_removesRange h wf (.inr (by split_ifs <;> simp))).1 rfl, cap, Nat.add_sub_cancel' le]
    ext x
    simp only [Set.mem_sdiff, Set.mem_Ico, Set.mem_Ici, not_and, not_lt]
    constructor
    · rintro ⟨held, outside⟩
      exact ⟨held, fun above => absurd (outside above) (by have := (wf.type k).lt_max held; omega)⟩
    · rintro ⟨held, below⟩
      exact ⟨held, fun above => absurd above below⟩

end Remove

/-- With room in both arrays, `memblock_enforce_memory_limit(limit)` leaves memory holding the
lowest `min(limit, total_size)` bytes it held, with that `total_size`, and reserved without its
part from the cut-off on. -/
theorem memblockEnforceMemoryLimit_truncates (fuel : Nat) (env : MemblockEnv) (mb : Memblock) (wf : mb.Wf)
    (limit : Nat) (pos : 0 < limit)
    (room : mb.memory.regions.length + 2 ≤ mb.memory.max ∧ mb.reserved.regions.length + 2 ≤ mb.reserved.max) :
    ∃ mb', memblockEnforceMemoryLimit (fuel + 3) env mb limit = some mb' ∧ mb'.Wf ∧
      mb'.memory.covered = lowestBytes mb.memory.regions (min limit mb.memory.totalSize) ∧
      mb'.memory.totalSize = min limit mb.memory.totalSize ∧
      mb'.reserved.covered = mb.reserved.covered \ Set.Ici (memblockLimitAddr limit mb.memory.regions) := by
  have ord := wf.memory.regions.ordered
  have cutOk := limitAddr_le_max ord limit
  obtain ⟨mb₁, h₁, wf₁, other₁, -, memory₁⟩ :=
    removeAbove_of_room fuel env (k := .memory) wf room.1 cutOk
  have reserved₁ : mb₁.reserved = mb.reserved := other₁ .reserved (by decide)
  obtain ⟨mb', h₂, wf', other₂, -, reserved'⟩ := removeAbove_of_room fuel env (k := .reserved) wf₁
    (show mb₁.reserved.regions.length + 2 ≤ mb₁.reserved.max by rw [reserved₁]; exact room.2) cutOk
  have memory' : mb'.memory = mb₁.memory := other₂ .memory (by decide)
  -- memory now holds the addresses below the cut-off
  have held : ∀ y, y ∈ mb'.memory.covered ↔
      y ∈ mb.memory.covered ∧ y < memblockLimitAddr limit mb.memory.regions := by
    intro y
    change mb₁.memory.covered = mb.memory.covered \ _ at memory₁
    rw [memory', memory₁, Set.mem_sdiff, Set.mem_Ici, not_le]
  have lowest : mb'.memory.covered = lowestBytes mb.memory.regions (min limit mb.memory.totalSize) := by
    ext y
    rw [held y]
    constructor
    · rintro ⟨mem, below⟩
      have count := (lt_limitAddr_iff ord mem limit).mp below
      have bound : coveredBelow mb.memory.regions y < mb.memory.totalSize := by
        rw [wf.memory.total, sizeSum_eq_coveredBelow ord.bounded]
        exact lt_of_lt_of_le (coveredBelow_lt_succ mem) (coveredBelow_mono (by omega))
      exact ⟨mem, lt_min count bound⟩
    · rintro ⟨mem, count⟩
      exact ⟨mem, (lt_limitAddr_iff ord mem limit).mpr (lt_of_lt_of_le count (min_le_left _ _))⟩
  refine ⟨mb', ?_, wf', lowest, ?_, ?_⟩
  · unfold memblockEnforceMemoryLimit
    rw [if_neg (Nat.pos_iff_ne_zero.mp pos)]
    dsimp only
    rw [h₁, Option.bind_some, h₂, Option.map_some]
  · -- memory holds the addresses of the old memory below the cut-off: count them
    have ord' := wf'.memory.regions.ordered
    have same : (Finset.range ullongMax).filter (fun y => ∃ r ∈ mb'.memory.regions, r.base ≤ y ∧ y < r.base + r.size) =
        (Finset.range (memblockLimitAddr limit mb.memory.regions)).filter
          (fun y => ∃ r ∈ mb.memory.regions, r.base ≤ y ∧ y < r.base + r.size) := by
      ext y
      simp only [Finset.mem_filter, Finset.mem_range]
      change y < ullongMax ∧ y ∈ mb'.memory.covered ↔
        y < memblockLimitAddr limit mb.memory.regions ∧ y ∈ mb.memory.covered
      rw [held y]
      constructor
      · rintro ⟨-, mem, below⟩
        exact ⟨below, mem⟩
      · rintro ⟨below, mem⟩
        exact ⟨by omega, mem, below⟩
    rw [wf'.memory.total, sizeSum_eq_coveredBelow ord'.bounded, wf.memory.total,
      ← coveredBelow_limitAddr ord limit, coveredBelow_eq_card ord'.pairwise, coveredBelow_eq_card ord.pairwise,
      same]
  · change mb'.reserved.covered = mb₁.reserved.covered \ _ at reserved'
    rw [reserved', reserved₁]

/-- Half of a megabyte of memory kept, its first page reserved. -/
theorem memblockEnforceMemoryLimit_truncates_added :
    ∃ mb, memblockRun 8 bootEnv memblockInit [.add 0x100000 0x100000, .reserve 0x100000 0x1000] = some mb ∧
      mb.Wf ∧ 0 < 0x80000 ∧
      (mb.memory.regions.length + 2 ≤ mb.memory.max ∧ mb.reserved.regions.length + 2 ≤ mb.reserved.max) ∧
      ∃ mb', memblockEnforceMemoryLimit 3 bootEnv mb 0x80000 = some mb' ∧
        mb'.memory.totalSize = min 0x80000 mb.memory.totalSize := by
  obtain ⟨mb, run, wf, room⟩ := @memblockRun_boot_check 8 [.add 0x100000 0x100000, .reserve 0x100000 0x1000]
    (fun mb => mb.memory.regions.length + 2 ≤ mb.memory.max ∧ mb.reserved.regions.length + 2 ≤ mb.reserved.max) _
    (by decide +kernel)
  obtain ⟨mb', limited, -, -, total, -⟩ :=
    memblockEnforceMemoryLimit_truncates 0 bootEnv mb wf 0x80000 (by decide) room
  exact ⟨mb, run, wf, by decide, room, mb', limited, total⟩

/-- 127 separate pages of memory added before resizing is allowed: memory has no room for the
two more regions `memblock_isolate_range` asks for. -/
def bootMemoryCalls : List MemblockCall :=
  (List.range 127).map fun i => .add (UInt64.ofNat ((2 * i + 1) * 4096)) 4096

/-- With memory full and resizing not yet allowed, the removal of memory above the cut-off
returns `-ENOMEM`, which `memblock_enforce_memory_limit` ignores: memory keeps its pages above the
first one. -/
theorem memblockEnforceMemoryLimit_full_memory :
    ∃ mb mb', MemblockReachable bootEnv mb ∧ memblockEnforceMemoryLimit 8 bootEnv mb 4096 = some mb' ∧
      mb'.memory.totalSize ≠ min 4096 mb.memory.totalSize ∧ 12288 ∈ mb'.memory.covered ∧
      12288 ∉ lowestBytes mb.memory.regions (min 4096 mb.memory.totalSize) := by
  have check : ((memblockRun 8 bootEnv memblockInit bootMemoryCalls).bind fun mb =>
      (memblockEnforceMemoryLimit 8 bootEnv mb 4096).map fun mb' =>
        decide (mb'.memory.totalSize ≠ min 4096 mb.memory.totalSize ∧ nodeAt mb'.memory.regions 12288 ≠ none ∧
          4096 ≤ coveredBelow mb.memory.regions 12288)) = some true := by
    decide +kernel
  obtain ⟨mb, run, h⟩ := Option.bind_eq_some_iff.mp check
  obtain ⟨mb', call, facts⟩ := Option.map_eq_some_iff.mp h
  obtain ⟨total, held, counted⟩ := of_decide_eq_true facts
  refine ⟨mb, mb', MemblockReachable.run .init run, call, total, mem_covered_iff.mpr held, ?_⟩
  rintro ⟨-, lowest⟩
  have := min_le_left 4096 mb.memory.totalSize
  omega

end LinuxKernel
