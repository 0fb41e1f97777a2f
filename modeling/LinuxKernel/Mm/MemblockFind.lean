import LinuxKernel.Mm.MemblockFree

/-!
# Finding free space and looking up addresses

`memblock_find_in_range_node` over the ranges the reverse free walk yields (`Yields`),
`memblock_alloc_base_nid`, and the binary search `memblock_search` on `unsigned int` bounds,
given `fuel` rounds since `left + right` may wrap.
-/

namespace LinuxKernel

def memblockAllocAccessible : Nat := 0

def clamp (val lo hi : Nat) : Nat := min (max val lo) hi

/-- `round_down(x, y)`, `x & ~(y - 1)`, for a power of two `y`. -/
def roundDown (x y : Nat) : Nat := x / y * y

/-- `round_up(x, y)` on `phys_addr_t`, `((x - 1) | (y - 1)) + 1`, for a power of two `y`: `x - 1`
wraps for `x = 0`, and the sum wraps past `ULLONG_MAX`. -/
def roundUp (x y : Nat) : Nat := ((x + ullongMax) % 2 ^ 64 / y * y + y) % 2 ^ 64

/-! ## `memblock_find_in_range_node` -/

/-- The loop of `memblock_find_in_range_node` over the free ranges, top down. -/
def memblockFindLoop (start end_ size align : Nat) : List FreeRange → Nat
  | [] => 0
  | r :: rs =>
    let thisStart := clamp r.start start end_
    let thisEnd := clamp r.end_ start end_
    if thisEnd < size then memblockFindLoop start end_ size align rs
    else
      let cand := roundDown (thisEnd - size) align
      if cand ≥ thisStart then cand else memblockFindLoop start end_ size align rs

/-- `memblock_find_in_range_node(start, end, size, align, nid)`, with `ranges` what
`for_each_free_mem_range_reverse(i, nid, ...)` yields. -/
def memblockFindInRangeNode (mb : Memblock) (ranges : List FreeRange) (start end_ size align : Nat) :
    Nat :=
  -- pump up `end`
  let end_ := if end_ = memblockAllocAccessible then mb.currentLimit else end_
  -- avoid allocating the first page
  let start := max start pageSize
  let end_ := max start end_
  memblockFindLoop start end_ size align ranges

/-- `memblock_alloc_base_nid(size, align, max_addr, nid)`, with `ranges` what the walk on node
`nid` yields: the state after it and the address, `0` when nothing is found or it cannot be
reserved. -/
def memblockAllocBaseNid (fuel : Nat) (env : MemblockEnv) (mb : Memblock) (ranges : List FreeRange)
    (size align maxAddr : Nat) : Option (Memblock × Nat) :=
  -- align `size` to avoid excessive fragmentation on reserved array
  let size := roundUp size align
  let found := memblockFindInRangeNode mb ranges 0 maxAddr size align
  if found = 0 then some (mb, 0)
  else (memblockAddRegion fuel env mb .reserved found size maxNumnodes).map fun r =>
    match r.2 with
    | .ok () => (r.1, found)
    | .error _ => (r.1, 0)

/-! ## `memblock_search` -/

/-- The `do ... while (left < right)` loop of `memblock_search` with `fuel` rounds left: `some`
the index found or `-1`, `none` if the rounds run out. -/
def memblockSearchLoop (regions : List MemblockRegion) (addr : Nat) : Nat → Nat → Nat → Option Int
  | 0, _, _ => none
  | fuel + 1, left, right =>
    let mid := (right + left) % 2 ^ 32 / 2
    let r := regions.getD mid emptyRegion
    if addr < r.base then
      if left < mid then memblockSearchLoop regions addr fuel left mid else some (-1)
    else if addr ≥ r.base + r.size then
      let left := (mid + 1) % 2 ^ 32
      if left < right then memblockSearchLoop regions addr fuel left right else some (-1)
    else some (cInt mid)

/-- `memblock_search(type, addr)`: `right` starts at `type->cnt` as an `unsigned int`. -/
def memblockSearch (fuel : Nat) (t : MemblockType) (addr : Nat) : Option Int :=
  memblockSearchLoop t.regions addr fuel 0 (t.regions.length % 2 ^ 32)

def memblockIsMemory (fuel : Nat) (mb : Memblock) (addr : Nat) : Option Bool :=
  (memblockSearch fuel mb.memory addr).map (· ≠ -1)

def memblockIsReserved (fuel : Nat) (mb : Memblock) (addr : Nat) : Option Bool :=
  (memblockSearch fuel mb.reserved addr).map (· ≠ -1)

/-- `memblock_is_region_memory(base, size)`: whether the region holding `base` reaches
`base + size`, with `size` capped. -/
def memblockIsRegionMemory (fuel : Nat) (mb : Memblock) (base size : Nat) : Option Bool :=
  (memblockSearch fuel mb.memory base).map fun idx =>
    let end_ := base + memblockCapSize base size
    if idx = -1 then false
    else
      let r := mb.memory.regions.getD idx.toNat emptyRegion
      r.base ≤ base ∧ r.base + r.size ≥ end_

end LinuxKernel
