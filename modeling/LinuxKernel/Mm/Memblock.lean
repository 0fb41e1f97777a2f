import LinuxKernel.Creds.Types
import LinuxKernel.Lib.Ctype

/-!
# memblock

`mm/memblock.c`: the sorted, disjoint, merged region arrays `memblock.memory` and
`memblock.reserved`. Addresses are `Nat` (`memblock_cap_size` keeps sums from wrapping). The
nested doublings of `memblock_double_array` run on `fuel`, and what the kernel around answers is
a `MemblockEnv`.
-/

namespace LinuxKernel

/-- `ULLONG_MAX`, the largest `phys_addr_t`. -/
def ullongMax : Nat := 2 ^ 64 - 1

/-- `MAX_NUMNODES`, `1 << CONFIG_NODES_SHIFT` on x86_64. -/
def maxNumnodes : Int := 64

/-- `INIT_MEMBLOCK_REGIONS`, the length of the two static arrays. -/
def initMemblockRegions : Nat := 128

/-- `sizeof(struct memblock_region)` on x86_64. -/
def memblockRegionSize : Nat := 24

def pageAlign (x : Nat) : Nat := (x + pageSize - 1) / pageSize * pageSize

structure MemblockRegion where
  base : Nat
  size : Nat
  nid : Int
  deriving DecidableEq, Repr

/-- The region an empty array holds. -/
def emptyRegion : MemblockRegion := ⟨0, 0, maxNumnodes⟩

/-- `struct memblock_type`, the `cnt` regions in use as a list, with where the array lives:
`array` is the physical address of an array from memblock or slab, `none` for the static
one, and `inSlab` is the flag `memblock_memory_in_slab` or `memblock_reserved_in_slab`. -/
structure MemblockType where
  regions : List MemblockRegion
  max : Nat
  totalSize : Nat
  array : Option Nat
  inSlab : Bool
  deriving DecidableEq, Repr

/-- `struct memblock`, with `memblock_can_resize`. -/
structure Memblock where
  memory : MemblockType
  reserved : MemblockType
  currentLimit : Nat
  canResize : Bool
  deriving DecidableEq, Repr

/-- Which of the two arrays a `struct memblock_type *` points to. -/
inductive MemblockKind
  | memory
  | reserved
  deriving DecidableEq, Repr

def Memblock.type (mb : Memblock) : MemblockKind → MemblockType
  | .memory => mb.memory
  | .reserved => mb.reserved

def Memblock.setType (mb : Memblock) : MemblockKind → MemblockType → Memblock
  | .memory, t => { mb with memory := t }
  | .reserved, t => { mb with reserved := t }

/-- The static `memblock` at boot: both arrays static and empty, `current_limit`
`MEMBLOCK_ALLOC_ANYWHERE`, resizing not yet allowed. -/
def memblockInit : Memblock :=
  { memory := ⟨[emptyRegion], initMemblockRegions, 0, none, false⟩
    reserved := ⟨[emptyRegion], initMemblockRegions, 0, none, false⟩
    currentLimit := ullongMax
    canResize := false }

/-- What `memblock_double_array` gets from the rest of the kernel: whether slab is up, the
physical address of the array `kmalloc` returns (0 for `NULL`), and the address
`memblock_find_in_range(start, end, size, PAGE_SIZE)` returns (0 when it finds nothing), which
lies below the `end` that `memblock_find_in_range_node` clamps to. -/
structure MemblockEnv where
  slab : Bool
  kmalloc : Nat
  findInRange : Memblock → Nat → Nat → Nat → Nat
  findInRange_fits : ∀ mb start end_ size, findInRange mb start end_ size ≠ 0 →
    findInRange mb start end_ size + size ≤ max (max start pageSize) end_

/-- `memblock_cap_size`: `size` cut so that `base + size` does not pass `ULLONG_MAX`. -/
def memblockCapSize (base size : Nat) : Nat := min size (ullongMax - base)

/-- `memblock_remove_region`, putting the placeholder back when the array empties. -/
def memblockRemoveRegion (t : MemblockType) (r : Nat) : MemblockType :=
  let t := { t with totalSize := t.totalSize - (t.regions.getD r emptyRegion).size,
                    regions := t.regions.eraseIdx r }
  if t.regions = [] then { t with regions := [emptyRegion] } else t

/-- The loop of `memblock_merge_regions` from `this = regions[i]` on, over the regions after
it. -/
def memblockMergeFrom (this : MemblockRegion) : List MemblockRegion → List MemblockRegion
  | [] => [this]
  | next :: rest =>
    if this.base + this.size ≠ next.base ∨ this.nid ≠ next.nid then
      this :: memblockMergeFrom next rest
    else memblockMergeFrom { this with size := this.size + next.size } rest

def memblockMergeRegions : List MemblockRegion → List MemblockRegion
  | [] => []
  | this :: rest => memblockMergeFrom this rest

/-- The overlap walk of `memblock_add_region` over the regions from `i` on, `base` being where
the part of `[obase, end)` still to be placed starts. It gives the regions with, when `insert`,
each uncovered piece inserted before the region that follows it, then `nr_new`, the number of
pieces, and the size they add to `total_size`. -/
def memblockAddWalk (insert : Bool) (end_ : Nat) (nid : Int) :
    Nat → List MemblockRegion → List MemblockRegion × Nat × Nat
  | base, [] =>
    if base < end_ then ((if insert then [⟨base, end_ - base, nid⟩] else []), 1, end_ - base)
    else ([], 0, 0)
  | base, rgn :: rest =>
    if rgn.base ≥ end_ then
      -- `break`: the remaining portion goes in at `i`, before `rgn`
      if base < end_ then
        ((if insert then [⟨base, end_ - base, nid⟩] else []) ++ rgn :: rest, 1, end_ - base)
      else (rgn :: rest, 0, 0)
    else if rgn.base + rgn.size ≤ base then
      let w := memblockAddWalk insert end_ nid base rest
      (rgn :: w.1, w.2)
    else
      let w := memblockAddWalk insert end_ nid (min (rgn.base + rgn.size) end_) rest
      if rgn.base > base then
        ((if insert then [⟨base, rgn.base - base, nid⟩] else []) ++ rgn :: w.1, w.2.1 + 1,
          w.2.2 + (rgn.base - base))
      else (rgn :: w.1, w.2)

/-- The walk of `memblock_isolate_range` over the regions from `i` on, with `se` the
`(*start_rgn, *end_rgn)` recorded so far: the regions with those crossing `base` or `end`
split there, and the indices of the first region inside and past the last one. -/
def memblockIsolateWalk (base end_ : Nat) :
    Nat → List MemblockRegion → Nat × Nat → List MemblockRegion × Nat × Nat
  | _, [], se => ([], se)
  | i, rgn :: rest, se =>
    if rgn.base ≥ end_ then (rgn :: rest, se)
    else if rgn.base + rgn.size ≤ base then
      let w := memblockIsolateWalk base end_ (i + 1) rest se
      (rgn :: w.1, w.2)
    else
      -- crossing `base`: the bottom half goes in at `i`, and the loop goes on with the top half
      let below : List MemblockRegion :=
        if rgn.base < base then [⟨rgn.base, base - rgn.base, rgn.nid⟩] else []
      let top : MemblockRegion :=
        if rgn.base < base then ⟨base, rgn.size - (base - rgn.base), rgn.nid⟩ else rgn
      let i := i + below.length
      let se := (if se.2 = 0 then i else se.1, i + 1)
      if top.base + top.size > end_ then
        -- crossing `end`: the bottom half, revisited with `i--`, lies inside; the top half
        -- after it starts at `end`, where the loop stops
        (below ++ ⟨top.base, end_ - top.base, top.nid⟩ ::
          ⟨end_, top.size - (end_ - top.base), top.nid⟩ :: rest, se)
      else
        let w := memblockIsolateWalk base end_ (i + 1) rest se
        (below ++ top :: w.1, w.2)

/-- The second round of `memblock_add_region`, inserting the pieces of `[base, end)` that no
region covers, and the `memblock_merge_regions` after it. -/
def memblockAddInsert (t : MemblockType) (base end_ : Nat) (nid : Int) : MemblockType :=
  let w := memblockAddWalk true end_ nid base t.regions
  { t with regions := memblockMergeRegions w.1, totalSize := t.totalSize + w.2.2 }

/-- The loop of `memblock_isolate_range` once the array has room, with
`(*start_rgn, *end_rgn)`. -/
def memblockIsolateRegions (t : MemblockType) (base end_ : Nat) : MemblockType × Nat × Nat :=
  let w := memblockIsolateWalk base end_ 0 t.regions (0, 0)
  ({ t with regions := w.1 }, w.2)

/-- `for (i = end_rgn - 1; i >= start_rgn; i--) memblock_remove_region(type, i)`. -/
def memblockRemoveRegions (t : MemblockType) (startRgn : Nat) : Nat → MemblockType
  | 0 => t
  | i + 1 => if i < startRgn then t else memblockRemoveRegions (memblockRemoveRegion t i) startRgn i

mutual

/-- `memblock_double_array`, `false` for its -1. -/
def memblockDoubleArray : Nat → MemblockEnv → Memblock → MemblockKind → Nat → Nat →
    Option (Memblock × Bool)
  | 0, _, _, _, _, _ => none
  | fuel + 1, env, mb, k, newAreaStart, newAreaSize =>
    if !mb.canResize then some (mb, false) else
    let t := mb.type k
    let oldSize := t.max * memblockRegionSize
    let newSize := oldSize * 2
    let oldAllocSize := pageAlign oldSize
    let newAllocSize := pageAlign newSize
    -- only the range waiting to be reserved in reserved is kept clear of
    let areaStart := if k = .reserved then newAreaStart else 0
    let areaSize := if k = .reserved then newAreaSize else 0
    let found := env.findInRange mb (areaStart + areaSize) mb.currentLimit newAllocSize
    let addr :=
      if env.slab then env.kmalloc
      else if found = 0 ∧ areaSize ≠ 0 then
        env.findInRange mb 0 (min areaStart mb.currentLimit) newAllocSize
      else found
    if addr = 0 then some (mb, false) else
    let mb := mb.setType k { t with max := t.max * 2, array := some addr }
    let freed : Option Memblock :=
      if t.inSlab then some mb
      else match t.array with
        | none => some mb
        | some old => (memblockRemove fuel env mb .reserved old oldAllocSize).map Prod.fst
    freed.bind fun mb =>
      let reserved : Option Memblock :=
        if env.slab then some mb
        else (memblockAddRegion fuel env mb .reserved addr newAllocSize maxNumnodes).bind fun r =>
          -- `BUG_ON`: the kernel stops if the new array cannot be reserved
          match r.2 with
          | .ok () => some r.1
          | .error _ => none
      reserved.map fun mb => (mb.setType k { mb.type k with inSlab := env.slab }, true)

/-- `while (type->cnt + n > type->max) if (memblock_double_array(type, base, size) < 0)`:
`false` when a doubling fails. -/
def memblockGrow : Nat → MemblockEnv → Memblock → MemblockKind → Nat → Nat → Nat →
    Option (Memblock × Bool)
  | 0, _, _, _, _, _, _ => none
  | fuel + 1, env, mb, k, n, base, size =>
    if (mb.type k).regions.length + n > (mb.type k).max then
      (memblockDoubleArray fuel env mb k base size).bind fun r =>
        if r.2 then memblockGrow fuel env r.1 k n base size else some (r.1, false)
    else some (mb, true)

def memblockAddRegion : Nat → MemblockEnv → Memblock → MemblockKind → Nat → Nat → Int →
    Option (Memblock × Except Errno Unit)
  | 0, _, _, _, _, _, _ => none
  | fuel + 1, env, mb, k, base, size, nid =>
    let size := memblockCapSize base size
    if size = 0 then some (mb, .ok ()) else
    let t := mb.type k
    if (t.regions.headD emptyRegion).size = 0 then
      some (mb.setType k { t with regions := t.regions.set 0 ⟨base, size, nid⟩, totalSize := size },
        .ok ())
    else
      -- the first round only counts the pieces; the array may move before the second
      let nrNew := (memblockAddWalk false (base + size) nid base t.regions).2.1
      (memblockGrow fuel env mb k nrNew base size).map fun r =>
        if r.2 then (r.1.setType k (memblockAddInsert (r.1.type k) base (base + size) nid), .ok ())
        else (r.1, .error .noMem)

/-- `memblock_isolate_range`, with `(*start_rgn, *end_rgn)`. -/
def memblockIsolateRange : Nat → MemblockEnv → Memblock → MemblockKind → Nat → Nat →
    Option (Memblock × Except Errno (Nat × Nat))
  | 0, _, _, _, _, _ => none
  | fuel + 1, env, mb, k, base, size =>
    let size := memblockCapSize base size
    if size = 0 then some (mb, .ok (0, 0)) else
    (memblockGrow fuel env mb k 2 base size).map fun r =>
      if r.2 then
        let w := memblockIsolateRegions (r.1.type k) base (base + size)
        (r.1.setType k w.1, .ok w.2)
      else (r.1, .error .noMem)

/-- `__memblock_remove`; `memblock_remove` and `memblock_free` are it on memory and on
reserved. -/
def memblockRemove : Nat → MemblockEnv → Memblock → MemblockKind → Nat → Nat →
    Option (Memblock × Except Errno Unit)
  | 0, _, _, _, _, _ => none
  | fuel + 1, env, mb, k, base, size =>
    (memblockIsolateRange fuel env mb k base size).map fun r =>
      match r.2 with
      | .error e => (r.1, .error e)
      | .ok (s, e) => (r.1.setType k (memblockRemoveRegions (r.1.type k) s e), .ok ())

end

def memblockSetNode (fuel : Nat) (env : MemblockEnv) (mb : Memblock) (base size : Nat)
    (nid : Int) : Option (Memblock × Except Errno Unit) :=
  (memblockIsolateRange fuel env mb .memory base size).map fun r =>
    match r.2 with
    | .error e => (r.1, .error e)
    | .ok (s, e) =>
      let t := r.1.memory
      let regions := t.regions.mapIdx fun i rgn => if s ≤ i ∧ i < e then { rgn with nid } else rgn
      ({ r.1 with memory := { t with regions := memblockMergeRegions regions } }, .ok ())

/-- The loop of `memblock_enforce_memory_limit` that finds `max_addr`, `limit` bytes into
memory. -/
def memblockLimitAddr : Nat → List MemblockRegion → Nat
  | _, [] => ullongMax
  | limit, r :: rs => if limit ≤ r.size then r.base + limit else memblockLimitAddr (limit - r.size) rs

def memblockEnforceMemoryLimit (fuel : Nat) (env : MemblockEnv) (mb : Memblock) (limit : Nat) :
    Option Memblock :=
  if limit = 0 then some mb else
  let maxAddr := memblockLimitAddr limit mb.memory.regions
  (memblockRemove fuel env mb .memory maxAddr ullongMax).bind fun r =>
    (memblockRemove fuel env r.1 .reserved maxAddr ullongMax).map Prod.fst

/-- The calls of the memblock API, with their `phys_addr_t` arguments. -/
inductive MemblockCall
  | add (base size : UInt64)
  | addNode (base size : UInt64) (nid : Int)
  | reserve (base size : UInt64)
  | remove (base size : UInt64)
  | free (base size : UInt64)
  | setNode (base size : UInt64) (nid : Int)
  | enforceMemoryLimit (limit : UInt64)
  | allowResize

/-- One call on `memblock`, with what it returns. -/
def memblockCall (fuel : Nat) (env : MemblockEnv) (mb : Memblock) :
    MemblockCall → Option (Memblock × Except Errno Unit)
  | .add base size => memblockAddRegion fuel env mb .memory base.toNat size.toNat maxNumnodes
  | .addNode base size nid => memblockAddRegion fuel env mb .memory base.toNat size.toNat nid
  | .reserve base size => memblockAddRegion fuel env mb .reserved base.toNat size.toNat maxNumnodes
  | .remove base size => memblockRemove fuel env mb .memory base.toNat size.toNat
  | .free base size => memblockRemove fuel env mb .reserved base.toNat size.toNat
  | .setNode base size nid => memblockSetNode fuel env mb base.toNat size.toNat nid
  | .enforceMemoryLimit limit =>
    (memblockEnforceMemoryLimit fuel env mb limit.toNat).map fun mb => (mb, .ok ())
  | .allowResize => some ({ mb with canResize := true }, .ok ())

end LinuxKernel
