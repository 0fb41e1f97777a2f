import LinuxKernel.Creds.Types

/-!
# The vmap area allocator

`mm/vmalloc.c`: the live `vmap_area`s as one list in address order. `alloc_vmap_area` searches
from `free_vmap_cache` unless the request is more permissive than the cached one, purging once
on overflow; `__free_vmap_area` moves the cache below the freed area. Sums wrap modulo `2 ^ 64`.
-/

namespace LinuxKernel

/-- `a + b` on `unsigned long`. -/
def ulongAdd (a b : Nat) : Nat := (a + b) % 2 ^ 64

/-- `a - b` on `unsigned long`. -/
def ulongSub (a b : Nat) : Nat := (a + 2 ^ 64 - b) % 2 ^ 64

/-- `ALIGN(x, a)` on `unsigned long` for a power of two `a`: `(x + a - 1) & ~(a - 1)`. -/
def alignUp (x a : Nat) : Nat := ulongAdd x (a - 1) / a * a

/-- `struct vmap_area`: its range, and whether `VM_LAZY_FREE` is set. -/
structure VmapArea where
  vaStart : Nat
  vaEnd : Nat
  lazyFree : Bool
  deriving DecidableEq, Repr

/-- The globals of the allocator: the areas in address order, and the search cache. -/
structure Vmap where
  areas : List VmapArea
  freeVmapCache : Option Nat
  cachedHoleSize : Nat
  cachedVstart : Nat
  cachedAlign : Nat
  deriving DecidableEq, Repr

/-- The allocator at boot: no area and no cache. -/
def vmapInit : Vmap := ⟨[], none, 0, 0, 0⟩

/-- The area the node of `start` is, followed by those `rb_next` reaches from it. -/
def vmapAreasFrom (areas : List VmapArea) (start : Nat) : List VmapArea :=
  areas.dropWhile (fun va => va.vaStart != start)

/-- The descent of `alloc_vmap_area` from the root for the area to walk from: the lowest area
ending at or above `addr`. Where one area ends at `addr` and the next begins there, the descent
may stop at the upper one; the walk from the lower one steps to it with `addr` unchanged. -/
def vmapFirstAbove (areas : List VmapArea) (addr : Nat) : List VmapArea :=
  areas.dropWhile (fun va => va.vaEnd < addr)

/-- `rb_prev` of the area beginning at `start`, by its `va_start`. -/
def vmapPrev : List VmapArea → Nat → Option Nat
  | [], _ => none
  | [_], _ => none
  | prev :: va :: rest, start =>
    if va.vaStart = start then some prev.vaStart else vmapPrev (va :: rest) start

/-- `__insert_vmap_area(va)`: the descent goes left below every area ending above
`va->va_start`, so `va` comes before the first of them. -/
def insertVmapArea (va : VmapArea) : List VmapArea → List VmapArea
  | [] => [va]
  | tmp :: rest => if va.vaStart < tmp.vaEnd then va :: tmp :: rest else tmp :: insertVmapArea va rest

/-- The walk of `alloc_vmap_area` from `first` over the areas `rb_next` reaches: while
`[addr, addr + size)` runs into the area and ends at or below `vend`, `addr` moves past it and
the hole below it is noted in `cached_hole_size`. Gives `cached_hole_size` and the address at
`found:`, or `none` at `overflow:`. -/
def allocVmapWalk (size align vend : Nat) : Nat → List VmapArea → Nat → Nat × Option Nat
  | cachedHoleSize, [], addr => (cachedHoleSize, some addr)
  | cachedHoleSize, first :: rest, addr =>
    if ulongAdd addr size > first.vaStart ∧ ulongAdd addr size ≤ vend then
      let cachedHoleSize :=
        if ulongAdd addr cachedHoleSize < first.vaStart then ulongSub first.vaStart addr
        else cachedHoleSize
      let addr := alignUp first.vaEnd align
      if ulongSub (ulongAdd addr size) 1 < addr then (cachedHoleSize, none)
      else allocVmapWalk size align vend cachedHoleSize rest addr
    else (cachedHoleSize, some addr)

/-- The search of `alloc_vmap_area` after `nocache:`, from `vstart`. -/
def allocVmapNocache (v : Vmap) (size align vstart vend : Nat) : Vmap × Option Nat :=
  let v := { v with cachedHoleSize := 0, freeVmapCache := none }
  let addr := alignUp vstart align
  if ulongSub (ulongAdd addr size) 1 < addr then (v, none)
  else
    match allocVmapWalk size align vend 0 (vmapFirstAbove v.areas addr) addr with
    | (cachedHoleSize, found) => ({ v with cachedHoleSize := cachedHoleSize }, found)

/-- One search of `alloc_vmap_area`, from `retry:` to `found:` or `overflow:`, with the check
of `found:` against `vend`: the cache globals it leaves and the address of the new area, or
`none` for `overflow:`. -/
def allocVmapSearch (v : Vmap) (size align vstart vend : Nat) : Vmap × Option Nat :=
  -- a request more permissive than the cached one searches from `vstart`
  let cache := if size < v.cachedHoleSize ∨ vstart < v.cachedVstart ∨ align < v.cachedAlign then none
    else v.freeVmapCache
  let v := { v with cachedVstart := vstart, cachedAlign := align }
  let (v, found) :=
    match cache.map (vmapAreasFrom v.areas) with
    | some (first :: rest) =>
      let addr := alignUp first.vaEnd align
      if addr < vstart then allocVmapNocache v size align vstart vend
      else if ulongSub (ulongAdd addr size) 1 < addr then (v, none)
      else
        match allocVmapWalk size align vend v.cachedHoleSize (first :: rest) addr with
        | (cachedHoleSize, found) => ({ v with cachedHoleSize := cachedHoleSize }, found)
    -- no cache; a cache on no live area is not reachable (`VmapCacheLive`)
    | _ => allocVmapNocache v size align vstart vend
  (v, found.filter fun addr => ulongAdd addr size ≤ vend)

/-- `__free_vmap_area(va)`: the cache moves to `rb_prev(va)` when `va` is at or below it, and is
dropped when `va` ends below `cached_vstart`. -/
def freeVmapArea (v : Vmap) (va : VmapArea) : Vmap :=
  let cache :=
    match v.freeVmapCache with
    | none => none
    | some cache =>
      if va.vaEnd < v.cachedVstart then none
      else if va.vaStart ≤ cache then vmapPrev v.areas va.vaStart
      else some cache
  { v with areas := v.areas.erase va, freeVmapCache := cache }

/-- `purge_vmap_area_lazy()`: every area with `VM_LAZY_FREE` set is freed, in address order. -/
def purgeVmapAreaLazy (v : Vmap) : Vmap :=
  (v.areas.filter (·.lazyFree)).foldl freeVmapArea v

/-- `free_vmap_area_noflush(va)` of the area beginning at `start`: it is marked
`VM_LAZY_FREE` and stays until a purge. -/
def freeVmapAreaNoflush (v : Vmap) (start : Nat) : Vmap :=
  { v with areas := v.areas.map fun va => if va.vaStart = start then { va with lazyFree := true } else va }

/-- What `found:` does with `addr`: the area `[addr, addr + size)` is inserted and cached. -/
def allocVmapInsert (v : Vmap) (size addr : Nat) : Vmap × VmapArea :=
  let va : VmapArea := ⟨addr, ulongAdd addr size, false⟩
  ({ v with areas := insertVmapArea va v.areas, freeVmapCache := some addr }, va)

/-- `alloc_vmap_area(size, align, vstart, vend, ...)`; `kmallocOk` is whether the `vmap_area`
is allocated. An overflow purges the lazy areas and searches once more. -/
def allocVmapArea (v : Vmap) (size align vstart vend : Nat) (kmallocOk : Bool) :
    Vmap × Except Errno VmapArea :=
  if !kmallocOk then (v, .error .noMem)
  else
    match allocVmapSearch v size align vstart vend with
    | (v, some addr) => match allocVmapInsert v size addr with | (v, va) => (v, .ok va)
    | (v, none) =>
      match allocVmapSearch (purgeVmapAreaLazy v) size align vstart vend with
      | (v, some addr) => match allocVmapInsert v size addr with | (v, va) => (v, .ok va)
      | (v, none) => (v, .error .busy)

/-- The calls that change the allocator. -/
inductive VmapOp
  | alloc (size align vstart vend : Nat) (kmallocOk : Bool)
  /-- `free_vmap_area` of the area beginning at the address. -/
  | free (start : Nat)
  /-- `free_vmap_area_noflush` of the area beginning at the address. -/
  | freeLazy (start : Nat)
  | purge
  deriving DecidableEq, Repr

def vmapStep (v : Vmap) : VmapOp → Vmap
  | .alloc size align vstart vend kmallocOk => (allocVmapArea v size align vstart vend kmallocOk).1
  | .free start =>
    match v.areas.find? (·.vaStart = start) with
    | some va => freeVmapArea v va
    | none => v
  | .freeLazy start => freeVmapAreaNoflush v start
  | .purge => purgeVmapAreaLazy v

def vmapRun (v : Vmap) (ops : List VmapOp) : Vmap := ops.foldl vmapStep v

end LinuxKernel
